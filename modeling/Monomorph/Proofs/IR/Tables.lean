import Mathlib.Data.List.Nodup
import Monomorph.IR.Assembly

/-!
# Dispatch tables among the constants

The constants of an assembly are the strings, the coverage markers and the dispatch tables. The
names of the first two start with `@.`, so that a dispatch table is defined once if it was written
once.
-/

namespace Monomorph.IR

open List

namespace Global

/-- Whether a constant has the given name. The name of a constant given by its text is what stands
before the equals sign. -/
def defines (name : String) : Global → Bool
  | bytes own _ | table own _ => own = name
  | verbatim line => (name ++ " = ").toList.isPrefixOf line.toList

/-- The name of a dispatch table. -/
def table? : Global → Option String
  | table name _ => some name
  | bytes .. | verbatim _ => none

/-- A constant that is no dispatch table: the bytes of a string or of a coverage marker. -/
def IsText (g : Global) : Prop :=
  ∃ name value, g = bytes name value ∧ "@.".toList <+: name.toList

theorem isText_bytes {start : String} (h : "@.".toList <+: start.toList) (index value : String) :
    (bytes (start ++ index) value).IsText :=
  ⟨_, _, rfl, h.trans (by rw [String.toList_append]; exact prefix_append _ _)⟩

/-- Text is not what defines a table. -/
theorem IsText.defines_eq_false {g : Global} (h : g.IsText) {name : String}
    (hname : "@vtable.".toList <+: name.toList) : g.defines name = false := by
  obtain ⟨own, value, rfl, hown⟩ := h
  refine decide_eq_false fun heq => ?_
  subst heq
  obtain ⟨rest, hrest⟩ := hown
  obtain ⟨rest', hrest'⟩ := hname
  exact absurd (hrest.trans hrest'.symm) (by simp)

end Global

namespace Assembly

/-- An assembly whose dispatch tables are the given ones, in order, and whose other constants are
text. -/
structure HasTables (a : Assembly) (names : List String) : Prop where
  tables : a.globals.toList.filterMap Global.table? = names
  text : ∀ g ∈ a.globals.toList, g.table? = none → g.IsText

namespace HasTables

variable {a b : Assembly} {names : List String} (h : a.HasTables names)

include h

theorem of_globals_eq (heq : b.globals = a.globals) : b.HasTables names :=
  ⟨heq ▸ h.tables, heq ▸ h.text⟩

/-- One more string or marker. -/
theorem addText {g : Global} (hg : g.IsText) : (a.addGlobal g).HasTables names := by
  obtain ⟨name, value, rfl, hname⟩ := hg
  constructor
  · rw [addGlobal, Array.toList_push, filterMap_append, h.tables]
    exact append_nil names
  · rw [addGlobal, Array.toList_push, forall_mem_append]
    exact ⟨h.text, forall_mem_singleton.2 fun _ => ⟨name, value, rfl, hname⟩⟩

/-- One more dispatch table. -/
theorem addTable (name : String) (entries : List (Option String)) :
    (a.addGlobal (.table name entries)).HasTables (names ++ [name]) := by
  constructor
  · rw [addGlobal, Array.toList_push, filterMap_append, h.tables]
    rfl
  · rw [addGlobal, Array.toList_push, forall_mem_append]
    exact ⟨h.text, forall_mem_singleton.2 fun hnone => nomatch hnone⟩

theorem stringGlobal (value : String) : (a.stringGlobal value).2.HasTables names := by
  rw [Assembly.stringGlobal]
  split
  · exact h
  · exact (h.addText (Global.isText_bytes (by decide) _ value)).of_globals_eq rfl

theorem markerGlobal (name : String) : (a.markerGlobal name).2.HasTables names := by
  rw [Assembly.markerGlobal]
  split
  · exact h
  · exact (h.addText (Global.isText_bytes (by decide) _ name)).of_globals_eq rfl

theorem defineType (name : String) (body : Ty) : (a.defineType name body).HasTables names := by
  rw [Assembly.defineType]
  split
  · exact h
  · exact h.of_globals_eq rfl

theorem declare (symbol : String) (ret : Ty) (params : List Ty) :
    (a.declare symbol ret params).HasTables names := by
  rw [Assembly.declare]
  split
  · exact h
  · exact h.of_globals_eq rfl

theorem begin (header : Header) : (a.begin header).HasTables names :=
  h.of_globals_eq rfl

theorem cover (name : String) : (a.cover name).HasTables names := by
  rw [Assembly.cover]
  split
  · exact ((h.declare coverSymbol .void [.ptr]).markerGlobal name).of_globals_eq rfl
  · exact h

/-- A table that was written once is defined by one constant. -/
theorem filter_defines (hnodup : names.Nodup) {name : String} (hmem : name ∈ names)
    (hname : "@vtable.".toList <+: name.toList) :
    ∃ entries, a.globals.toList.filter (Global.defines name) = [.table name entries] := by
  -- Among the constants, those of that name are exactly the tables of that name.
  have hdefines : ∀ g ∈ a.globals.toList, g.defines name = (g.table? == some name) := by
    intro g hg
    cases htable : g.table? with
    | none => exact (h.text g hg htable).defines_eq_false hname
    | some own =>
      cases g with
      | table own' entries => cases htable; rfl
      | bytes | verbatim => cases htable
  have hone : (a.globals.toList.filter fun g => g.table? == some name).length = 1 := by
    rw [← countP_eq_length_filter, ← count_filterMap, h.tables, count_eq_one_of_mem hnodup hmem]
  rw [filter_congr hdefines]
  obtain ⟨g, hg⟩ := length_eq_one_iff.1 hone
  have htable : g.table? = some name := by
    have hmem := mem_filter.1 (hg ▸ mem_singleton_self g)
    exact beq_iff_eq.1 hmem.2
  cases g with
  | table own entries =>
    cases htable
    exact ⟨entries, hg⟩
  | bytes | verbatim => cases htable

end HasTables

end Assembly

end Monomorph.IR
