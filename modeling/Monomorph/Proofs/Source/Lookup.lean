import Mathlib.Data.List.Nodup
import Monomorph.Proofs.Source.Names
import Monomorph.Proofs.Symbol.Clean

/-!
# Look-up of bare names

A bare name is looked up in all modules, so that a definition is found under its own name and under
no other. If no two types of a program have the same name, then a name is found among the structs,
the enums or the classes, and among no two of them.
-/

namespace Monomorph

open List

/-- A name without a qualifier. -/
def IsBare (name : String) : Prop := (QualifiedName.ofString name).qualifier = none

instance : DecidablePred IsBare := fun name =>
  inferInstanceAs (Decidable ((QualifiedName.ofString name).qualifier = none))

theorem IsBare.ofString_eq {name : String} (h : IsBare name) :
    QualifiedName.ofString name = ⟨none, name⟩ := by
  rw [IsBare] at h
  unfold QualifiedName.ofString at h ⊢
  split at h
  · cases h
  · rfl

theorem cutReversed_eq_none {text : List Char} (h : ':' ∉ text) :
    QualifiedName.cutReversed text = none := by
  fun_induction QualifiedName.cutReversed text with
  | case1 rest => exact absurd mem_cons_self h
  | case2 c rest _ ih =>
    rw [ih fun hmem => h (mem_cons_of_mem _ hmem)]
    rfl
  | case3 => rfl

/-- Clean names are bare. -/
theorem isBare_of_isClean {name : String} (h : Symbol.IsClean name) : IsBare name := by
  have hcolon : ':' ∉ name.toList := by
    have hname := h.identifier
    cases hchars : name.toList with
    | nil => exact not_mem_nil
    | cons c rest =>
      rw [hchars, Symbol.isIdentifier, Bool.and_eq_true, all_eq_true] at hname
      intro hmem
      obtain rfl | hmem := mem_cons.1 hmem
      · exact absurd hname.1 (by decide)
      · exact absurd (hname.2 _ hmem) (by decide)
  rw [IsBare, QualifiedName.ofString, cutReversed_eq_none fun hmem => hcolon (mem_reverse.1 hmem)]

namespace Program

variable {α : Type} [HasName α]

/-- The names of the items of one kind, in all modules. -/
def names (p : Program) (table : Module → Table α) : List String :=
  p.modules.flatMap fun m => (table m).items.map HasName.nameOf

/-- The names of the structs, enums and classes, in all modules. -/
def typeNames (p : Program) : List String :=
  p.names Module.structs ++ p.names Module.enums ++ p.names Module.classes

variable {p : Program} {table : Module → Table α} {name : String} {d : α}

theorem lookup_of_isBare (h : IsBare name) :
    p.lookup table name = p.modules.findSome? fun m => (table m).get? name := by
  rw [lookup, h.ofString_eq]

section

variable (hbare : IsBare name)

include hbare

/-- What is found under a bare name has that name. -/
theorem name_of_lookup (h : p.lookup table name = some d) :
    HasName.nameOf d = name ∧ name ∈ p.names table := by
  obtain ⟨m, hm, hd, hname⟩ := named_of_lookup h
  rw [hbare.ofString_eq] at hname
  exact ⟨hname, mem_flatMap.2 ⟨m, hm, mem_map.2 ⟨d, hd, hname⟩⟩⟩

theorem name_of_struct? {d : StructDef} (h : p.struct? name = some d) : d.name = name :=
  (name_of_lookup hbare h).1

theorem name_of_enum? {d : EnumDef} (h : p.enum? name = some d) : d.name = name :=
  (name_of_lookup hbare h).1

theorem name_of_class? {d : ClassDef} (h : p.class? name = some d) : d.name = name :=
  (name_of_lookup hbare h).1

/-- A bare name is found if and only if some item has it. -/
theorem isSome_lookup_iff : (p.lookup table name).isSome ↔ name ∈ p.names table := by
  constructor
  · intro h
    obtain ⟨d, hd⟩ := Option.isSome_iff_exists.1 h
    exact (name_of_lookup hbare hd).2
  · intro h
    obtain ⟨m, hm, hname⟩ := mem_flatMap.1 h
    obtain ⟨d, hd, rfl⟩ := mem_map.1 hname
    rw [lookup_of_isBare hbare, findSome?_isSome_iff]
    exact ⟨m, hm, Option.isSome_iff_exists.2 ⟨d, Table.get?_eq_some_iff.2 ⟨hd, rfl⟩⟩⟩

theorem lookup_eq_none (h : name ∉ p.names table) : p.lookup table name = none := by
  rwa [← isSome_lookup_iff hbare, Option.not_isSome_iff_eq_none] at h

end

/-- What is found under any name has a name of its own. -/
theorem mem_names_of_lookup (h : p.lookup table name = some d) :
    HasName.nameOf d ∈ p.names table := by
  obtain ⟨m, hm, hd⟩ := mem_of_lookup h
  exact mem_flatMap.2 ⟨m, hm, mem_map_of_mem hd⟩

/-- If no two items have one name, every item is found under its own name. -/
theorem lookup_of_mem (hnodup : (p.names table).Nodup) (hbare : IsBare (HasName.nameOf d))
    {m : Module} (hm : m ∈ p.modules) (hd : d ∈ (table m).items) :
    p.lookup table (HasName.nameOf d) = some d := by
  have hname : HasName.nameOf d ∈ p.names table :=
    mem_flatMap.2 ⟨m, hm, mem_map_of_mem hd⟩
  obtain ⟨found, hfound⟩ := Option.isSome_iff_exists.1 ((isSome_lookup_iff hbare).2 hname)
  obtain ⟨m', hm', hfound'⟩ := mem_of_lookup hfound
  rw [names, ← map_flatMap] at hnodup
  rw [hfound, inj_on_of_nodup_map hnodup (mem_flatMap.2 ⟨m', hm', hfound'⟩)
    (mem_flatMap.2 ⟨m, hm, hd⟩) (name_of_lookup hbare hfound).1]

/-- If no two items have one name, what is found is found under its own name. -/
theorem lookup_name (hnodup : (p.names table).Nodup) (hbare : IsBare (HasName.nameOf d))
    (h : p.lookup table name = some d) : p.lookup table (HasName.nameOf d) = some d := by
  obtain ⟨m, hm, hd⟩ := mem_of_lookup h
  exact lookup_of_mem hnodup hbare hm hd

/-- The name of a class is not the name of a struct or an enum. -/
theorem notMem_of_mem_classes (h : p.typeNames.Nodup) (hname : name ∈ p.names Module.classes) :
    name ∉ p.names Module.structs ∧ name ∉ p.names Module.enums := by
  have hdisjoint := (nodup_append.1 h).2.2
  exact ⟨fun hmem => hdisjoint name (mem_append_left _ hmem) name hname rfl,
    fun hmem => hdisjoint name (mem_append_right _ hmem) name hname rfl⟩

end Program

end Monomorph
