import Monomorph.Proofs.Lowering.Seclusion

/-!
# What struct literals store

A struct literal is made in a slot. The base is stored there first, then the listed fields one after
the other, and then the defaults of the fields that are not listed, unless there is a base. The code
of the initialisers stands between these stores, but it cannot reach the slot.

## Main results

* `Lowering.structLiteral_initialises`.
-/

namespace Monomorph

open List Script

namespace IR

/-- Addresses of a value and of its parts: the temporary that holds an address, and the members that
lead there. -/
abbrev Parts := List (Nat × List (Ty × Nat))

/-- The stores to a value and to its parts. -/
def storesTo : Parts → List Line → List (List (Ty × Nat) × Typed)
  | _, [] => []
  | parts, .instr (.member r ty (.temp id) index) :: lines =>
      storesTo (((parts.lookup id).map fun path => (r, path ++ [(ty, index)])).toList ++ parts)
        lines
  | parts, .instr (.store value (.temp id)) :: lines =>
      ((parts.lookup id).map fun path => (path, value)).toList ++ storesTo parts lines
  | parts, _ :: lines => storesTo parts lines

/-- Lines that use none of the addresses store nothing there. -/
theorem storesTo_append {parts : Parts} {lines : List Line}
    (h : ∀ line ∈ lines, ∀ id ∈ parts.map Prod.fst, .temp id ∉ line.operands) (rest : List Line) :
    storesTo parts (lines ++ rest) = storesTo parts rest := by
  induction lines with
  | nil => rfl
  | cons line lines ih =>
    obtain ⟨hline, hlines⟩ := forall_mem_cons.1 h
    have hlookup : ∀ id, .temp id ∈ line.operands → parts.lookup id = none := by
      intro id hid
      refine lookup_eq_none_iff.2 fun part hpart => bne_iff_ne.2 ?_
      rintro rfl
      exact hline _ (mem_map_of_mem hpart) hid
    rw [← ih hlines, cons_append, storesTo.eq_def]
    split
    next heq => cases heq
    next r ty id index _ heq =>
      cases heq
      rw [hlookup id mem_cons_self]
      rfl
    next value id _ heq =>
      cases heq
      rw [hlookup id (mem_cons_of_mem _ mem_cons_self)]
      rfl
    next heq =>
      cases heq
      rfl

end IR

namespace StructDef

/-- Where the value of a field comes from: the last initialiser that lists it, or else the base, or
else its default. -/
def provider? (inits : List FieldInit) (base : Option Expr) (index : Nat) (decl : FieldDef) :
    Option (Option Nat × Expr) :=
  ((inits.filter fun init => init.name = decl.name).getLast?.map fun init =>
    (some index, init.value)).or
    ((base.map fun e => (none, e)).or (decl.default.map fun e => (some index, e)))

/-- The report that a literal leaves out a field. -/
def missing (d : StructDef) (span : Span) (decl : FieldDef) : Diagnostic :=
  .errorAt .field span ("missing field `" ++ decl.name ++ "` in literal of `" ++ d.name ++ "`")
    "field not initialized"

/-- Where no two fields have one name, a name stands for one position. -/
theorem fieldIndex?_eq_some_iff {d : StructDef} (hd : (d.fields.map FieldDef.name).Nodup)
    {index : Nat} {decl : FieldDef} (hdecl : d.fields[index]? = some decl) {name : String} :
    d.fieldIndex? name = some index ↔ name = decl.name := by
  obtain ⟨hlt, rfl⟩ := List.getElem?_eq_some_iff.1 hdecl
  refine findIdx?_eq_some_iff_getElem.trans ⟨?_, ?_⟩
  · rintro ⟨_, hname, -⟩
    exact (of_decide_eq_true hname).symm
  · rintro rfl
    refine ⟨hlt, decide_eq_true rfl, fun j hj hname => ?_⟩
    exact pairwise_iff_getElem.1 (pairwise_map.1 hd) j index (Nat.lt_trans hj hlt) hlt hj
      (of_decide_eq_true hname)

end StructDef

namespace Lowering

/-- A store to a struct that is being made: the field that it fills, or none if it fills the whole,
and the expression that it stores with its value. -/
structure Write where
  target : Option Nat
  source : Expr
  value : IR.Typed

/-- The store of a value. -/
def Write.store (struct : IR.Ty) (w : Write) : List (IR.Ty × Nat) × IR.Typed :=
  (w.target.toList.map fun index => (struct, index), w.value)

/-- What fills a field, one after the other. -/
def filling (index : Nat) (writes : List Write) : List (Option Nat × Expr) :=
  (writes.filter fun w => w.target.all (· = index)).map fun w => (w.target, w.source)

theorem filling_append (index : Nat) (writes later : List Write) :
    filling index (writes ++ later) = filling index writes ++ filling index later := by
  rw [filling, filter_append, map_append, filling, filling]

theorem filling_eq_nil {index : Nat} {writes : List Write}
    (h : ∀ w ∈ writes, ∃ i, w.target = some i ∧ i ≠ index) : filling index writes = [] := by
  refine map_eq_nil_iff.2 (filter_eq_nil_iff.2 fun w hw hcovers => ?_)
  obtain ⟨i, hi, hne⟩ := h w hw
  rw [hi] at hcovers
  exact hne (of_decide_eq_true hcovers)

/-- The events that give the value that is stored: that of the base, or that of an expression
brought to the type of a field. -/
inductive Evaluates (session : Session) (l : Lowering) (d : StructDef) (args : List Ty) :
    Write → List (Event Step.Answer) → Prop
  | whole {e s s' events value}
      (h : session.Runs (l.expr e (some (.ofName d.name args))) s events value s') :
      Evaluates session l d args ⟨none, e, ⟨value.ir, value.operand⟩⟩ events
  | field {e : Expr} {index : Nat} {t : Ty} {s s' : Build} {events : List (Event Step.Answer)}
      {value : IR.Typed} (ht : (d.fieldTypes args)[index]? = some t)
      (h : session.Runs (l.fieldOperand e t) s events value s') :
      Evaluates session l d args ⟨some index, e, value⟩ events

/-- The base is stored first if there is one, and every field is filled, last by what provides its
value. -/
structure Initialises (d : StructDef) (inits : List FieldInit) (base : Option Expr)
    (writes : List Write) : Prop where
  whole : (writes.filter fun w => w.target = none).map Write.source = base.toList
  fields : ∀ w ∈ writes.tail, w.target ≠ none
  provided : ∀ index decl, d.fields[index]? = some decl → filling index writes ≠ [] ∧
    (filling index writes).getLast? = StructDef.provider? inits base index decl

/-- Code that makes the given stores to a slot and to its parts, and no others. -/
structure Writes (session : Session) (l : Lowering) (d : StructDef) (args : List Ty)
    (struct : IR.Ty) (slot : Nat) (s : Build) (events : List (Event Step.Answer)) (s' : Build)
    (writes : List Write) : Prop where
  stores (parts : IR.Parts) : Secludes (parts.map Prod.fst) s → parts.lookup slot = some [] →
    ∃ parts' own, Secludes (parts'.map Prod.fst) s' ∧ parts'.lookup slot = some [] ∧
      s'.assembly.draft.lines.toList = s.assembly.draft.lines.toList ++ own ∧
      ∀ rest, IR.storesTo parts (own ++ rest) =
        writes.map (Write.store struct) ++ IR.storesTo parts' rest
  evaluates : ∀ w ∈ writes, ∃ own, own <:+: events ∧ Evaluates session l d args w own

variable {session : Session} {l : Lowering} {d : StructDef} {args : List Ty} {struct : IR.Ty}
  {slot : Nat} {s s' s'' : Build} {events later : List (Event Step.Answer)}
  {writes writes' : List Write} {inits : List FieldInit}

theorem Writes.nil : Writes session l d args struct slot s [] s [] :=
  ⟨fun parts hs hslot => ⟨parts, [], hs, hslot, (append_nil _).symm, fun _ => rfl⟩,
    forall_mem_nil _⟩

theorem Writes.append (h : Writes session l d args struct slot s events s' writes)
    (h' : Writes session l d args struct slot s' later s'' writes') :
    Writes session l d args struct slot s (events ++ later) s'' (writes ++ writes') := by
  refine ⟨fun parts hs hslot => ?_, forall_mem_append.2 ⟨fun w hw => ?_, fun w hw => ?_⟩⟩
  · obtain ⟨parts₁, own, hs₁, hslot₁, hlines, hstores⟩ := h.stores parts hs hslot
    obtain ⟨parts₂, own', hs₂, hslot₂, hlines', hstores'⟩ := h'.stores parts₁ hs₁ hslot₁
    refine ⟨parts₂, own ++ own', hs₂, hslot₂, ?_, fun rest => ?_⟩
    · rw [hlines', hlines, append_assoc]
    · rw [append_assoc, hstores, hstores', map_append, append_assoc]
  · obtain ⟨own, hin, hown⟩ := h.evaluates w hw
    exact ⟨own, hin.trans infix_append_left, hown⟩
  · obtain ⟨own, hin, hown⟩ := h'.evaluates w hw
    exact ⟨own, hin.trans infix_append_right, hown⟩

/-- Code that cannot reach the slot. -/
theorem Writes.of_sound {α : Type} [Judged α] {m : Gen α} {a : α}
    (hm : ∀ hidden, (Seclusion.discipline session hidden).Sound .inside s m)
    (h : session.Runs m s events a s') :
    Writes session l d args struct slot s events s' [] := by
  refine ⟨fun parts hs hslot => ?_, forall_mem_nil _⟩
  obtain ⟨hs', havoids, -⟩ := hs.of_runs (hm _) h
  obtain ⟨own, hlines, hown⟩ := havoids.lines
  exact ⟨parts, own, hs', hslot, hlines, IR.storesTo_append hown⟩

/-- Every expression can be lowered without reaching the slot. -/
theorem follows (hidden : List Nat) (e : Expr) : (Seclusion.discipline session hidden).Follows e :=
  ⟨e.over_of_isFull .full, trivial⟩

section

variable (hl : ∀ hidden, (Seclusion.discipline session hidden).Lowers l) {e : Expr} {index : Nat}
  {written : List Nat}

include hl

/-- The store of the base. -/
theorem Writes.of_base {value : Value}
    (h : session.Runs (l.expr e (some (.ofName d.name args))) s events value s')
    (later : Gen.Trace) :
    Writes session l d args struct slot s (events ++ later)
      (s'.emit (.store ⟨value.ir, value.operand⟩ (.temp slot)))
      [⟨none, e, ⟨value.ir, value.operand⟩⟩] := by
  have hown : Writes session l d args struct slot s events s' [] := .of_sound (fun hidden =>
    (hl hidden).expr s (follows hidden e) (Ty.overOption_some (Ty.over_full _))) h
  refine ⟨fun parts hs hslot => ?_, forall_mem_singleton.2 ⟨events, infix_append_left, .whole h⟩⟩
  obtain ⟨parts, lines, hs, hslot, hlines, hstores⟩ := hown.stores parts hs hslot
  refine ⟨parts, lines ++ [.instr (.store ⟨value.ir, value.operand⟩ (.temp slot))],
    ⟨hs.taken, hs.scope⟩, hslot, ?_, fun rest => ?_⟩
  · rw [Build.lines_emit, hlines, append_assoc]
  · rw [append_assoc, hstores, singleton_append, IR.storesTo, hslot]
    rfl

/-- The store of a field. -/
theorem Writes.of_storeMember {t : Ty} (ht : (d.fieldTypes args)[index]? = some t)
    (h : session.Runs (l.storeMember e t struct (.temp slot) index) s events () s') :
    ∃ value, Writes session l d args struct slot s events s' [⟨some index, e, value⟩] := by
  obtain ⟨own, value, mid, rest, hvalue, hrest, rfl⟩ := h.of_bind
  obtain ⟨_, target, s₁, _, hmember, hstore, rfl⟩ := hrest.of_bind
  obtain ⟨rfl, rfl, -⟩ := Gen.runs_result hmember
  obtain ⟨⟨⟩, -⟩ := hstore.of_ask
  have hown : Writes session l d args struct slot s own mid [] := .of_sound (fun hidden =>
    Discipline.sound_fieldOperand (hl hidden) (follows hidden e) (Ty.over_full t)) hvalue
  refine ⟨value, fun parts hs hslot => ?_,
    forall_mem_singleton.2 ⟨own, infix_append_left, .field ht hvalue⟩⟩
  obtain ⟨parts, lines, hs, hslot, hlines, hstores⟩ := hown.stores parts hs hslot
  -- The address of the field is one that the code of later initialisers cannot reach either.
  have hne : slot ≠ mid.assembly.temps := by
    rintro rfl
    obtain ⟨before, after, hparts, -⟩ := lookup_eq_some_iff.1 hslot
    have hmem : mid.assembly.temps ∈ parts.map Prod.fst := by simp [hparts]
    exact Nat.lt_irrefl _ (hs.taken _ hmem)
  have htaken := Seclusion.takeTemp_cons hs
  refine ⟨(mid.assembly.temps, [(struct, index)]) :: parts, lines ++
    [.instr (.member mid.assembly.temps struct (.temp slot) index),
      .instr (.store value (.temp mid.assembly.temps))], ⟨htaken.taken, htaken.scope⟩, ?_, ?_,
    fun rest => ?_⟩
  · rw [lookup_cons, beq_eq_false_iff_ne.2 hne]
    exact hslot
  · refine (Build.lines_emit _ _).trans ?_
    rw [Build.lines_emit, Build.draft_takeTemp, hlines]
    simp
  · rw [append_assoc, hstores, cons_append, IR.storesTo, hslot]
    simp [IR.storesTo, Write.store]

/-- The stores of the listed fields. -/
theorem Writes.of_storeInits (hd : (d.fields.map FieldDef.name).Nodup)
    (h : session.Runs
      (l.storeInits d (d.fieldTypes args) struct (.temp slot) inits) s events written s') :
    ∃ writes, Writes session l d args struct slot s events s' writes ∧
      (∀ w ∈ writes, w.target ≠ none) ∧ ∀ index decl, d.fields[index]? = some decl →
        (index ∈ written ↔ (inits.filter fun init => init.name = decl.name) ≠ []) ∧
        filling index writes = (inits.filter fun init => init.name = decl.name).map fun init =>
          (some index, init.value) := by
  induction inits generalizing s events written with
  | nil =>
    obtain ⟨rfl, rfl, rfl⟩ := h.of_pure
    exact ⟨[], .nil, forall_mem_nil _, fun _ _ _ => ⟨by simp, rfl⟩⟩
  | cons init inits ih =>
    rw [storeInits] at h
    split at h
    next hnone =>
      have hindex := Discipline.fieldIndex?_eq_none hnone
      obtain ⟨_, _, s₁, _, hvalue, h₁, rfl⟩ := h.of_bind
      obtain ⟨_, _, s₂, _, herror, h₂, rfl⟩ := h₁.of_bind
      obtain ⟨writes, hwrites, htargets, hfills⟩ := ih h₂
      have hvalue : Writes session l d args struct slot s _ s₁ [] := .of_sound (fun hidden =>
        Facts.ensures_discard ((hl hidden).expr s (follows hidden _) Ty.overOption_none)) hvalue
      refine ⟨writes, hvalue.append (.append
        (.of_sound (fun _ => Elements.sound_error (by decide)) herror) hwrites), htargets,
        fun index decl hdecl => ?_⟩
      have hne : init.name ≠ decl.name := fun heq => by
        cases hindex.symm.trans ((StructDef.fieldIndex?_eq_some_iff hd hdecl).2 heq)
      rw [filter_cons_of_neg (by simpa using hne)]
      exact hfills index decl hdecl
    next i t hfound =>
      obtain ⟨_, hi, hfound⟩ := Option.bind_eq_some_iff.1 hfound
      obtain ⟨_, hown, ⟨⟩⟩ := Option.map_eq_some_iff.1 hfound
      obtain ⟨_, _, s₁, _, hstore, h₁, rfl⟩ := h.of_bind
      obtain ⟨_, hinits, rfl⟩ := h₁.of_bind_pure
      obtain ⟨value, hvalue⟩ := Writes.of_storeMember hl hown hstore
      obtain ⟨writes, hwrites, htargets, hfills⟩ := ih hinits
      refine ⟨_, hvalue.append hwrites, forall_mem_cons.2 ⟨Option.some_ne_none i, htargets⟩,
        fun index decl hdecl => ?_⟩
      obtain ⟨hmem, hfills⟩ := hfills index decl hdecl
      rw [filling_append, hfills]
      have hiff : d.fieldIndex? init.name = some index ↔ init.name = decl.name :=
        StructDef.fieldIndex?_eq_some_iff hd hdecl
      by_cases hname : init.name = decl.name
      · obtain rfl : i = index := Option.some.inj (hi.symm.trans (hiff.2 hname))
        rw [filter_cons_of_pos (by simpa using hname)]
        exact ⟨by simp, by simp [filling]⟩
      · have hne : i ≠ index := fun heq => hname (hiff.1 (heq ▸ hi))
        rw [filter_cons_of_neg (by simpa using hname), ← hmem]
        exact ⟨by simp [hne.symm], by simp [filling, hne]⟩

/-- The stores of the defaults, where no field is missing. -/
theorem Writes.of_storeDefaults {span : Span} {fields : List (FieldDef × Ty)}
    (htypes : ∀ entry ∈ fields.zipIdx index, (d.fieldTypes args)[entry.2]? = some entry.1.2)
    (hreports : ∀ entry ∈ fields, d.missing span entry.1 ∉ reports events)
    (h : session.Runs
      (l.storeDefaults d.name struct (.temp slot) written span index fields) s events () s') :
    ∃ writes, Writes session l d args struct slot s events s' writes ∧
      (∀ w ∈ writes, ∃ i, w.target = some i ∧ index ≤ i) ∧
      ∀ entry ∈ fields.zipIdx index, if entry.2 ∈ written then filling entry.2 writes = []
        else ∃ e, entry.1.1.default = some e ∧ filling entry.2 writes = [(some entry.2, e)] := by
  induction fields generalizing s events index with
  | nil =>
    obtain ⟨rfl, -, rfl⟩ := h.of_pure
    exact ⟨[], .nil, forall_mem_nil _, forall_mem_nil _⟩
  | cons entry fields ih =>
    obtain ⟨decl, t⟩ := entry
    obtain ⟨ht, htypes⟩ := forall_mem_cons.1 htypes
    obtain ⟨hdecl, hreports⟩ := forall_mem_cons.1 hreports
    -- The stores of the other fields do not fill the first one.
    have hfirst : ∀ {writes : List Write}, (∀ w ∈ writes, ∃ i, w.target = some i ∧ index + 1 ≤ i) →
        filling index writes = [] ∧ ∀ w ∈ writes, ∃ i, w.target = some i ∧ index ≤ i := by
      refine fun htargets => ⟨filling_eq_nil fun w hw => ?_, fun w hw => ?_⟩
      all_goals obtain ⟨i, hi, hle⟩ := htargets w hw
      · exact ⟨i, hi, Nat.ne_of_gt hle⟩
      · exact ⟨i, hi, Nat.le_of_succ_le hle⟩
    rw [storeDefaults] at h
    split at h
    next hunwritten =>
      have hunwritten : index ∉ written := by simpa using hunwritten
      split at h
      · rename_i e he
        obtain ⟨_, _, s₁, _, hstore, h₁, rfl⟩ := h.of_bind
        obtain ⟨value, hvalue⟩ := Writes.of_storeMember hl ht hstore
        obtain ⟨writes, hwrites, htargets, hfills⟩ := ih htypes (fun entry hentry hmem =>
          hreports entry hentry (reports_subset infix_append_right hmem)) h₁
        obtain ⟨hnil, htargets⟩ := hfirst htargets
        refine ⟨_, hvalue.append hwrites, forall_mem_cons.2 ⟨⟨index, rfl, Nat.le_refl _⟩,
          htargets⟩, forall_mem_cons.2 ⟨?_, fun entry hentry => ?_⟩⟩
        · rw [if_neg hunwritten, filling_append, hnil]
          exact ⟨e, he, by simp [filling]⟩
        · have hlt : index < entry.2 := le_snd_of_mem_zipIdx hentry
          rw [filling_append, filling_eq_nil
            (forall_mem_singleton.2 ⟨index, rfl, Nat.ne_of_lt hlt⟩)]
          exact hfills entry hentry
      · obtain ⟨_, -, rfl⟩ := h.of_ask_bind rfl
        exact absurd mem_cons_self hdecl
    next hwritten =>
      obtain ⟨writes, hwrites, htargets, hfills⟩ := ih htypes hreports h
      obtain ⟨hnil, htargets⟩ := hfirst htargets
      refine ⟨writes, hwrites, htargets, forall_mem_cons.2 ⟨?_, hfills⟩⟩
      rw [if_pos (by simpa using hwritten)]
      exact hnil

end

/-- Where there is a base, it provides what is not listed. -/
theorem Initialises.of_base {e : Expr} {value : IR.Typed} (htargets : ∀ w ∈ writes, w.target ≠ none)
    (hfills : ∀ index decl, d.fields[index]? = some decl → filling index writes =
      (inits.filter fun init => init.name = decl.name).map fun init => (some index, init.value)) :
    Initialises d inits (some e) ([⟨none, e, value⟩] ++ writes) := by
  refine ⟨?_, htargets, fun index decl hdecl => ?_⟩
  · have hnone : writes.filter (fun w => w.target = none) = [] :=
      filter_eq_nil_iff.2 fun w hw heq => htargets w hw (of_decide_eq_true heq)
    exact congrArg (fun rest => e :: rest.map Write.source) hnone
  · rw [filling_append, hfills index decl hdecl, StructDef.provider?, getLast?_append, getLast?_map]
    exact ⟨by simp [filling], rfl⟩

/-- Where there is none, the defaults do. -/
theorem Initialises.of_defaults {written : List Nat} (htargets : ∀ w ∈ writes, w.target ≠ none)
    (htargets' : ∀ w ∈ writes', ∃ i, w.target = some i ∧ 0 ≤ i)
    (hfills : ∀ index decl, d.fields[index]? = some decl →
      (index ∈ written ↔ (inits.filter fun init => init.name = decl.name) ≠ []) ∧
      filling index writes =
        (inits.filter fun init => init.name = decl.name).map fun init => (some index, init.value))
    (hfills' : ∀ index decl, d.fields[index]? = some decl →
      if index ∈ written then filling index writes' = []
      else ∃ e, decl.default = some e ∧ filling index writes' = [(some index, e)]) :
    Initialises d inits none (writes ++ writes') := by
  have htargets : ∀ w ∈ writes ++ writes', w.target ≠ none := by
    refine forall_mem_append.2 ⟨htargets, fun w hw heq => ?_⟩
    obtain ⟨i, hi, -⟩ := htargets' w hw
    cases hi.symm.trans heq
  refine ⟨?_, fun w hw => htargets w (mem_of_mem_tail hw), fun index decl hdecl => ?_⟩
  · rw [filter_eq_nil_iff.2 fun w hw heq => htargets w hw (of_decide_eq_true heq)]
    rfl
  · obtain ⟨hmem, hlisted⟩ := hfills index decl hdecl
    have hdefault := hfills' index decl hdecl
    rw [filling_append, hlisted, StructDef.provider?]
    split at hdefault
    next hwritten =>
      have hne := hmem.1 hwritten
      rw [hdefault, append_nil, getLast?_map, getLast?_eq_some_getLast hne]
      exact ⟨by simpa using hne, rfl⟩
    next hunwritten =>
      obtain ⟨e, he, hdefault⟩ := hdefault
      rw [hdefault, he, not_not.1 (mt hmem.2 hunwritten)]
      exact ⟨by simp, rfl⟩

/-- A struct literal that reports no missing field stores its base first, and each field is filled
last by its last initialiser if it is listed, or else by the base, or else by its default. Between
the slot and the load of the value nothing else is stored there. What is asked of the state holds
wherever a compilation generates code, by `Compile.Performs.secludes`. -/
theorem structLiteral_initialises {b : Bindings} {result : Ty} {depth : Nat} {base : Option Expr}
    {span : Span} {value : Value} (hd : (d.fields.map FieldDef.name).Nodup) (hs : Secludes [] s)
    (h : Runs (Step.perform session)
      ((ofDepth b result depth).structLiteral d args inits base span) s events value s')
    (hreports : ∀ decl ∈ d.fields, d.missing span decl ∉ reports events) :
    ∃ struct slot out before body writes,
      s'.assembly.draft.lines.toList = s.assembly.draft.lines.toList ++ (before ++
        .instr (.alloca slot struct) :: (body ++ [.instr (.load out struct (.temp slot))])) ∧
      value = { operand := .temp out, ir := struct, ty := .ofName d.name args } ∧
      IR.storesTo [(slot, [])] body = writes.map (Write.store struct) ∧
      (∀ w ∈ writes, ∃ own, own <:+: events ∧
        Evaluates session (ofDepth b result depth) d args w own) ∧
      Initialises d inits base writes := by
  have hl : ∀ hidden, (Seclusion.discipline session hidden).Lowers (ofDepth b result depth) :=
    fun hidden => Seclusion.lowers_ofDepth hidden b result depth
  obtain ⟨first, struct, s₁, rest, hir, h₁, rfl⟩ := runs_bind_iff.1 h
  obtain ⟨second, _, s₂, rest, halloca, h₂, rfl⟩ := runs_bind_iff.1 h₁
  obtain ⟨rfl, rfl, -⟩ := Gen.runs_result halloca
  obtain ⟨hs₁, havoids, -⟩ :=
    hs.of_runs (Representing.sound_irType _ (Ty.over_full _) s) hir
  obtain ⟨before, hbefore, -⟩ := havoids.lines
  have hs₂ := Seclusion.takeTemp_cons hs₁
  -- Once the stores are made, the value is loaded.
  suffices hstored : ∃ storing loading s₃ writes, rest = storing ++ loading ∧
      Writes session (ofDepth b result depth) d args struct s₁.assembly.temps
        (s₁.takeTemp.emit (.alloca s₁.assembly.temps struct)) storing s₃ writes ∧
      Initialises d inits base writes ∧ Runs (Step.perform session) (do
        return ({ operand := ← Gen.load struct (.temp s₁.assembly.temps), ir := struct
                  ty := .ofName d.name args } : Value)) s₃ loading value s' by
    obtain ⟨storing, _, s₃, writes, rfl, hwrites, hinit, hrest⟩ := hstored
    obtain ⟨_, hload, rfl⟩ := Runs.of_bind_pure hrest
    obtain ⟨rfl, rfl, -⟩ := Gen.runs_result hload
    obtain ⟨_, body, -, -, hbody, hstores⟩ := hwrites.stores [(s₁.assembly.temps, [])]
      ⟨hs₂.taken, hs₂.scope⟩ List.lookup_cons_self
    refine ⟨struct, s₁.assembly.temps, _, before, body, writes, ?_, rfl, ?_, fun w hw => ?_, hinit⟩
    · rw [Build.lines_emit, Build.draft_takeTemp, hbody, Build.lines_emit, Build.draft_takeTemp,
        hbefore]
      simp
    · simpa [IR.storesTo] using hstores []
    · obtain ⟨own, hin, hown⟩ := hwrites.evaluates w hw
      exact ⟨own, hin.trans (List.infix_append_left.trans (List.infix_append_right.trans
        List.infix_append_right)), hown⟩
  cases base with
  | some e =>
    obtain ⟨own, base, s₃, _, hbase, h₃, rfl⟩ := runs_bind_iff.1 h₂
    obtain ⟨_, h₄, rfl⟩ := h₃.of_ask_bind rfl
    obtain ⟨storing, _, s₅, loading, hinits, h₅, rfl⟩ := runs_bind_iff.1 h₄
    obtain ⟨writes, hwrites, htargets, hfills⟩ := Writes.of_storeInits hl hd hinits
    exact ⟨own ++ [_] ++ storing, loading, s₅, _,
      (List.append_cons own _ _).trans (List.append_assoc ..).symm,
      (Writes.of_base hl hbase [_]).append hwrites,
      .of_base htargets fun index decl hdecl => (hfills index decl hdecl).2, h₅⟩
  | none =>
    obtain ⟨storing, written, s₃, _, hinits, h₃, rfl⟩ := runs_bind_iff.1 h₂
    obtain ⟨defaulting, _, s₄, loading, hdefaults, h₄, rfl⟩ := runs_bind_iff.1 h₃
    obtain ⟨writes, hwrites, htargets, hfills⟩ := Writes.of_storeInits hl hd hinits
    have hzip : ∀ {entry}, entry ∈ (d.fields.zip (d.fieldTypes args)).zipIdx ↔
        d.fields[entry.2]? = some entry.1.1 ∧ (d.fieldTypes args)[entry.2]? = some entry.1.2 :=
      List.mem_zipIdx_iff_getElem?.trans List.getElem?_zip_eq_some
    obtain ⟨writes', hwrites', htargets', hfills'⟩ := Writes.of_storeDefaults hl
      (fun entry hentry => (hzip.1 hentry).2)
      (fun entry hentry hmem => hreports entry.1 (List.of_mem_zip hentry).1
        (reports_subset ⟨first ++ (second ++ storing), loading, by simp⟩ hmem)) hdefaults
    refine ⟨storing ++ defaulting, loading, s₄, writes ++ writes', by simp, hwrites.append hwrites',
      .of_defaults htargets htargets' hfills fun index decl hdecl => ?_, h₄⟩
    have hlt : index < (d.fieldTypes args).length := by
      simpa [StructDef.fieldTypes, FieldDef.typesUnder] using (List.getElem?_eq_some_iff.1 hdecl).1
    exact hfills' ((decl, (d.fieldTypes args)[index]), index)
      (hzip.2 ⟨hdecl, List.getElem?_eq_getElem hlt⟩)

/-- A struct with two fields, one of which has a default. -/
def coordinates : StructDef where
  name := "Point"
  fields := [⟨"x", .prim .i32, none⟩, ⟨"y", .prim .i32, some (.lit {} (.int 7))⟩]

/-- A literal that lists one of the fields twice. -/
theorem structLiteral_initialises_point :
    ∃ events value s', Runs (Step.perform ⟨{ home := { structs := .ofList [coordinates] } }, {}⟩)
        ((ofDepth .empty (.prim .unit) 1).structLiteral coordinates []
          [⟨"x", .lit {} (.int 1), .dummy⟩, ⟨"x", .lit {} (.int 2), .dummy⟩] none .dummy)
        (.initial {}) events value s' ∧ reports events = [] ∧
      ∃ slot struct body, ∃ writes : List Write,
        IR.storesTo [(slot, [])] body = writes.map (Write.store struct) ∧
        (filling 0 writes).getLast? = some (some 0, .lit {} (.int 2)) ∧
        (filling 1 writes).getLast? = some (some 1, .lit {} (.int 7)) := by
  obtain ⟨events, value, s', hruns, hreports⟩ :=
    exists_runs_of_trace (Step.perform ⟨{ home := { structs := .ofList [coordinates] } }, {}⟩)
      ((ofDepth .empty (.prim .unit) 1).structLiteral coordinates []
        [⟨"x", .lit {} (.int 1), .dummy⟩, ⟨"x", .lit {} (.int 2), .dummy⟩] none .dummy)
      (.initial {}) (fun out => reports out.1 = []) (by decide +kernel)
  obtain ⟨struct, slot, _, _, body, writes, -, -, hstores, -, hinit⟩ :=
    structLiteral_initialises (by decide) ⟨List.forall_mem_nil _, List.forall_mem_nil _⟩
      hruns (by rw [hreports]; exact fun _ _ => List.not_mem_nil)
  exact ⟨events, value, s', hruns, hreports, slot, struct, body, writes, hstores,
    (hinit.provided 0 _ rfl).2, (hinit.provided 1 _ rfl).2⟩

end Lowering

end Monomorph
