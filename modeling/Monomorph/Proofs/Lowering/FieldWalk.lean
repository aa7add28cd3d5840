import Monomorph.Lowering.Place
import Monomorph.Proofs.Lowering.Represent

/-!
# Steps to fields

The address of a field is found by steps into the members of named types. A field of a class
instance is that of the nearest class on the chain that declares it. The steps to it go through the
blocks of the bases up to that class, and all these blocks are represented on the way.
-/

namespace Monomorph

open List Script Monomorph.Symbol

/-! ### Steps into members -/

namespace IR

/-- Instructions that compute the address of a part of something. -/
def Instr.isAddress : Instr → Bool
  | .member .. | .slot .. => true
  | _ => false

/-- Instructions that follow steps from an address to another. A step is a named type and the index
of one of its members. -/
inductive Walk : Operand → List (String × Nat) → List Instr → Operand → Prop
  | refl (addr : Operand) : Walk addr [] [] addr
  | member {addr target r index name steps is} (h : Walk (.temp r) steps is target) :
      Walk addr ((name, index) :: steps) (.member r (.named name) addr index :: is) target

end IR

/-- The instructions among some events that compute addresses of parts. -/
def addresses (events : List (Event Step.Answer)) : List IR.Instr :=
  events.filterMap fun
    | ⟨.emit i, _⟩ => if i.isAddress then some i else none
    | _ => none

@[simp] theorem addresses_append (events events' : Gen.Trace) :
    addresses (events ++ events') = addresses events ++ addresses events' :=
  filterMap_append

@[simp] theorem addresses_program (p : Program) (events : Gen.Trace) :
    addresses (⟨.program, p⟩ :: events) = addresses events :=
  rfl

/-- The diagnostics that are reported by events. -/
def reports (events : List (Event Step.Answer)) : List Diagnostic :=
  events.filterMap fun event =>
    match event.1 with
    | .report d => some d
    | _ => none

theorem reports_append (first second : Gen.Trace) :
    reports (first ++ second) = reports first ++ reports second :=
  filterMap_append

theorem reports_subset {events events' : Gen.Trace} (h : events <:+: events') :
    reports events ⊆ reports events' :=
  (h.filterMap _).subset

/-- The block of a class instance. -/
def ClassDef.block (d : ClassDef) (args : List Ty) : String := "%class." ++ ofInstance d.name args

/-- A field that has a position has a type. -/
theorem FieldDef.isSome_typesUnder {fields : List FieldDef} {field : String} {index : Nat}
    (h : indexOf? fields field = some index) (generics : List String) (args : List Ty) :
    ((typesUnder generics fields args)[index]?).isSome := by
  have hlt : index < fields.length := (findIdx?_eq_some_iff_getElem.1 h).1
  simpa [typesUnder] using hlt

namespace Gen

variable {session : Session} {s s' : Build} {events events' : Gen.Trace}
  {object target : IR.Operand} {ir : IR.Ty} {name field : String} {args : List Ty}
  {chain below : List ClassDef} {owner : ClassDef} {index : Nat} {found : Option Place} {t : Ty}

/-! ### Chains -/

/-- What is found up to a field in a chain of classes. -/
theorem untilField?_eq_some (h : untilField? field chain = some (below, owner, index)) :
    (∃ above, chain = below ++ owner :: above) ∧
      (∀ d ∈ below, d.fieldIndex? field = none) ∧ owner.fieldIndex? field = some index := by
  induction chain generalizing below with
  | nil => cases h
  | cons d ds ih =>
    rw [untilField?] at h
    split at h
    next hindex =>
      cases h
      exact ⟨⟨ds, rfl⟩, forall_mem_nil _, hindex⟩
    next hnone =>
      obtain ⟨⟨below, _, _⟩, hfound, heq⟩ := Option.map_eq_some_iff.1 h
      cases heq
      obtain ⟨⟨above, rfl⟩, hbelow, hindex⟩ := ih hfound
      exact ⟨⟨above, rfl⟩, forall_mem_cons.2 ⟨hnone, hbelow⟩, hindex⟩

theorem untilField?_append (hbelow : ∀ d ∈ below, d.fieldIndex? field = none)
    (hindex : owner.fieldIndex? field = some index) (above : List ClassDef) :
    untilField? field (below ++ owner :: above) = some (below, owner, index) := by
  induction below with
  | nil => rw [nil_append, untilField?, hindex]
  | cons d below ih =>
    obtain ⟨hd, hbelow⟩ := forall_mem_cons.1 hbelow
    rw [cons_append, untilField?, hd, ih hbelow]
    rfl

theorem untilField?_eq_none_iff :
    untilField? field chain = none ↔ ∀ d ∈ chain, d.fieldIndex? field = none := by
  induction chain with
  | nil => exact ⟨fun _ => forall_mem_nil _, fun _ => rfl⟩
  | cons d ds ih =>
    rw [untilField?, forall_mem_cons, ← ih]
    cases d.fieldIndex? field with
    | none => simp
    | some index => simp

/-! ### Represented types -/

/-- A type is represented by some of the events. -/
def Represented (session : Session) (events : List (Event Step.Answer)) (t : Ty) : Prop :=
  ∃ s own ir s', session.Runs (irType t) s own ir s' ∧ own <:+: events

theorem Represented.mono (h : Represented session events t) (hsub : events <:+: events') :
    Represented session events' t := by
  obtain ⟨s, own, ir, s', hown, hin⟩ := h
  exact ⟨s, own, ir, s', hown, hin.trans hsub⟩

theorem addresses_irType (h : session.Runs (irType t) s events ir s') :
    addresses events = [] := by
  refine filterMap_eq_nil_iff.2 fun event hevent => ?_
  obtain ⟨step, answer⟩ := event
  cases h.only (only_irType t) _ hevent <;> rfl

theorem runs_classStruct (h : session.Runs (classStruct name args) s events ir s') :
    ir = .named ("%class." ++ ofInstance name args) ∧ addresses events = [] ∧
      Represented session events (.ofName name args) := by
  obtain ⟨_, hask, rfl⟩ := h.of_bind_pure
  obtain ⟨_, hown, -⟩ := hask.of_bind_pure
  exact ⟨rfl, addresses_irType hown, _, _, _, _, hown, infix_rfl⟩

/-! ### Walks -/

/-- An instruction whose result is a new temporary. -/
theorem runs_result {i : Nat → IR.Instr} {target : IR.Operand} (h : session.Runs (do
      let r ← fresh
      emit (i r)
      return IR.Operand.temp r) s events target s') :
    target = .temp s.assembly.temps ∧
      s' = s.takeTemp.emit (i s.assembly.temps) ∧
      events = [⟨.fresh, s.assembly.temps⟩, ⟨.emit (i s.assembly.temps), ()⟩] := by
  obtain ⟨_, h₁, rfl⟩ := h.of_ask_bind rfl
  obtain ⟨_, h₂, rfl⟩ := h₁.of_ask_bind rfl
  obtain ⟨rfl, rfl, rfl⟩ := h₂.of_pure
  exact ⟨rfl, rfl, rfl⟩

theorem runs_member {agg : IR.Ty} {addr : IR.Operand}
    (h : session.Runs (member agg addr index) s events target s') :
    ∃ r, target = .temp r ∧ addresses events = [.member r agg addr index] := by
  obtain ⟨rfl, -, rfl⟩ := runs_result h
  exact ⟨_, rfl, rfl⟩

/-- The steps from a block through those of ancestors to a field of the last of them. -/
def blockSteps (index : Nat) : String → List ClassDef → List (String × Nat)
  | block, [] => [(block, index + 1)]
  | block, c :: ancestors => (block, 0) :: blockSteps index (c.block []) ancestors

theorem blockSteps_append (index : Nat) (block : String) (between : List ClassDef)
    (owner : ClassDef) :
    blockSteps index block (between ++ [owner]) =
      (block, 0) :: between.map (fun c => (c.block [], 0)) ++ [(owner.block [], index + 1)] := by
  induction between generalizing block with
  | nil => rfl
  | cons c between ih => exact congrArg ((block, 0) :: ·) (ih (c.block []))

/-- The way through the blocks of ancestors can be continued to a field of the last of them. -/
theorem walk_of_throughBases {block : String} {ancestors : List ClassDef}
    (h : session.Runs (throughBases object (.named block) ancestors) s events
      (target, ir) s') (r index : Nat) :
    IR.Walk object (blockSteps index block ancestors)
        (addresses events ++ [.member r ir target (index + 1)]) (.temp r) ∧
      ∀ c ∈ ancestors, Represented session events (.ofName c.name []) := by
  induction ancestors generalizing object block s events with
  | nil =>
    obtain ⟨rfl, heq, -⟩ := h.of_pure
    cases heq
    exact ⟨.member (.refl _), forall_mem_nil _⟩
  | cons c ancestors ih =>
    obtain ⟨stepping, base, s₁, rest₁, hstep, h₁, rfl⟩ := h.of_bind
    obtain ⟨naming, baseType, s₂, rest₂, hname, h₂, rfl⟩ := h₁.of_bind
    obtain ⟨r', rfl, hstepped⟩ := runs_member hstep
    obtain ⟨rfl, hnamed, hown⟩ := runs_classStruct hname
    obtain ⟨hwalk, hrest⟩ := ih h₂
    refine ⟨?_, forall_mem_cons.2 ⟨hown.mono ⟨stepping, rest₂, ?_⟩, fun c hc =>
      (hrest c hc).mono ⟨stepping ++ naming, [], ?_⟩⟩⟩
    · rw [addresses_append, addresses_append, hstepped, hnamed]
      exact .member hwalk
    · rw [append_assoc]
    · rw [append_nil, append_assoc]

/-- A field of a class instance is found unless no class of the chain declares it. It is that of the
nearest class that declares it, which is reached through the blocks of the bases. -/
theorem runs_classField?
    (h : session.Runs (classField? object name args field) s events found s') :
    (found = none ∧ untilField? field (session.program.classChain name) = none) ∨
      ∃ place below owner index, found = some place ∧
        untilField? field (session.program.classChain name) = some (below, owner, index) ∧
        (owner.fieldTypes (if below.isEmpty then args else []))[index]? = some place.ty ∧
        IR.Walk object
          (blockSteps index ("%class." ++ ofInstance name args) ((below ++ [owner]).drop 1))
          (addresses events) place.addr ∧
        Represented session events (.ofName name args) ∧
        ∀ c ∈ (below ++ [owner]).drop 1, Represented session events (.ofName c.name []) := by
  obtain ⟨rest, hrest, rfl⟩ := h.of_ask_bind rfl
  split at hrest
  next hnone => exact .inl ⟨(hrest.of_pure).2.1, hnone⟩
  next below owner index hfound =>
    obtain ⟨naming, struct, s₁, rest₁, hstruct, h₁, rfl⟩ := hrest.of_bind
    obtain ⟨stepping, ⟨base, baseType⟩, s₂, rest₂, hbases, h₂, rfl⟩ := h₁.of_bind
    obtain ⟨addr, hlast, rfl⟩ := h₂.of_bind_pure
    obtain ⟨rfl, hnamed, hown⟩ := runs_classStruct hstruct
    obtain ⟨r, rfl, hstepped⟩ := runs_member hlast
    obtain ⟨hwalk, hrepresented⟩ := walk_of_throughBases hbases r index
    obtain ⟨ty, hty⟩ := Option.isSome_iff_exists.1 (FieldDef.isSome_typesUnder
      (untilField?_eq_some hfound).2.2 owner.generics (if below.isEmpty then args else []))
    refine .inr ⟨⟨.temp r, ty⟩, below, owner, index, ?_, hfound, hty, ?_, ?_, fun c hc => ?_⟩
    · rw [ClassDef.fieldTypes, hty]
      rfl
    · rw [addresses_program, addresses_append, addresses_append, hnamed, hstepped]
      exact hwalk
    · exact hown.mono ⟨[_], _, rfl⟩
    · exact (hrepresented c hc).mono ⟨⟨.program, session.program⟩ :: naming, rest₂, by simp⟩

/-- A field of a class instance is found unless no class of the chain declares it. -/
theorem classField?_eq_none_iff
    (h : session.Runs (classField? object name args field) s events found s') :
    found = none ↔ ∀ d ∈ session.program.classChain name, d.fieldIndex? field = none := by
  rw [← untilField?_eq_none_iff]
  obtain ⟨hfound, hnone⟩ | ⟨place, below, owner, index, rfl, hsome, -⟩ := runs_classField? h
  · exact iff_of_true hfound hnone
  · exact iff_of_false nofun (by rw [hsome]; nofun)

end Gen

end Monomorph
