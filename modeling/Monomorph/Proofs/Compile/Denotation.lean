import Monomorph.Proofs.Layout.Bodies
import Monomorph.Proofs.Lowering.FieldWalk

/-!
# Types that denote definitions

A type is represented as an instance of the definition that its name resolves to, unless the name
is that of a built-in kind or a wrapper. Representing it requests the instance, and a field of it is
looked for among those of the definition.
-/

namespace Monomorph

open List Script Monomorph.Symbol

variable {own : StructDef} {item : WorkItem}

/-! ### Definitions -/

/-- A definition of which instances are generated. -/
inductive Definition
  | struct (d : StructDef)
  | enum (d : EnumDef)
  | cls (d : ClassDef)
  | func (f : FunctionDef)

namespace Definition

/-- The kind of the instances. -/
def kind : Definition → InstanceKind
  | struct _ => .struct
  | enum _ => .enum
  | cls _ => .cls
  | func _ => .func

/-- Whether the instances are blocks of their own: structs that are no unions, and enums. -/
def isBlock : Definition → Bool
  | struct d => !d.isUnion
  | enum _ => true
  | cls _ | func _ => false

/-- The bare name. -/
def name : Definition → String
  | struct d => d.name
  | enum d => d.name
  | cls d => d.name
  | func f => f.name

end Definition

namespace Program

/-- The definition that a name has among those of one kind. -/
def definition? (p : Program) : InstanceKind → String → Option Definition
  | .struct, name => (p.struct? name).map .struct
  | .enum, name => (p.enum? name).map .enum
  | .cls, name => (p.class? name).map .cls
  | .func, name => (p.function? name).map .func
  | .method, _ => none

/-- The type that a name resolves to. -/
def typeNamed? (p : Program) (name : String) : Option Definition :=
  (p.definition? .struct name).or ((p.definition? .enum name).or (p.definition? .cls name))

/-- A type is a closed instance of a definition, and not a built-in kind or a wrapper that is called
alike. -/
structure Denotes (p : Program) (t : Ty) (name : String) (args : List Ty) (d : Definition) :
    Prop where
  declared : t.declared? = some (name, args)
  found : p.typeNamed? name = some d
  unbuilt : args = [] → Primitive.ofName? name = none
  unwrapped : Layout.isWrapped name args = false
  closed : p.isOpenList args = false

variable {p : Program} {d : Definition} {name : String} {args : List Ty} {t : Ty}

theorem Denotes.ofName (h : p.Denotes t name args d) : p.Denotes (.ofName name args) name args d :=
  { h with declared := rfl }

/-- An instance of a definition is represented as it is defined. -/
theorem Denotes.irType_eq (h : p.Denotes t name args d) :
    Gen.irType t = Gen.definedType name args := by
  obtain ⟨qualifier, rfl⟩ | ⟨rfl, rfl⟩ := Ty.eq_of_declared? h.declared
  · have hkind : (if args.isEmpty then Primitive.ofName? name else none) = none := by
      split
      · exact h.unbuilt (List.isEmpty_iff.1 (by assumption))
      · rfl
    rw [Gen.irType, hkind]
    exact Gen.nominalType_of_not_isWrapped h.unwrapped _
  · rw [Gen.irType]
    exact Gen.nominalType_of_not_isWrapped h.unwrapped _

theorem struct?_of_typeNamed? (h : p.typeNamed? name = some (.struct own)) :
    p.struct? name = some own := by
  simpa [typeNamed?, definition?, Option.or_eq_some_iff] using h

theorem enum?_of_typeNamed? {own : EnumDef} (h : p.typeNamed? name = some (.enum own)) :
    p.struct? name = none ∧ p.enum? name = some own := by
  simpa [typeNamed?, definition?, Option.or_eq_some_iff] using h

theorem class?_of_typeNamed? {own : ClassDef} (h : p.typeNamed? name = some (.cls own)) :
    p.struct? name = none ∧ p.enum? name = none ∧ p.class? name = some own := by
  simpa [typeNamed?, definition?, Option.or_eq_some_iff] using h

theorem typeNamed?_ne_func (f : FunctionDef) : p.typeNamed? name ≠ some (.func f) := by
  simp [typeNamed?, definition?, Option.or_eq_some_iff]

end Program

/-! ### Requests -/

namespace Gen

variable {session : Session} {s s' : Build} {events : Gen.Trace} {t : Ty}
  {name : String} {args : List Ty} {d : Definition} {ir : IR.Ty} {field : String} {place : Place}
  {cursor : Cursor}

/-- A request of a closed instance gives its symbol to what follows. -/
theorem runs_request_pure {f : String → IR.Ty}
    (h : session.Runs (request item false >>= fun symbol => pure (f symbol)) s events
      ir s') : events = [⟨.require item, item.symbol⟩] ∧ ir = f item.symbol := by
  obtain ⟨_, hpure, rfl⟩ := h.of_ask_bind rfl
  obtain ⟨rfl, rfl, -⟩ := hpure.of_pure
  exact ⟨rfl, rfl⟩

/-- Where a type is represented that is an instance of a definition, the instance is requested. -/
theorem runs_definedType (hd : session.program.typeNamed? name = some d)
    (hclosed : session.program.isOpenList args = false)
    (h : session.Runs (definedType name args) s events ir s') :
    events = [⟨.program, session.program⟩,
        ⟨.require (.plain d.kind d.name args), ofInstance d.name args⟩] ∧
      (d.isBlock = true → ir = .named ("%struct." ++ ofInstance d.name args)) := by
  obtain ⟨rest, hrest, rfl⟩ := h.of_ask_bind rfl
  cases d with
  | struct own =>
    simp only [Program.struct?_of_typeNamed? hd, hclosed] at hrest
    obtain ⟨rfl, rfl⟩ := runs_request_pure hrest
    refine ⟨rfl, fun hblock => ?_⟩
    rw [Definition.isBlock, Bool.not_eq_true'] at hblock
    rw [hblock]
    rfl
  | enum own =>
    obtain ⟨hstruct, henum⟩ := Program.enum?_of_typeNamed? hd
    simp only [hstruct, henum, hclosed] at hrest
    obtain ⟨rfl, rfl⟩ := runs_request_pure hrest
    exact ⟨rfl, fun _ => rfl⟩
  | cls own =>
    obtain ⟨hstruct, henum, hcls⟩ := Program.class?_of_typeNamed? hd
    simp only [hstruct, henum, hcls, hclosed] at hrest
    obtain ⟨rfl, -⟩ := runs_request_pure hrest
    exact ⟨rfl, fun hblock => by cases hblock⟩
  | func f => exact absurd hd (Program.typeNamed?_ne_func f)

/-- The representation of an instance of a definition requests it. -/
theorem runs_irType_of_denotes (hd : session.program.Denotes t name args d)
    (h : session.Runs (irType t) s events ir s') :
    ⟨.require (.plain d.kind d.name args), ofInstance d.name args⟩ ∈ events ∧
      (d.isBlock = true → ir = .named ("%struct." ++ ofInstance d.name args)) := by
  rw [hd.irType_eq] at h
  obtain ⟨rfl, hir⟩ := runs_definedType hd.found hd.closed h
  exact ⟨mem_cons_of_mem _ mem_cons_self, hir⟩

theorem Represented.require (hd : session.program.Denotes t name args d)
    (h : Represented session events t) :
    ⟨.require (.plain d.kind d.name args), ofInstance d.name args⟩ ∈ events := by
  obtain ⟨_, _, _, _, hown, hin⟩ := h
  exact hin.subset (runs_irType_of_denotes hd hown).1

/-! ### Fields -/

/-- A field of a struct instance is a member of it, and the instance is requested. -/
theorem runs_directField?_struct (hd : session.program.Denotes t name args (.struct own))
    (hunion : own.isUnion = false)
    (h : session.Runs (directField? cursor t field) s events (some place) s') :
    ⟨.require (.plain .struct own.name args), ofInstance own.name args⟩ ∈ events ∧
      ∃ index, own.fieldIndex? field = some index ∧ (own.fieldTypes args)[index]? = some place.ty ∧
        IR.Walk cursor.operand [("%struct." ++ ofInstance own.name args, index)] (addresses events)
          place.addr := by
  obtain ⟨rest, hruns, rfl⟩ := h.of_ask_bind rfl
  simp only [hd.declared, Program.struct?_of_typeNamed? hd.found] at hruns
  split at hruns
  · cases (hruns.of_pure).2.1
  next index hindex =>
    obtain ⟨naming, struct, s₁, rest₁, hstruct, h₁, rfl⟩ := hruns.of_bind
    obtain ⟨hmem, hir⟩ := runs_irType_of_denotes hd hstruct
    obtain rfl := hir (by rw [Definition.isBlock, hunion]; rfl)
    rw [hunion] at h₁
    obtain ⟨addr, hstep, hplace⟩ := h₁.of_bind_pure
    obtain ⟨r, rfl, hstepped⟩ := runs_member hstep
    obtain ⟨ty, hty, rfl⟩ := Option.map_eq_some_iff.1 hplace.symm
    refine ⟨mem_cons_of_mem _ (mem_append_left _ hmem), index, hindex, hty, ?_⟩
    rw [addresses_program, addresses_append, addresses_irType hstruct, hstepped]
    exact .member (.refl _)

theorem addresses_pointerAt {target : IR.Operand}
    (h : session.Runs (pointerAt cursor) s events target s') :
    addresses events = [] := by
  cases cursor with
  | addr addr =>
    obtain ⟨-, -, rfl⟩ := runs_result h
    rfl
  | pointer operand =>
    obtain ⟨rfl, -⟩ := h.of_pure
    rfl

/-- In a type that is no struct, a field is looked for as one of a class. -/
theorem runs_directField?_class (ht : t.declared? = some (name, args))
    (hstruct : session.program.struct? name = none)
    (h : session.Runs (directField? cursor t field) s events (some place) s') :
    ∃ object before mid own, Leads (Step.perform session) s before mid ∧
      session.Runs (classField? object name args field) mid own (some place) s' ∧
      events = before ++ own ∧ addresses events = addresses own := by
  obtain ⟨rest, hrest, rfl⟩ := h.of_ask_bind rfl
  simp only [ht, hstruct] at hrest
  have hwith : ∀ {pointer : Gen IR.Operand},
      session.Runs (pointer >>= fun object => classField? object name args field) s
        rest (some place) s' →
      (∀ {pointing object mid}, session.Runs pointer s pointing object mid →
        addresses pointing = []) →
      ∃ object before mid own, Leads (Step.perform session) s before mid ∧
        session.Runs (classField? object name args field) mid own (some place) s' ∧
        ⟨.program, session.program⟩ :: rest = before ++ own ∧
        addresses (⟨.program, session.program⟩ :: rest) = addresses own := by
    intro pointer hpointer hnone
    obtain ⟨pointing, object, mid, own, hobject, hown, rfl⟩ := hpointer.of_bind
    refine ⟨object, ⟨.program, session.program⟩ :: pointing, mid, own,
      .cons rfl trivial hobject.leads, hown, rfl, ?_⟩
    rw [addresses_program, addresses_append, hnone hobject, nil_append]
  split at hrest
  · split at hrest
    · refine hwith hrest fun hpure => ?_
      rw [(hpure.of_pure).1]
      rfl
    · exact hwith hrest addresses_pointerAt
  · cases (hrest.of_pure).2.1

end Gen

end Monomorph
