import Monomorph.Proofs.Lowering.LiteralDepth

/-!
# Fields behind wrappers

A field is looked for in the type of an object and then, layer by layer, in what its wrappers wrap.
The search stops at the first layer that has the field, whatever kinds of wrappers lie around it and
however many they are, and it fails only if no layer has it.

## Main results

* `Gen.ty_of_directField?`, `Gen.fieldOf_finds`, `Lowering.fieldPlace_finds`.
-/

namespace Monomorph

open List Script

variable {t : Ty} {field : String}

/-! ### Layers and fields -/

namespace Wrapper

/-- The type inside a number of wrappers around each other. -/
def layer? : Nat → Ty → Option Ty
  | 0, t => some t
  | i + 1, t => (ofTy? t).bind fun wrapped => layer? i wrapped.2

theorem depth_of_ofTy? {wrapper : Wrapper} {payload : Ty} (h : ofTy? t = some (wrapper, payload)) :
    depth t = depth payload + 1 := by
  rw [ofTy?.eq_def] at h
  split at h
  · obtain ⟨own, hown, heq⟩ := Option.map_eq_some_iff.1 h
    cases heq
    rw [depth, hown]
    rfl
  · cases h
    rw [depth]
  · cases h
    rw [depth]
  · cases h

theorem depth_of_ofTy?_eq_none (h : ofTy? t = none) : depth t = 0 := by
  rw [ofTy?.eq_def] at h
  rw [depth.eq_def]
  split at h
  · rw [Option.map_eq_none_iff.1 h]
    rfl
  · cases h
  · cases h
  · rfl

end Wrapper

namespace Program

variable {p : Program} {name : String}

/-- A type has a field of its own: one of the struct or union that it names, or one of a class on
the chain of the class that it names. -/
def HasField (p : Program) (t : Ty) (field : String) : Prop :=
  ∃ name args, t.declared? = some (name, args) ∧
    ((∃ d, p.struct? name = some d ∧ field ∈ d.fields.map FieldDef.name) ∨
      ∃ owner ∈ p.classChain name, field ∈ owner.fields.map FieldDef.name)

/-- The type of a field that a type has of its own. -/
def ownField? (p : Program) (t : Ty) (field : String) : Option Ty :=
  t.declared?.bind fun declared =>
    match p.struct? declared.1 with
    | some d => (d.fieldIndex? field).bind fun index => (d.fieldTypes declared.2)[index]?
    | none =>
      (Gen.untilField? field (p.classChain declared.1)).bind fun found =>
        (found.2.1.fieldTypes (if found.1.isEmpty then declared.2 else []))[found.2.2]?

/-- No name is that of a struct and of a class. -/
def TellsApart (p : Program) : Prop :=
  ∀ name ∈ p.names Module.structs, name ∉ p.names Module.classes

theorem TellsApart.notMem_classChain (hp : p.TellsApart) {d : StructDef}
    (hd : p.struct? name = some d) (c : ClassDef) : c ∉ p.classChain name := by
  intro hc
  obtain ⟨own, hown⟩ := class?_of_mem_classChain hc
  have hname : HasName.nameOf d = HasName.nameOf own :=
    (bare_of_lookup hd).trans (bare_of_lookup hown).symm
  exact hp _ (mem_names_of_lookup hd) (hname ▸ mem_names_of_lookup hown)

theorem mem_fields_iff {fields : List FieldDef} :
    field ∈ fields.map FieldDef.name ↔ (FieldDef.indexOf? fields field).isSome := by
  rw [FieldDef.indexOf?, findIdx?_isSome, any_eq_true]
  simp

/-- The field that counts is there if any is. -/
theorem hasField_iff (hp : p.TellsApart) : p.HasField t field ↔ (p.ownField? t field).isSome := by
  rw [ownField?]
  constructor
  · rintro ⟨name, args, hname, ⟨d, hd, hfield⟩ | ⟨owner, howner, hfield⟩⟩
    · obtain ⟨index, hindex⟩ := Option.isSome_iff_exists.1 (mem_fields_iff.1 hfield)
      rw [← StructDef.fieldIndex?] at hindex
      simp only [hname, Option.bind_some, hd, hindex]
      exact FieldDef.isSome_typesUnder hindex _ _
    · have hstruct : p.struct? name = none := Option.eq_none_iff_forall_ne_some.2 fun d hd =>
        hp.notMem_classChain hd owner howner
      simp only [hname, Option.bind_some, hstruct]
      cases huntil : Gen.untilField? field (p.classChain name) with
      | none =>
        have hindex := Gen.untilField?_eq_none_iff.1 huntil owner howner
        exact absurd (mem_fields_iff.1 hfield) (by rw [← ClassDef.fieldIndex?, hindex]; nofun)
      | some found => exact FieldDef.isSome_typesUnder (Gen.untilField?_eq_some huntil).2.2 _ _
  · intro h
    obtain ⟨ty, hty⟩ := Option.isSome_iff_exists.1 h
    obtain ⟨⟨name, args⟩, hname, hty⟩ := Option.bind_eq_some_iff.1 hty
    refine ⟨name, args, hname, ?_⟩
    split at hty
    next d hd =>
      obtain ⟨index, hindex, -⟩ := Option.bind_eq_some_iff.1 hty
      exact .inl ⟨d, hd, mem_fields_iff.2 (Option.isSome_iff_exists.2 ⟨index, hindex⟩)⟩
    · obtain ⟨⟨below, owner, index⟩, huntil, -⟩ := Option.bind_eq_some_iff.1 hty
      obtain ⟨⟨above, hchain⟩, -, hindex⟩ := Gen.untilField?_eq_some huntil
      exact .inr ⟨owner, hchain ▸ mem_append_right _ mem_cons_self,
        mem_fields_iff.2 (Option.isSome_iff_exists.2 ⟨index, hindex⟩)⟩

end Program

/-! ### The steps of a search -/

/-- The steps by which a field is found. -/
inductive Step.Seeks : Step → Prop
  | represents {step} (h : step.Represents) : Seeks step
  | fresh : Seeks .fresh
  | emit (i : IR.Instr) : Seeks (.emit i)

theorem reports_eq_nil {events : Gen.Trace} (h : ∀ event ∈ events, event.1.Seeks) :
    reports events = [] := by
  refine filterMap_eq_nil_iff.2 fun event hevent => ?_
  obtain ⟨step, answer⟩ := event
  cases h _ hevent with
  | represents h => cases h <;> rfl
  | fresh | emit => rfl

namespace Gen

variable {session : Session} {s s' : Build} {events : Gen.Trace}
  {cursor last : Cursor} {object : IR.Operand} {name : String} {args : List Ty}
  {found : Option Place} {place : Place} {i : Nat} {u : Ty}

theorem seeks_irType (t : Ty) : (irType t).Only Step.Seeks :=
  (only_irType t).mono fun _ => .represents

theorem seeks_classStruct (name : String) (args : List Ty) :
    (classStruct name args).Only Step.Seeks :=
  (seeks_irType _).discard.bind fun _ => trivial

theorem seeks_member (agg : IR.Ty) (addr : IR.Operand) (index : Nat) :
    (member agg addr index).Only Step.Seeks :=
  .step .fresh fun _ => .step (.emit _) fun _ => trivial

theorem seeks_load (ir : IR.Ty) (addr : IR.Operand) : (load ir addr).Only Step.Seeks :=
  .step .fresh fun _ => .step (.emit _) fun _ => trivial

theorem seeks_throughBases (ancestors : List ClassDef) (block : IR.Operand) (blockType : IR.Ty) :
    (throughBases block blockType ancestors).Only Step.Seeks := by
  induction ancestors generalizing block blockType with
  | nil => exact trivial
  | cons d ds ih =>
    exact (seeks_member _ _ 0).bind fun _ => (seeks_classStruct _ _).bind fun _ => ih _ _

theorem seeks_classField? : (classField? object name args field).Only Step.Seeks := by
  refine .step (.represents .program) fun p => ?_
  split
  · exact trivial
  · exact (seeks_classStruct _ _).bind fun _ => (seeks_throughBases _ _ _).bind fun _ =>
      (seeks_member _ _ _).bind fun _ => trivial

theorem seeks_pointerAt (cursor : Cursor) : (pointerAt cursor).Only Step.Seeks := by
  cases cursor with
  | addr addr => exact seeks_load _ _
  | pointer operand => exact trivial

theorem seeks_directField? : (directField? cursor t field).Only Step.Seeks := by
  refine .step (.represents .program) fun p => ?_
  split
  · exact trivial
  · split
    · split
      · exact trivial
      · refine (seeks_irType t).bind fun struct => ?_
        split
        · exact trivial
        · exact (seeks_member _ _ _).bind fun _ => trivial
    · split
      · split
        · exact seeks_classField?
        · exact (seeks_pointerAt cursor).bind fun _ => seeks_classField?
      · exact trivial

theorem seeks_payload (wrapper : Wrapper) (payload : Ty) (boxed : IR.Operand) :
    (match wrapper.payloadIndex? with
      | some index => do return Cursor.addr (← member (← countedBlock payload) boxed index)
      | none => return .addr boxed : Gen Cursor).Only Step.Seeks := by
  split
  · refine Only.bind ?_ fun block => (seeks_member _ _ _).bind fun _ => trivial
    exact (seeks_irType payload).bind fun _ =>
      .step (.represents (.defineType _ _)) fun _ => trivial
  · exact trivial

theorem seeks_peel (wrapper : Wrapper) (payload : Ty) :
    (peel cursor t wrapper payload).Only Step.Seeks := by
  have hinner := seeks_payload wrapper payload
  cases wrapper with
  | raw => exact (seeks_pointerAt cursor).bind fun _ => trivial
  | owned | counted =>
    cases cursor with
    | addr addr => exact (seeks_irType t).bind fun _ => (seeks_member _ _ 0).bind fun _ =>
        (seeks_load _ _).bind hinner
    | pointer operand => exact hinner operand

/-- A search has a result. -/
theorem exists_runs {α : Type} {m : Gen α} {Q : Build → α → Prop} (hm : m.Only Step.Seeks)
    (h : (Naming.following (.within session 0)).Ensures .inside s m Q) :
    ∃ events a s', session.Runs m s events a s' := by
  cases hrun : m.run (Step.perform session) s with
  | ok out =>
    obtain ⟨events, hruns⟩ := run_eq_ok_iff.1 hrun
    exact ⟨events, out.1, out.2, hruns⟩
  | error fault =>
    obtain ⟨events, refused, hstops⟩ := exists_stops_of_run_eq_error hrun
    cases refused with
    | none =>
      exact ((h.stops rfl id (Naming.inv_following _ _ s) hstops fun _ _ => trivial).2 rfl).elim
    | some step =>
      obtain ⟨t, hstep⟩ := hstops.perform_eq_error
      cases hstops.only hm with
      | represents h => cases h <;> cases hstep
      | fresh | emit => cases hstep

/-! ### Searches -/

theorem ty_of_classField?
    (h : session.Runs (classField? object name args field) s events found s') :
    found.map Place.ty = (untilField? field (session.program.classChain name)).bind fun found =>
      (found.2.1.fieldTypes (if found.1.isEmpty then args else []))[found.2.2]? := by
  obtain ⟨rfl, hnone⟩ | ⟨place, below, owner, index, rfl, hsome, hty, -⟩ := runs_classField? h
  · rw [hnone]
    rfl
  · rw [hsome]
    exact hty.symm

/-- What is found without looking through wrappers. -/
theorem ty_of_directField?
    (h : session.Runs (directField? cursor t field) s events found s') :
    found.map Place.ty = session.program.ownField? t field := by
  obtain ⟨_, hrest, -⟩ := h.of_ask_bind rfl
  rw [Program.ownField?]
  split at hrest
  next hname =>
    obtain ⟨-, rfl, -⟩ := hrest.of_pure
    rw [hname]
    rfl
  next name args hname =>
    rw [hname, Option.bind_some]
    split at hrest
    · rename_i d hd
      simp only [hd]
      split at hrest
      · rename_i hindex
        obtain ⟨-, rfl, -⟩ := hrest.of_pure
        rw [hindex]
        rfl
      · rename_i index hindex
        obtain ⟨_, struct, _, _, -, h₁, -⟩ := hrest.of_bind
        rw [hindex, Option.bind_some]
        split at h₁
        · rw [(h₁.of_pure).2.1, Option.map_map]
          exact Option.map_id'
        · obtain ⟨addr, -, rfl⟩ := h₁.of_bind_pure
          rw [Option.map_map]
          exact Option.map_id'
    · rename_i hstruct
      simp only [hstruct]
      split at hrest
      · split at hrest
        · exact ty_of_classField? hrest
        · obtain ⟨_, object, _, _, -, h₁, -⟩ := hrest.of_bind
          exact ty_of_classField? h₁
      · rename_i hclass
        obtain ⟨-, rfl, -⟩ := hrest.of_pure
        have hchain : session.program.classChain name = [] := by
          refine eq_nil_iff_forall_not_mem.2 fun c hc => ?_
          obtain ⟨own, hown⟩ := Program.class?_of_mem_classChain hc
          cases hclass.symm.trans hown
        rw [hchain]
        rfl

/-- Layers without a field are left, one after the other. -/
inductive Peels (session : Session) (field : String) :
    Nat → Cursor → Ty → Build → List (Event Step.Answer) → Cursor → Ty → Build → Prop
  | refl (cursor : Cursor) (t : Ty) (s : Build) : Peels session field 0 cursor t s [] cursor t s
  | peel {i cursor inner last t payload u s s₁ s₂ s₃ s' looking peeling representing rest wrapper
      ir}
      (hlook : session.Runs (directField? cursor t field) s looking none s₁)
      (hwrapper : Wrapper.ofTy? t = some (wrapper, payload))
      (hpeel : session.Runs (peel cursor t wrapper payload) s₁ peeling inner s₂)
      (hir : session.Runs (irType payload) s₂ representing ir s₃)
      (hrest : Peels session field i inner payload s₃ rest last u s') :
      Peels session field (i + 1) cursor t s (looking ++ (peeling ++ (representing ++ rest))) last u
        s'

/-- The layers that were left do not have the field. -/
theorem Peels.layers (h : Peels session field i cursor t s events last u s') :
    (∀ j, Wrapper.layer? (i + j) t = Wrapper.layer? j u) ∧
      ∀ j < i, ∀ v, Wrapper.layer? j t = some v → session.program.ownField? v field = none := by
  induction h with
  | refl => exact ⟨fun j => by rw [Nat.zero_add], fun j hj => absurd hj (Nat.not_lt_zero j)⟩
  | @peel i _ _ _ t _ _ _ _ _ _ _ _ _ _ _ _ _ hlook hwrapper _ _ _ ih =>
    have hlayer : ∀ j, Wrapper.layer? (j + 1) t = Wrapper.layer? j _ := fun j => by
      rw [Wrapper.layer?, hwrapper]
      rfl
    refine ⟨fun j => ?_, fun j hj v hv => ?_⟩
    · rw [Nat.add_right_comm, hlayer]
      exact ih.1 j
    · cases j with
      | zero =>
        cases hv
        exact (ty_of_directField? hlook).symm
      | succ j => exact ih.2 j (Nat.lt_of_succ_lt_succ hj) v (hlayer j ▸ hv)

theorem Peels.seeks (h : Peels session field i cursor t s events last u s') :
    ∀ event ∈ events, event.1.Seeks := by
  induction h with
  | refl => exact forall_mem_nil _
  | @peel _ _ _ _ _ payload _ _ _ _ _ _ _ _ _ _ wrapper _ hlook _ hpeel hir _ ih =>
    simp only [forall_mem_append]
    exact ⟨hlook.only seeks_directField?, hpeel.only (seeks_peel wrapper payload),
      hir.only (seeks_irType payload), ih⟩

/-- The search through all layers leaves some of them and looks into the next one. It fails only at
the last layer, with one report. -/
theorem fieldOf_finds (session : Session) (cursor : Cursor) (t : Ty) (field : String) (span : Span)
    (s : Build) :
    ∃ i last u s₁ s₂ s' pre looking rest found, Peels session field i cursor t s pre last u s₁ ∧
      session.Runs (directField? last u field) s₁ looking found s₂ ∧
      session.Runs (fieldOf cursor t field span) s (pre ++ (looking ++ rest)) found
        s' ∧
      (found.isSome → rest = [] ∧ s' = s₂) ∧
      (found = none → Wrapper.ofTy? u = none ∧
        ∃ d, rest = [⟨.report d, ()⟩] ∧ d.code = .field) := by
  rw [fieldOf]
  generalize hlayers : Wrapper.depth t = layers
  have hok : ∀ (s : Build) (cursor : Cursor),
      (Naming.following (.within session 0)).Ok s cursor := fun s cursor => Naming.ok_operand _
  have hover : ∀ t : Ty, t.Over .full := Ty.over_full
  have hlook := fun cursor t s =>
    exists_runs seeks_directField? (Discipline.sound_directField? (hok s cursor) (hover t) field)
  induction layers generalizing cursor t s with
  | zero =>
    obtain ⟨looking, found, s₁, hlook⟩ := hlook cursor t s
    refine ⟨0, cursor, t, s, s₁, ?_⟩
    rw [fieldWithin.eq_def]
    cases found with
    | some place =>
      exact ⟨s₁, [], looking, [], some place, .refl _ _ _, hlook,
        hlook.bind (.done _ _), fun _ => ⟨rfl, rfl⟩,
        fun h => by cases h⟩
    | none =>
      have hwrapper : Wrapper.ofTy? t = none := by
        cases h : Wrapper.ofTy? t with
        | none => rfl
        | some wrapped => cases (Wrapper.depth_of_ofTy? h).symm.trans hlayers
      exact ⟨_, [], looking, _, none, .refl _ _ _, hlook, hlook.bind (.ask rfl (.done _ _)),
        fun h => (by cases h), fun _ => ⟨hwrapper, _, rfl, rfl⟩⟩
  | succ layers ih =>
    obtain ⟨looking, found, s₁, hlook⟩ := hlook cursor t s
    rw [fieldWithin.eq_def]
    cases found with
    | some place =>
      exact ⟨0, cursor, t, s, s₁, s₁, [], looking, [], some place, .refl _ _ _, hlook,
        hlook.bind (.done _ _), fun _ => ⟨rfl, rfl⟩,
        fun h => by cases h⟩
    | none =>
      cases hwrapper : Wrapper.ofTy? t with
      | none => cases (Wrapper.depth_of_ofTy?_eq_none hwrapper).symm.trans hlayers
      | some wrapped =>
        obtain ⟨wrapper, payload⟩ := wrapped
        obtain ⟨peeling, inner, s₂, hpeel⟩ := exists_runs (seeks_peel wrapper payload)
          (Discipline.sound_peel (hok s₁ cursor) (hover t) (hover payload) wrapper)
        obtain ⟨representing, ir, s₃, hir⟩ := exists_runs (seeks_irType payload)
          (Representing.sound_irType payload (hover payload) s₂)
        obtain ⟨i, last, u, s₄, s₅, s', pre, own, rest, found, hpeels, hown, hruns, hends⟩ :=
          ih inner payload s₃ (Nat.succ.inj ((Wrapper.depth_of_ofTy? hwrapper).symm.trans hlayers))
        have hdiscard : session.Runs (discard (irType payload)) s₂ representing ()
            s₃ := append_nil representing ▸ hir.bind (.done _ _)
        refine ⟨i + 1, last, u, s₄, s₅, s', _, own, rest, found,
          .peel hlook hwrapper hpeel hir hpeels, hown, ?_, hends⟩
        simp only [append_assoc]
        refine hlook.bind ?_
        dsimp only
        rw [hwrapper]
        exact hpeel.bind (hdiscard.bind hruns)

end Gen

namespace Lowering

/-- Where no name is that of a struct and of a class, a field of an object with an address is found
if and only if some layer of its type has the field. It is then the field of the first such layer,
after as many peels as there are layers around it, and otherwise one error is reported. -/
theorem fieldPlace_finds {session : Session} (hp : session.program.TellsApart) {l : Lowering}
    {object : Expr} {s mid : Build} {first : List (Event Step.Answer)} {cursor : Cursor}
    (hobject : Runs (Step.perform session) (objectCursor (l.place object) object) s first
      (some (cursor, t)) mid) (field : String) (span : Span) :
    ∃ rest found s', Runs (Step.perform session) (l.fieldPlace object field span) s (first ++ rest)
        found s' ∧
      (found.isSome ↔ ∃ i u, Wrapper.layer? i t = some u ∧ session.program.HasField u field) ∧
      (∀ place, found = some place → reports rest = [] ∧
        ∃ i last u s₁ pre looking, rest = pre ++ looking ∧
        Gen.Peels session field i cursor t mid pre last u s₁ ∧
        Runs (Step.perform session) (Gen.directField? last u field) s₁ looking (some place) s' ∧
        session.program.ownField? u field = some place.ty ∧ Wrapper.layer? i t = some u ∧
        ∀ j < i, ∀ v, Wrapper.layer? j t = some v → ¬session.program.HasField v field) ∧
      (found = none → ∃ d, reports rest = [d] ∧ d.code = .field) := by
  obtain ⟨i, last, u, s₁, s₂, s', pre, looking, rest, found, hpeels, hlook, hruns, hsome, hnone⟩ :=
    Gen.fieldOf_finds session cursor t field span mid
  obtain ⟨hafter, hbefore⟩ := hpeels.layers
  have hty : found.map Place.ty = session.program.ownField? u field := Gen.ty_of_directField? hlook
  have hlayer : Wrapper.layer? i t = some u := hafter 0
  have hlacks : ∀ {v}, session.program.ownField? v field = none →
      ¬session.program.HasField v field := fun h hfield =>
    Option.isSome_iff_ne_none.1 ((Program.hasField_iff hp).1 hfield) h
  have hpre : reports pre = [] := reports_eq_nil hpeels.seeks
  have hlooking : reports looking = [] := reports_eq_nil (hlook.only Gen.seeks_directField?)
  refine ⟨pre ++ (looking ++ rest), found, s', runs_bind_iff.2 ⟨_, _, _, _, hobject, hruns, rfl⟩,
    ?_⟩
  cases found with
  | some place =>
    obtain ⟨rfl, rfl⟩ := hsome rfl
    rw [List.append_nil] at hruns ⊢
    refine ⟨iff_of_true rfl ⟨i, u, hlayer, (Program.hasField_iff hp).2 (hty ▸ rfl)⟩, ?_, nofun⟩
    rintro _ ⟨⟩
    refine ⟨by rw [reports_append, hpre, hlooking]; rfl, i, last, u, s₁, pre, looking, rfl, hpeels,
      hlook, hty.symm, hlayer, fun j hj v hv => hlacks (hbefore j hj v hv)⟩
  | none =>
    obtain ⟨hbare, d, rfl, hd⟩ := hnone rfl
    refine ⟨iff_of_false nofun ?_, nofun, fun _ => ⟨d, ?_, hd⟩⟩
    · rintro ⟨j, v, hv, hfield⟩
      rcases Nat.lt_or_ge j i with hj | hj
      · exact hlacks (hbefore j hj v hv) hfield
      · obtain ⟨k, rfl⟩ := Nat.exists_eq_add_of_le hj
        rw [hafter] at hv
        cases k with
        | zero =>
          cases hv
          exact hlacks hty.symm hfield
        | succ k => rw [Wrapper.layer?, hbare] at hv; cases hv
    · rw [reports_append, reports_append, hpre, hlooking]
      rfl

/-- A struct with a field of type `I32`. -/
def point : Program where
  home := { structs := .ofList [{ name := "Point", fields := [⟨"x", .prim .i32, none⟩] }] }

/-- A local at an address, a box of a counted `Point`. -/
def boxed : Local where
  storage := .slot (.temp 0)
  ty := .ofName "Box" [.ofName "Arc" [.ofName "Point" []]]
  ir := .named "%struct.Box__Arc__Point"

theorem fieldPlace_finds_boxed :
    point.TellsApart ∧ ∃ events place s', Runs (Step.perform ⟨point, {}⟩)
      ((ofDepth .empty (.prim .unit) 1).fieldPlace (.ident {} "p") "x" .dummy)
      { Build.initial {} with scope := ⟨[("p", boxed)]⟩ } events (some place) s' ∧
        reports events = [] := by
  have hp : point.TellsApart := by
    rw [Program.TellsApart]
    decide
  have hobject : Runs (Step.perform ⟨point, {}⟩) (objectCursor
      ((ofDepth .empty (.prim .unit) 1).place (.ident {} "p")) (.ident {} "p"))
      { Build.initial {} with scope := ⟨[("p", boxed)]⟩ } _ _ _ :=
    .ask rfl (.ask rfl (.done _ _))
  obtain ⟨rest, found, s', hruns, hfound, hsome, -⟩ := fieldPlace_finds hp hobject "x" .dummy
  have hpoint : point.HasField (.ofName "Point" []) "x" :=
    ⟨_, _, rfl, .inl ⟨_, rfl, List.mem_singleton_self _⟩⟩
  obtain ⟨place, rfl⟩ := Option.isSome_iff_exists.1 (hfound.2 ⟨2, _, rfl, hpoint⟩)
  exact ⟨hp, _, place, s', hruns, (hsome place rfl).1⟩

end Lowering

end Monomorph
