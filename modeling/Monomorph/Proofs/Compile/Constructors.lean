import Monomorph.Proofs.Compile.Functions
import Monomorph.Proofs.Compile.Linked
import Monomorph.Proofs.Lowering.Scoping

/-!
# What constructors return

The code of a constructor creates an instance, binds `self` to it, runs the body and returns the
instance. A return statement in the body is an ordinary one of a function that returns the class: it
returns the value in it. So a constructor returns its instance wherever it ends if its return
statements return `self`, which no statement and no parameter gives another meaning. A return
without a value returns a zero of the class in place of the instance.

## Main results

* `Compile.constructor_returns_instance`, `Compile.constructor_returns_zero`.
-/

namespace Monomorph

open List Script

variable {session : Session} {program : Program} {settings : Settings} {d : ClassDef}
  {args : List Ty} {f : FunctionDef} {b : Bindings} {object operand : IR.Operand} {s s' : Build}
  {events events' during trail : List (Script.Event Step.Answer)} {α : Type} {m : Gen α} {a : α}
  {expected : Option Ty}

/-! ### Steps that leave a name alone -/

/-- The step neither begins nor finishes a function and does not bind the name. -/
def Step.Leaves (name : String) (step : Step) : Prop :=
  step.bound? = none ∧ ∀ l, step ≠ .bindLocal name l

/-- While a name is left alone, it stands for what it stood for, wherever the names are read. -/
theorem Script.Runs.resolve?_of_leaves (h : session.Runs m s events a s')
    (name : String) (hleaves : ∀ event ∈ events, event.1.Leaves name) :
    s'.scope.resolve? name = s.scope.resolve? name ∧
      ∀ scope : Scope, ⟨.scope, scope⟩ ∈ events → scope.resolve? name = s.scope.resolve? name := by
  induction h with
  | done a s => exact ⟨rfl, fun _ hmem => by cases hmem⟩
  | @ask step next s mid last answer events a hstep hnext ih =>
    obtain ⟨⟨hbound, hne⟩, hlater⟩ := forall_mem_cons.1 hleaves
    have hmid : mid.scope.resolve? name = s.scope.resolve? name := by
      have hnone : (boundBy [⟨step, answer⟩]).find? name = none := by
        rw [← Option.not_isSome_iff_eq_none, isSome_find?_boundBy]
        rintro ⟨l, hl⟩
        cases mem_singleton.1 hl
        exact hne l rfl
      rw [Step.resolve?_eq hstep hbound, Scope.resolve?, hnone]
      rfl
    obtain ⟨hlast, hscopes⟩ := ih hlater
    refine ⟨hlast.trans hmid, fun scope hscope => ?_⟩
    obtain heq | hscope := mem_cons.1 hscope
    · cases heq
      cases hstep
      rfl
    · exact (hscopes scope hscope).trans hmid

theorem Gen.leaves_bindParams (name : String) {params : List ParamSlot}
    (h : ∀ param ∈ params, param.name ≠ name) :
    (Gen.bindParams params).Only (Step.Leaves name) := by
  induction params with
  | nil => exact trivial
  | cons param params ih =>
    obtain ⟨hparam, hparams⟩ := forall_mem_cons.1 h
    have hleaves : ∀ {step : Step}, step.bound? = none → step.binding? = none →
        step.Leaves name := fun hbound hbinding => ⟨hbound, by rintro l rfl; cases hbinding⟩
    refine Only.bind ?_ fun _ => ih hparams
    refine .bind (.step (hleaves rfl rfl) fun r => .step (hleaves rfl rfl) fun _ => trivial)
      fun addr => .step (hleaves rfl rfl) fun _ => ?_
    exact only_perform ⟨rfl, by rintro l ⟨⟩; exact hparam rfl⟩

/-! ### Instances -/

theorem Program.ir_ofName_ne_void (p : Program) (name : String) (args : List Ty) :
    p.ir (.ofName name args) ≠ .void := by
  rw [Ty.ofName, ir]
  split
  next kind _ => cases kind <;> rintro ⟨⟩
  · simp only [nominalIr, definedIr]
    split
    · split <;> rintro ⟨⟩
    · repeat' split
      all_goals rintro ⟨⟩

/-- An operand is the instance at an address: the address for a reference class, and a copy of what
is there for a value class. -/
inductive ClassDef.IsInstance (d : ClassDef) (object : IR.Operand)
    (events : List (Event Step.Answer)) : IR.Operand → Prop
  | address (h : d.isValue = false) : IsInstance d object events object
  | copy (h : d.isValue = true) {r ir}
      (hload : ⟨.emit (.load r ir object), ()⟩ ∈ events) : IsInstance d object events (.temp r)

theorem ClassDef.IsInstance.mono (h : d.IsInstance object events operand)
    (hsubset : events ⊆ events') : d.IsInstance object events' operand := by
  cases h with
  | address hd => exact .address hd
  | copy hd hload => exact .copy hd (hsubset hload)

/-- Every return returns the instance at an address. -/
def ClassDef.ReturnsInstance (d : ClassDef) (object : IR.Operand)
    (events : List (Event Step.Answer)) : Prop :=
  ∀ value, ⟨.emit (.ret value), ()⟩ ∈ events →
    ∃ ir operand, value = some ⟨ir, operand⟩ ∧ d.IsInstance object events operand

theorem ClassDef.ReturnsInstance.append (h : d.ReturnsInstance object events)
    (h' : d.ReturnsInstance object events') : d.ReturnsInstance object (events ++ events') := by
  intro value hvalue
  obtain hvalue | hvalue := mem_append.1 hvalue
  · obtain ⟨ir, operand, rfl, hinstance⟩ := h value hvalue
    exact ⟨ir, operand, rfl, hinstance.mono (subset_append_left _ _)⟩
  · obtain ⟨ir, operand, rfl, hinstance⟩ := h' value hvalue
    exact ⟨ir, operand, rfl, hinstance.mono (subset_append_right _ _)⟩

/-- The return statements in the code of a function, at any depth, return `self`. -/
def Program.ReturnsSelf (p : Program) (f : FunctionDef) : Prop :=
  ∀ {note body value}, p.InCode f (.block note body) → .ret value ∈ body.stmts →
    ∃ note, value = some (.ident note "self")

/-- Where the receiver of a class is. -/
def ClassDef.storage (d : ClassDef) (object : IR.Operand) : Storage :=
  if d.isValue then .slot object else .direct object

/-- The code of a constructor: `self` stands for the instance, and only the instance may be
returned. -/
def Focus.ofConstructor (session : Session) (f : FunctionDef) (d : ClassDef) (object : IR.Operand)
    (events : List (Event Step.Answer)) : Focus session :=
  { (Focus.taking session fun step answer => ⟨step, answer⟩ ∈ events ∧
      ∀ scope : Scope, (⟨step, answer⟩ : Event Step.Answer) = ⟨.scope, scope⟩ →
        (scope.resolve? "self").map Prod.fst = some (d.storage object)).inCode f with
    Returns := fun value =>
      ∃ ir operand, value = some ⟨ir, operand⟩ ∧ d.IsInstance object events operand }

instance : (Focus.ofConstructor session f d object events).IsLoose :=
  ⟨fun _ => trivial, fun _ => trivial, fun _ => trivial⟩

/-- What is read from the address of an instance of a value class is the instance. -/
theorem ClassDef.isInstance_of_load {ir : IR.Ty} (hd : d.isValue = true)
    (h : session.Runs (Gen.load ir object) s events operand s') :
    d.IsInstance object events operand := by
  obtain ⟨rfl, -, rfl⟩ := Gen.runs_result h
  exact .copy hd (mem_cons_of_mem _ mem_cons_self)

/-- Where `self` stands for the instance, its value is the instance. -/
theorem Lowering.isInstance_of_self {l : Lowering} {span : Span} {v : Value}
    (h : session.Runs (l.name "self" span expected) s events v s')
    (htakes : ∀ event ∈ events, (Focus.ofConstructor session f d object events').Takes event.1
      event.2) :
    d.IsInstance object events' v.operand := by
  obtain ⟨_, found, t, rest, hfound, hrest, rfl⟩ := h.of_bind
  obtain ⟨_, hfind, rfl⟩ := hfound.of_ask_bind rfl
  obtain ⟨rfl, rfl, -⟩ := hfind.of_pure
  have hself := (htakes _ mem_cons_self).2 s.scope rfl
  rw [Scope.resolve?, Option.map_map] at hself
  obtain ⟨⟨storage, ty, ir, conv⟩, hown, hstorage⟩ := Option.map_eq_some_iff.1 hself
  rw [hown] at hrest
  dsimp only [Function.comp, Local.meaning] at hstorage
  subst hstorage
  rw [ClassDef.storage] at hrest
  cases hd : d.isValue with
  | true =>
    rw [hd] at hrest
    obtain ⟨operand, hload, rfl⟩ := hrest.of_bind_pure
    refine (ClassDef.isInstance_of_load hd hload).mono fun event hevent => ?_
    exact (htakes event (mem_append_right _ hevent)).1
  | false =>
    rw [hd] at hrest
    obtain ⟨-, rfl, -⟩ := hrest.of_pure
    exact .address hd

/-- Where `self` is the instance and nothing else is returned, the code returns the instance. -/
theorem serves_ofConstructor (hreturns : session.program.ReturnsSelf f) (b : Bindings)
    (args : List Ty) : (Naming.following (Focus.ofConstructor session f d object events)).Serves b
      (.ofName d.name args) where
  bindings _ _ := Ty.over_full _
  result := Ty.over_full _
  closes _ _ _ _ := trivial
  fails := trivial
  ret {depth} hexpr s note body value hbody hstmt := by
    obtain ⟨note, rfl⟩ := hreturns hbody.2 hstmt
    cases depth with
    | zero => exact Facts.ensures_fail _ trivial
    | succ depth =>
      have hself : (Naming.following (Focus.ofConstructor session f d object events)).Ensures
          .inside s ((Lowering.ofDepth b (.ofName d.name args) (depth + 1)).expr
            (.ident note "self") (some (.ofName d.name args))) fun s' v =>
              (Naming.following (Focus.ofConstructor session f d object events)).Ok s' v ∧
                d.IsInstance object events v.operand := by
        refine (hexpr s (hbody.part (mem_append_left _ (mem_flatMap_of_mem hstmt mem_cons_self)))
          (Ty.overOption_of_isFull .full _)).and_result fun hrun htakes => ?_
        obtain ⟨own, hname, rfl⟩ := hrun.of_bind_pure
        exact Lowering.isInstance_of_self hname htakes
      refine .bind hself fun v s₁ _ hv => Discipline.sound_return hv.1
        ((Representing.ensures_irType (Ty.over_full _)).weaken fun _ ir hir =>
          ⟨hir.1, ir, v.operand, if_neg ?_, hv.2⟩)
      rw [hir.2]
      exact fun hvoid => session.program.ir_ofName_ne_void d.name args (of_decide_eq_true hvoid)

/-! ### Constructors -/

/-- The step returns nothing. -/
def Step.IsSilent (step : Step) : Prop := ∀ value, step ≠ .emit (.ret value)

theorem Step.Represents.isSilent {step : Step} (h : step.Represents) : step.IsSilent := by
  cases h <;> rintro _ ⟨⟩

namespace Gen

theorem silent_classStruct (name : String) : (classStruct name args).Only Step.IsSilent :=
  ((only_irType _).mono fun _ h => h.isSilent).discard.bind fun _ => trivial

theorem silent_alloca (ir : IR.Ty) : (alloca ir).Only Step.IsSilent :=
  .step (by rintro _ ⟨⟩) fun _ => .step (by rintro _ ⟨⟩) fun _ => trivial

theorem silent_load (ir : IR.Ty) : (load ir object).Only Step.IsSilent :=
  .step (by rintro _ ⟨⟩) fun _ => .step (by rintro _ ⟨⟩) fun _ => trivial

theorem silent_newInstance : (newInstance d args).Only Step.IsSilent := by
  refine (silent_classStruct d.name).bind fun struct => ?_
  split
  · exact (silent_alloca struct).bind fun _ => .step (by rintro _ ⟨⟩) fun _ => trivial
  · refine .step (by rintro _ ⟨⟩) fun extent => ?_
    have hallocate : (allocate extent.size).Only Step.IsSilent :=
      .step (by rintro _ ⟨⟩) fun _ => .step (by rintro _ ⟨⟩) fun _ =>
        .step (by rintro _ ⟨⟩) fun _ => trivial
    have htable : (requireTable (.cls d.name args)).Only Step.IsSilent :=
      .step (by rintro _ ⟨⟩) fun _ => trivial
    exact hallocate.bind fun _ => htable.bind fun _ => .step (by rintro _ ⟨⟩) fun _ => trivial

theorem silent_bindSelf (receiver : Receiver) : (bindSelf receiver object).Only Step.IsSilent :=
  ((only_irType _).mono fun _ h => h.isSilent).bind fun _ => only_perform (by rintro _ ⟨⟩)

theorem silent_bindParams (params : List ParamSlot) : (bindParams params).Only Step.IsSilent := by
  refine only_forM (fun param => ?_) params
  exact (silent_alloca param.ir).bind fun _ => .step (by rintro _ ⟨⟩) fun _ =>
    only_perform (by rintro _ ⟨⟩)

end Gen

namespace Compile

variable {output : Output}

/-- Nothing is returned. -/
def IsSilent (events : List (Script.Event Step.Answer)) : Prop :=
  ∀ value, ⟨.emit (.ret value), ()⟩ ∉ events

theorem IsSilent.append (h : IsSilent events) (h' : IsSilent events') :
    IsSilent (events ++ events') := fun value hmem =>
  (mem_append.1 hmem).elim (h value) (h' value)

theorem IsSilent.returnsInstance (h : IsSilent events) : d.ReturnsInstance object events :=
  fun value hvalue => (h value hvalue).elim

theorem isSilent_of_only (h : session.Runs m s events a s')
    (hm : m.Only Step.IsSilent) : IsSilent events :=
  fun value hmem => h.only hm _ hmem value rfl

/-- The end of a constructor returns the instance. -/
theorem Performs.instance_of_end (h : Performs program settings output (do
      let value ← Gen.instanceValue d args object
      Gen.emit (.ret (some value.typed))
      Gen.finishFunction) s during () s') :
    (∃ value, [⟨.emit (.ret value), ()⟩, ⟨.finishFunction, ()⟩] <:+ during) ∧
      d.ReturnsInstance object during := by
  obtain ⟨own, v, t, rest, hvalue, hrest, rfl⟩ := h.bind
  obtain ⟨_, _, t', _, hemit, hfinish, rfl⟩ := hrest.bind
  obtain ⟨-, rfl⟩ := hemit.runs.of_ask
  obtain ⟨-, rfl⟩ := hfinish.runs.of_ask
  obtain ⟨hsilent, hinstance⟩ : IsSilent own ∧ d.IsInstance object own v.operand := by
    have hvalue := hvalue.runs
    rw [Gen.instanceValue] at hvalue
    cases hd : d.isValue with
    | true =>
      rw [hd] at hvalue
      obtain ⟨_, struct, _, _, hstruct, hcopy, rfl⟩ := hvalue.of_bind
      obtain ⟨operand, hload, rfl⟩ := hcopy.of_bind_pure
      exact ⟨(isSilent_of_only hstruct (Gen.silent_classStruct _)).append
          (isSilent_of_only hload (Gen.silent_load _)),
        (ClassDef.isInstance_of_load hd hload).mono (subset_append_right _ _)⟩
    | false =>
      rw [hd] at hvalue
      obtain ⟨rfl, rfl, -⟩ := hvalue.of_pure
      exact ⟨fun _ => not_mem_nil, .address hd⟩
  refine ⟨⟨_, suffix_append _ _⟩, fun value hvalue => ?_⟩
  obtain heq | hvalue := mem_cons.1 ((mem_append.1 hvalue).resolve_left (hsilent value))
  · cases heq
    exact ⟨_, _, rfl, hinstance.mono (subset_append_left _ _)⟩
  · cases mem_singleton.1 hvalue

/-- Every return in the body of a constructor returns the instance. -/
theorem Performs.instance_of_body (hreturns : program.ReturnsSelf f) {body : Block}
    (hbody : f.body = some body) (hbinds : ¬ program.Binds (.block {} body) "self")
    (hself : (s.scope.resolve? "self").map Prod.fst = some (d.storage object)) {depth : Nat}
    {value : Value}
    (h : Performs program settings output
      ((Lowering.ofDepth b (.ofName d.name args) depth).block body expected) s during value s') :
    d.ReturnsInstance object during := by
  obtain ⟨hbounds, hnames⟩ := Lowering.binds_of_runs_block h.runs
  have hscopes := (h.runs.resolve?_of_leaves "self" fun event hevent =>
    ⟨filterMap_eq_nil_iff.1 hbounds event hevent, fun l heq => by
      obtain ⟨step, answer⟩ := event
      cases heq
      exact hbinds (hnames "self" l hevent)⟩).2
  have hfollows : (Naming.following (.ofConstructor ⟨program, settings⟩ f d object during)).Follows
      (.block {} body) :=
    ⟨Expr.over_of_isFull .full _, .body hbody⟩
  obtain ⟨haccepts, -⟩ := Naming.accepts_of_runs (Discipline.sound_block (Discipline.lowers_ofDepth
    (serves_ofConstructor hreturns b args) depth) hfollows (Ty.overOption_of_isFull .full expected))
    h.runs fun event hevent => ⟨hevent, fun scope heq => by
      rw [hscopes scope (heq ▸ hevent), hself]⟩
  exact fun value hvalue => haccepts _ hvalue

variable {symbol : String}

/-- The parts of a constructor: before the instance is created, nothing but the header, and then the
code, in which `self` stands for the instance. -/
theorem Performs.parts_of_lowerConstructor (h : Performs program settings output
      (Gen.lowerConstructor d args f symbol b) s during () s')
    (hparams : ∀ param ∈ f.params, param.name ≠ "self") :
    ∃ before own binding rest object t, during = before ++ (own ++ (binding ++ rest)) ∧
      (∃ ret params, [⟨.beginFunction ret symbol params, ()⟩] <:+ before) ∧
      IsSilent (before ++ (own ++ binding)) ∧
      (∃ t t', Performs program settings output (Gen.newInstance d args) t own object t') ∧
      (t.scope.resolve? "self").map Prod.fst = some (d.storage object) ∧
      Performs program settings output (do
        match f.body with
        | some body =>
            discard <| (Lowering.ofDepth b (.ofName d.name args) settings.depth).block body none
        | none => pure ()
        let value ← Gen.instanceValue d args object
        Gen.emit (.ret (some value.typed))
        Gen.finishFunction) t rest () s' := by
  obtain ⟨listing, params, s₁, _, hslots, h₁, rfl⟩ := h.bind
  obtain ⟨typing, ret, s₂, _, htype, h₂, rfl⟩ := h₁.bind
  obtain ⟨_, _, s₃, _, hbegin, h₃, rfl⟩ := h₂.bind
  obtain ⟨making, object, s₄, _, hnew, h₄, rfl⟩ := h₃.bind
  obtain ⟨receiving, _, s₅, _, hbind, h₅, rfl⟩ := h₄.bind
  obtain ⟨placing, _, s₆, _, hplace, h₆, rfl⟩ := h₅.bind
  obtain ⟨reading, l, s₇, rest, hlowering, hrest, rfl⟩ := h₆.bind
  have hsilent : IsSilent ((listing ++ typing ++ _) ++
      (making ++ (receiving ++ placing ++ reading))) :=
    (((isSilent_of_only hslots.runs ((Gen.only_paramSlots b f.params).mono fun _ h =>
        h.isSilent)).append
      (isSilent_of_only htype.runs ((Gen.silent_classStruct _).bind fun _ => trivial))).append
      (isSilent_of_only hbegin.runs (Gen.only_perform (by rintro _ ⟨⟩)))).append
    ((isSilent_of_only hnew.runs Gen.silent_newInstance).append
      (((isSilent_of_only hbind.runs (Gen.silent_bindSelf _)).append
        (isSilent_of_only hplace.runs (Gen.silent_bindParams params))).append
        (isSilent_of_only hlowering.runs ((Gen.only_perform (by rintro _ ⟨⟩)).bind fun _ =>
          trivial))))
  obtain ⟨-, rfl⟩ := hbegin.runs.of_ask
  obtain ⟨_, hl, -⟩ := hlowering.runs.of_ask_bind rfl
  obtain ⟨-, rfl, rfl⟩ := hl.of_pure
  refine ⟨listing ++ typing ++ [_], making, receiving ++ placing ++ reading, rest, object, s₇, ?_,
    ⟨ret, _, suffix_append _ _⟩, hsilent, ⟨_, _, hnew⟩, ?_, hrest⟩
  · simp only [append_assoc]
  · obtain ⟨rfl, -⟩ := (Gen.gives_paramSlots _ _ _).of_runs hslots.runs
    have hleaves := hplace.runs.only (Gen.leaves_bindParams "self" (forall_mem_map.2 hparams))
    rw [(hplace.runs.resolve?_of_leaves _ hleaves).1]
    obtain ⟨_, ir, t, _, -, hlocal, -⟩ := hbind.runs.of_bind
    obtain ⟨hlocal, -⟩ := hlocal.of_ask
    cases hlocal
    rw [Scope.resolve?_bind, if_pos rfl, ClassDef.storage, Receiver.ofClass]
    cases d.isValue <;> rfl

/-- Where the return statements in the code of a constructor return `self`, and no parameter and no
statement gives `self` another meaning, the constructor creates an instance right after its header,
it ends with a return, and every return in its code, at any depth, returns that instance. -/
theorem constructor_returns_instance (h : Performs program settings output
      (Gen.lowerConstructor d args f symbol b) s during () s')
    (hreturns : program.ReturnsSelf f) (hparams : ∀ param ∈ f.params, param.name ≠ "self")
    (hbinds : ∀ body, f.body = some body → ¬ program.Binds (.block {} body) "self") :
    ∃ before own after object, during = before ++ (own ++ after) ∧
      (∃ ret params, [⟨.beginFunction ret symbol params, ()⟩] <:+ before) ∧
      (∃ t t', Performs program settings output (Gen.newInstance d args) t own object t') ∧
      (∃ value, [⟨.emit (.ret value), ()⟩, ⟨.finishFunction, ()⟩] <:+ during) ∧
      d.ReturnsInstance object during := by
  obtain ⟨before, own, binding, rest, object, t, rfl, hheader, hsilent, ⟨t₁, t₂, hnew⟩, hself,
    hrest⟩ := h.parts_of_lowerConstructor hparams
  have hrest : (∃ value, [⟨.emit (.ret value), ()⟩, ⟨.finishFunction, ()⟩] <:+ rest) ∧
      d.ReturnsInstance object rest := by
    cases hbody : f.body with
    | none =>
      rw [hbody] at hrest
      exact hrest.instance_of_end
    | some body =>
      rw [hbody] at hrest
      obtain ⟨_, _, _, ending, hblock, hend, rfl⟩ := hrest.bind
      obtain ⟨lowering, _, _, _, hlower, hdiscard, rfl⟩ := hblock.bind
      obtain ⟨rfl, -, -⟩ := runs_pure_iff.1 hdiscard.runs
      rw [List.append_nil]
      obtain ⟨⟨_, hsuffix⟩, hlast⟩ := hend.instance_of_end
      exact ⟨⟨_, hsuffix.trans (List.suffix_append _ _)⟩, (hlower.instance_of_body hreturns
        hbody (hbinds body hbody) hself).append hlast⟩
  have hduring : before ++ (own ++ (binding ++ rest)) = (before ++ (own ++ binding)) ++ rest := by
    simp only [List.append_assoc]
  refine ⟨before, own, binding ++ rest, object, rfl, hheader, ⟨t₁, t₂, hnew⟩, ?_⟩
  rw [hduring]
  obtain ⟨⟨last, hsuffix⟩, hinstances⟩ := hrest
  exact ⟨⟨last, hsuffix.trans (List.suffix_append _ _)⟩, hsilent.returnsInstance.append hinstances⟩

/-! ### Return statements -/

/-- A value class with a constructor that has a return statement. -/
def returner (value : Option Expr) : ClassDef where
  name := "P"
  fields := [{ name := "x", ty := .prim .i32 }]
  constructors := [{ name := "new", body := some (.mk [.ret value] none) }]
  isSealed := true
  isDeclaredValue := true

/-- The module of that class. -/
def returning (value : Option Expr) : Program where
  home := { classes := .ofList [returner value] }

/-- The only block in the code of the constructor is its body. -/
theorem eq_of_opensInto_returning {note : Note} {body : Block}
    (h : (returning (some (.ident {} "self"))).OpensInto
      (.block {} (.mk [.ret (some (.ident {} "self"))] none)) (.block note body)) :
    body = .mk [.ret (some (.ident {} "self"))] none := by
  obtain heq | heq := h.eq_or_eq rfl rfl
  · cases heq
    rfl
  · cases heq

theorem returnsSelf_returning (hf : f.body = some (.mk [.ret (some (.ident {} "self"))] none)) :
    (returning (some (.ident {} "self"))).ReturnsSelf f := by
  rintro note body value ⟨hown, hcode⟩ hvalue
  cases hf.symm.trans hown
  rw [eq_of_opensInto_returning hcode] at hvalue
  cases mem_singleton.1 hvalue
  exact ⟨_, rfl⟩

theorem not_binds_returning (hf : f.body = some (.mk [.ret (some (.ident {} "self"))] none))
    (body : Block) (hbody : f.body = some body) :
    ¬ (returning (some (.ident {} "self"))).Binds (.block {} body) "self" := by
  cases hf.symm.trans hbody
  rintro ⟨note, body, ty, init, hcode, hstmt⟩
  rw [eq_of_opensInto_returning hcode] at hstmt
  cases mem_singleton.1 hstmt

/-- A copy of the instance is returned, by the return of `self` and at the end. -/
theorem constructor_returns_instance_returning :
    ∃ output, compile (returning (some (.ident {} "self"))) { depth := 9 } = .ok output ∧
      ∃ f s during s', (returner (some (.ident {} "self"))).constructors = [f] ∧
        Performs (returning (some (.ident {} "self"))) { depth := 9 } output
          (Gen.lowerConstructor (returner (some (.ident {} "self"))) [] f "@tml_P_new" .empty)
            s during () s' ∧
        ∃ object, (∃ t own t', own <:+: during ∧
            Performs (returning (some (.ident {} "self"))) { depth := 9 } output
              (Gen.newInstance (returner (some (.ident {} "self"))) []) t own object t') ∧
          ∀ value, ⟨.emit (.ret value), ()⟩ ∈ during → ∃ ir r ir',
            value = some ⟨ir, .temp r⟩ ∧ ⟨.emit (.load r ir' object), ()⟩ ∈ during := by
  obtain ⟨output, hcompile, -⟩ := exists_of_compile (P := fun _ => True)
    (by decide +kernel : (compile (returning (some (.ident {} "self"))) { depth := 9 }).toOption.any
      _)
  obtain ⟨_, -, hwritten⟩ := exists_writes_of_mem_pieces hcompile
    (Session.constructorPiece_mem_pieces (d := returner (some (.ident {} "self")))
      List.mem_cons_self rfl List.mem_cons_self)
  obtain ⟨s, during, s', hlower, -⟩ := hwritten.lowered
  obtain ⟨before, own, after, object, rfl, -, ⟨t, t', hnew⟩, -, hall⟩ :=
    constructor_returns_instance hlower (returnsSelf_returning rfl) (List.forall_mem_nil _)
      (not_binds_returning rfl)
  refine ⟨output, hcompile, _, s, _, s', rfl, hlower, object,
    ⟨t, own, t', List.infix_append_of_infix_right List.infix_append_left, hnew⟩,
    fun value hvalue => ?_⟩
  obtain ⟨ir, operand, rfl, hinstance⟩ := hall value hvalue
  cases hinstance with
  | address hd => cases hd
  | copy _ hload => exact ⟨ir, _, _, rfl, hload⟩

/-- A return without a value returns a zero, and only the end returns a copy of the instance. -/
theorem constructor_returns_zero :
    (compile (returning none) { depth := 9 }).toOption.map (fun output =>
        output.assembly.functions.toList.map fun f => f.lines.toList) =
      some [[.instr (.alloca 0 (.named "%class.P")),
        .instr (.store ⟨.named "%class.P", .zero⟩ (.temp 0)),
        .instr (.ret (some ⟨.named "%class.P", .zero⟩)), .label (.dead 0),
        .instr (.load 1 (.named "%class.P") (.temp 0)),
        .instr (.ret (some ⟨.named "%class.P", .temp 1⟩))]] := by
  decide +kernel

end Compile

end Monomorph
