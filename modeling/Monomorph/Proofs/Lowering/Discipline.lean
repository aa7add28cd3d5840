import Monomorph.Proofs.Lowering.Linkage

/-!
# Disciplines of code generation

Many properties of the generated code have one proof: each elementary piece of code keeps an
invariant, provided that it is made of operands and types of which certain facts are known, and
the facts known of a value are not lost while more code is generated. A discipline says which
facts are followed, what the invariant is, and why the elementary pieces keep it. Everything else
is made of these pieces, so that the invariant holds of whole compilations.

A function begins and finishes before the next one begins, so that a discipline has two
invariants, one for the code inside a function and one for what happens between functions.

Besides, every run leaves a trace: the instances that it requests, the types that it defines, the
local names that it binds, the functions that it refers to and what it returns and reports are all
accounted for.
-/

namespace Monomorph

open List Script

/-- Where code generation is. -/
inductive Mode
  /-- Between the beginning and the end of a function. -/
  | inside
  /-- Between two functions. -/
  | outside

/-- A bound of a function. -/
inductive Bound
  | begin
  | finish
  deriving DecidableEq

/-- The bound that a step sets. -/
def Step.bound? : Step → Option Bound
  | beginFunction .. => some .begin
  | finishFunction => some .finish
  | _ => none

/-- The bounds of functions among events. -/
def bounds (events : List (Event Step.Answer)) : List Bound := events.filterMap (·.1.bound?)

/-- A number of functions, one after the other. -/
def Bound.IsBalanced (bs : List Bound) : Prop :=
  ∃ n, bs = (List.replicate n [begin, finish]).flatten

theorem Bound.isBalanced_nil : IsBalanced [] := ⟨0, rfl⟩

theorem Bound.IsBalanced.append {bs cs : List Bound} (hbs : IsBalanced bs) (hcs : IsBalanced cs) :
    IsBalanced (bs ++ cs) := by
  obtain ⟨m, rfl⟩ := hbs
  obtain ⟨n, rfl⟩ := hcs
  exact ⟨m + n, by rw [← flatten_append, replicate_append_replicate]⟩

/-- The bounds that a script can set: none inside a function, and whole functions outside. -/
def Mode.Sets : Mode → List Bound → Prop
  | inside, bs => bs = []
  | outside, bs => Bound.IsBalanced bs

theorem Mode.sets_nil (mode : Mode) : mode.Sets [] := by
  cases mode with
  | inside => exact rfl
  | outside => exact Bound.isBalanced_nil

theorem Mode.Sets.append {mode : Mode} {bs cs : List Bound} (hbs : mode.Sets bs)
    (hcs : mode.Sets cs) : mode.Sets (bs ++ cs) := by
  cases mode with
  | inside => exact append_eq_nil_iff.2 ⟨hbs, hcs⟩
  | outside => exact Bound.IsBalanced.append hbs hcs

theorem bounds_append (events later : Gen.Trace) :
    bounds (events ++ later) = bounds events ++ bounds later :=
  filterMap_append

/-! ### Facts -/

/-- The facts that are followed while code is generated. -/
structure Facts (session : Session) where
  /-- What is known of the compilation. -/
  focus : Focus session
  /-- The names that types of the source may have. -/
  Name : Vocabulary
  /-- The instances that may be requested. -/
  Item : WorkItem → Prop
  /-- The names of types that instructions may mention. -/
  TypeName : String → Prop
  /-- The temporaries that instructions may use. -/
  Temp : Build → Nat → Prop
  /-- The invariant. -/
  Inv : Mode → Build → Prop
  /-- The order of states inside a function, in which facts are not lost. -/
  Order : Build → Build → Prop
  order_refl (s : Build) : Order s s
  order_trans {s s' s'' : Build} : Order s s' → Order s' s'' → Order s s''
  temp_mono {s s' : Build} {id : Nat} : Order s s' → Temp s id → Temp s' id

/-- The operand by which a local name is known. -/
def Storage.operand : Storage → IR.Operand
  | slot operand | direct operand => operand

/-- Data of which the facts speak. -/
class Judged (α : Type) where
  /-- The facts hold of a datum. -/
  Ok {session : Session} : Facts session → Build → α → Prop
  /-- A datum stays good as long as no temporary is lost. -/
  mono {session : Session} {F : Facts session} {s s' : Build}
    (htemp : ∀ id, F.Temp s id → F.Temp s' id) {a : α} : Ok F s a → Ok F s' a

/-- The facts hold of a datum. -/
abbrev Facts.Ok {session : Session} {α : Type} [Judged α] (F : Facts session) (s : Build) (a : α) :
    Prop :=
  Judged.Ok F s a

namespace Judged

variable {α β : Type}

/-- Data of which no fact speaks. -/
abbrev unjudged : Judged α := ⟨fun _ _ _ => True, fun _ _ _ => trivial⟩

instance : Judged PUnit := unjudged

instance : Judged Bool := unjudged

instance : Judged Nat := unjudged

instance : Judged String := unjudged

instance : Judged UInt64 := unjudged

instance : Judged Extent := unjudged

instance [Judged α] [Judged β] : Judged (α × β) :=
  ⟨fun F s pair => F.Ok s pair.1 ∧ F.Ok s pair.2, fun htemp _ h => ⟨mono htemp h.1, mono htemp h.2⟩⟩

instance [Judged α] : Judged (Option α) :=
  ⟨fun F s o => ∀ a ∈ o, F.Ok s a, fun htemp _ h a ha => mono htemp (h a ha)⟩

instance [Judged α] : Judged (List α) :=
  ⟨fun F s l => ∀ a ∈ l, F.Ok s a, fun htemp _ h a ha => mono htemp (h a ha)⟩

instance : Judged Ty := ⟨fun F _ t => t.Over F.Name, fun _ _ h => h⟩

instance : Judged Binder := ⟨fun F _ binder => binder.Over F.Name, fun _ _ h => h⟩

instance : Judged Bindings := ⟨fun F _ b => b.Over F.Name, fun _ _ h => h⟩

instance : Judged IR.Ty := ⟨fun F _ t => ∀ name ∈ t.names, F.TypeName name, fun _ _ h => h⟩

instance : Judged IR.Operand where
  Ok F s
    | .temp id => F.Temp s id
    | .thin symbol => F.focus.Refers symbol
    | _ => True
  mono htemp operand h := by
    cases operand with
    | temp id => exact htemp id h
    | _ => exact h

/-- Data that are good when some of their parts are. -/
abbrev ofParts [Judged β] (parts : α → β) : Judged α :=
  ⟨fun F s a => F.Ok s (parts a), fun htemp _ h => mono htemp h⟩

instance : Judged IR.Typed := ofParts fun v => (v.ty, v.operand)

instance : Judged IR.Instr := ofParts fun i => (i.types, i.operands)

instance : Judged Value := ofParts fun v => (v.operand, v.ir, v.ty)

instance : Judged Place := ofParts fun place => (place.addr, place.ty)

instance : Judged Storage := ofParts Storage.operand

instance : Judged Local := ofParts fun l => (l.storage, l.ty, l.ir)

instance : Judged Scope := ofParts Scope.entries

instance : Judged Cursor := ofParts Cursor.operand

instance : Judged Ctor :=
  ⟨fun F s ctor => F.Ok s ctor.ret ∧ F.focus.Refers ctor.symbol, fun htemp _ h =>
    ⟨mono htemp h.1, h.2⟩⟩

instance : Judged Resolution := ofParts Resolution.args

instance : Judged Signature := ofParts fun sig => (sig.params, sig.ret)

instance : Judged ParamSlot := ofParts fun slot => (slot.ty, slot.ir)

instance : Judged Receiver := ofParts Receiver.ty

instance : Judged WorkItem :=
  ⟨fun F s item => F.Item item ∧ F.Ok s (item.args, item.method.map MethodKey.args),
    fun htemp _ h => ⟨h.1, mono htemp h.2⟩⟩

instance : Judged Dispatch.Request := ofParts fun
  | .behavior selfTy _ args => selfTy :: args
  | .cls _ args => args

end Judged

namespace Facts

variable {session : Session} (F : Facts session)

/-- Inside a function, no fact is lost. -/
def Ord (mode : Mode) (s s' : Build) : Prop := mode = .inside → F.Order s s'

/-- An expression that may be lowered. -/
def Follows (e : Expr) : Prop := e.Over F.Name ∧ F.focus.Code e

/-- An expression that may be taken apart. -/
def Opens (e : Expr) : Prop := e.Over F.Name ∧ F.focus.Opens e

/-- An instance that may be requested in every state. -/
def Admits (item : WorkItem) : Prop := ∀ s, F.Ok s item

/-- The definitions of types: those that are written while a type is represented, and those of
requested instances. -/
inductive Writes : String → IR.Ty → Prop
  | dyn {behavior args} (hbehavior : F.Name.behavior behavior) (hargs : ∀ t ∈ args, t.Over F.Name) :
      Writes ("%dyn." ++ Symbol.ofInstance behavior args) .fatPtr
  | boxed {name wrapper arg} (hwrapper : Wrapper.ofName? name = some wrapper) (hname : F.Name name)
      (harg : arg.Over F.Name) :
      Writes ("%struct." ++ Symbol.ofInstance name [arg]) (.anon [.ptr])
  | counted {payload} (h : payload.Over F.Name) :
      Writes ("%struct." ++ Wrapper.blockName ++ Symbol.separator ++ payload.symbol)
        (.anon [.i64, .i64, session.program.ir payload])
  | struct {item d} (hitem : F.Admits item)
      (hkind : item.kind = .struct) (hd : session.program.struct? item.base = some d) :
      Writes ("%struct." ++ item.symbol)
        (.anon (session.program.irs (d.fieldTypes item.args)))
  | union {item} (hitem : F.Admits item) (hkind : item.kind = .struct) (body : IR.Ty) :
      Writes ("%union." ++ item.symbol) body
  | enum {item d} {words : UInt64} (hitem : F.Admits item) (hkind : item.kind = .enum)
      (hd : session.program.enum? item.base = some d)
      (hwords : F.focus.Takes (.payloadWords d item.args) words) :
      Writes ("%struct." ++ item.symbol)
        (.anon (if words = 0 then [.i32] else [.i32, .array words .i64]))
  | cls {item d} (hitem : F.Admits item) (hkind : item.kind = .cls)
      (hd : session.program.class? item.base = some d) :
      Writes ("%class." ++ item.symbol)
        (.anon (d.firstIr :: session.program.irs (d.fieldTypes item.args)))

/-- What the steps that leave a trace may do. How deep lowering may go is read only where code may
end without a result. -/
def Accepts : Step → Prop
  | .depth => F.focus.Fails
  | .require item => F.Admits item
  | .requireTable request => ∀ s, F.Ok s request
  | .defineType name body => F.Writes name body
  | .bindLocal name _ => F.focus.Binds name
  | .emit i => F.focus.Emits i
  | .defer item => F.focus.Defers item
  | .report d => F.focus.Reports d ∧ d.IsGrave
  | .registerCtor key ctor => session.Registers key ctor
  | .extent t => t.Over F.Name
  | .classExtent d args => d.Over F.Name ∧ ∀ t ∈ args, t.Over F.Name
  | .payloadWords d args => d.Over F.Name ∧ ∀ t ∈ args, t.Over F.Name
  | _ => True

/-- Steps that leave the function being drafted and its local names alone, on good data. -/
def Allows (s : Build) : Step → Prop
  | .registerCtor key ctor => session.Registers key ctor ∧ F.Ok s ctor
  | .defineType name body => F.Writes name body ∧ F.Ok s body
  | .declare _ ret params => F.Ok s (ret :: params)
  | .require item => F.Ok s item
  | .requireTable request => F.Ok s request
  | .report d => F.focus.Reports d ∧ d.IsGrave
  | .defer item => F.focus.Defers item
  | .depth => F.focus.Fails
  | .extent t => t.Over F.Name
  | .classExtent d args => d.Over F.Name ∧ ∀ t ∈ args, t.Over F.Name
  | .payloadWords d args => d.Over F.Name ∧ ∀ t ∈ args, t.Over F.Name
  | .bindLocal .. | .storeConv .. | .fresh | .freshLabel | .emit _ | .block _
  | .beginFunction .. | .finishFunction => False
  | .program | .symbolStart | .scope | .ctors | .stringGlobal _
  | .reportDefaulted .. => True

/-- The events are among those of which something is known. -/
def Takes (events : List (Event Step.Answer)) : Prop :=
  ∀ event ∈ events, F.focus.Takes event.1 event.2

/-- If the step binds a local name, it gives it a good meaning. -/
def BindsWell (s : Build) : Step → Prop
  | .bindLocal _ l => F.Ok s l
  | _ => True

/-- The events of a script set the bounds that its mode allows and leave a good trace. -/
structure Traced (mode : Mode) (s : Build) (events : List (Event Step.Answer)) (s' : Build) :
    Prop where
  /-- The bounds of functions. -/
  sets : mode.Sets (bounds events)
  accepts : ∀ event ∈ events, F.Accepts event.1
  leads : LeadsBy (Step.perform session) F.BindsWell s events s'

variable {α β : Type}

/-- Every run of the script keeps the invariant, loses no fact that was known in an earlier state,
leaves a good trace and gives a result with a certain property; inside a function, it has a result
unless code may end without one or a step is refused after a good trace. -/
structure EnsuresFrom (mode : Mode) (origin s : Build) (m : Gen α) (Q : Build → α → Prop) :
    Prop where
  ends : F.Inv mode s → ∀ events a s', session.Runs m s events a s' →
    F.Takes events → F.Inv mode s' ∧ F.Ord mode origin s' ∧ F.Traced mode s events s' ∧ Q s' a
  stops : mode = .inside → ¬F.focus.Fails → F.Inv mode s → ∀ {events refused fault},
    Stops (Step.perform session) m s events refused fault → F.Takes events →
      (∀ event ∈ events, F.Accepts event.1) ∧ refused ≠ none

/-- As before, where no fact is lost that is known. -/
abbrev Ensures (mode : Mode) (s : Build) (m : Gen α) (Q : Build → α → Prop) : Prop :=
  F.EnsuresFrom mode s s m Q

/-- Every run of the script keeps the invariant, loses no fact and gives a result of which the facts
hold. -/
abbrev Sound [Judged α] (mode : Mode) (s : Build) (m : Gen α) : Prop :=
  F.Ensures mode s m F.Ok

/-- Every run of the script finishes the function at hand. -/
def Completes (s : Build) (m : Gen α) : Prop :=
  F.Inv .inside s → ∀ events a s', session.Runs m s events a s' → F.Takes events →
    F.Inv .outside s' ∧ bounds events = [.finish] ∧ (∀ event ∈ events, F.Accepts event.1) ∧
      LeadsBy (Step.perform session) F.BindsWell s events s'

end Facts

/-- The state with the draft finished. -/
def Build.finishFunction (s : Build) : Build := { s with assembly := s.assembly.finish }

/-- The moves between two pieces of code. -/
def Move.IsBetween : Move → Prop
  | step _ => False
  | _ => True

/-- Names under which the block of a class is asked for: those under which a class is found, those
of classes, and those of their bases. -/
inductive Program.NamesClass (p : Program) : String → Prop
  | found {name d} (h : p.class? name = some d) : NamesClass p name
  | own {m d} (hm : m ∈ p.modules) (hd : d ∈ m.classes.items) :
      NamesClass p d.name
  | base {m d name} (hm : m ∈ p.modules)
      (hd : d ∈ m.classes.items) (h : d.base = some name) : NamesClass p name

/-- Single steps keep an invariant. -/
structure Elements (session : Session) extends Facts session where
  /-- Steps that leave the function alone. -/
  quiet {mode : Mode} {s s' : Build} {step : Step} {answer : step.Answer} :
    Inv mode s → toFacts.Allows s step → focus.Takes step answer →
      step.perform session s = .ok (answer, s') → Inv mode s' ∧ Order s s'
  /-- Taking a temporary. -/
  takeTemp {s : Build} : Inv .inside s → Inv .inside s.takeTemp ∧ Order s s.takeTemp
  /-- Giving the temporary a value, possibly after more code. -/
  result {s s' : Build} {i : IR.Instr} : Inv .inside s → Order s.takeTemp s' →
    Inv .inside s' → i.result? = some s.assembly.temps → i.isPlain → toFacts.Ok s' i →
      focus.Emits i → Inv .inside (s'.emit i) ∧ Order s (s'.emit i) ∧
        Temp (s'.emit i) s.assembly.temps
  /-- An instruction without a result. -/
  effect {s : Build} {i : IR.Instr} : Inv .inside s → i.result? = none → i.isPlain →
    toFacts.Ok s i → focus.Emits i → Inv .inside (s.emit i) ∧ Order s (s.emit i)

/-- The representation of types keeps an invariant. -/
structure Representing (session : Session) extends Elements session where
  /-- A defined type may be mentioned. -/
  defined {name : String} {body : IR.Ty} : focus.Takes (.defineType name body) () → TypeName name
  /-- The representation of a struct, enum or class instance. -/
  definedType {mode : Mode} {s : Build} {name : String} {args : List Ty} :
    Name name → (∀ t ∈ args, t.Over Name) →
      toFacts.Sound mode s (Gen.definedType name args)

/-- The elementary pieces of code keep an invariant. -/
structure Discipline (session : Session) extends Representing session where
  /-- The program mentions good names only. -/
  program : session.program.Over Name
  /-- All code for which there is a definition may be requested. -/
  code {item : WorkItem} : item.kind.isCode → focus.Grants item → Item item
  /-- The local names are good inside a function. -/
  scope {s : Build} : Inv .inside s → toFacts.Ok s s.scope
  /-- The constructors are always good. -/
  ctors {mode : Mode} {s : Build} : Inv mode s → toFacts.Ok s s.ctors
  /-- Giving a local name a meaning. -/
  bindLocal {s : Build} {l : Local} (name : String) : Inv .inside s → toFacts.Ok s l →
    Inv .inside { s with scope := s.scope.bind name l } ∧
      Order s { s with scope := s.scope.bind name l }
  /-- The block of a class instance. -/
  classStruct {mode : Mode} {s : Build} {name : String} {args : List Ty} :
    session.program.NamesClass name → Name name → (∀ t ∈ args, t.Over Name) →
      toFacts.Sound mode s (Gen.classStruct name args)
  /-- The end of a block from which control does not come back. -/
  stop {s : Build} {i : IR.Instr} : i.isTerminator → i.targets = [] → toFacts.Ok s i →
    focus.Emits i → toFacts.Sound .inside s (Gen.emit i >>= fun _ => Gen.deadBlock)
  /-- A condition that is tested. -/
  assertThat {s : Build} {condition message : IR.Operand} : toFacts.Ok s condition →
    toFacts.Ok s message → toFacts.Sound .inside s (Gen.assertThat condition message)
  /-- A call with or without an environment. -/
  callEither {s : Build} {ret : IR.Ty} {code environment : IR.Operand} {args : List IR.Typed} :
    toFacts.Ok s ret → toFacts.Ok s code → focus.Calls code → toFacts.Ok s environment →
      toFacts.Ok s args → toFacts.Sound .inside s (Gen.callEither ret code environment args)
  /-- The beginning of a function. -/
  begin {s : Build} {ret : IR.Ty} {params : List IR.Typed} (symbol : String) : Inv .outside s →
    toFacts.Ok s ret → toFacts.Ok s params → Inv .inside (s.beginFunction ret symbol params)
  /-- The end of a function. -/
  finish {s : Build} {value : Option IR.Typed} : Inv .inside s → toFacts.Ok s value →
    focus.Returns value → Inv .outside (s.emit (.ret value)).finishFunction
  /-- Moves between two pieces of code. -/
  move {s s' : Build} {move : Move} {answer : move.Answer} : Inv .outside s →
    move.IsBetween → focus.Moves move → move.perform session s = .ok (answer, s') → Inv .outside s'

/-- A program meets a discipline that makes no demand on names. -/
theorem Session.over_full (session : Session) : session.program.Over .full :=
  Program.over_of_isFull .full _

/-! ### Rules -/

namespace Facts

variable {session : Session} {F : Facts session} {α β : Type} {mode : Mode} {s s' origin : Build}
  {Q : Build → α → Prop} {R : Build → β → Prop} {m : Gen α} {f : α → Gen β} {step : Step} {a : α}
  {c : Prop} {l : List α}

theorem refl (F : Facts session) (mode : Mode) (s : Build) : F.Ord mode s s :=
  fun _ => F.order_refl s

theorem trans (F : Facts session) {s'' : Build} (h : F.Ord mode s s') (h' : F.Ord mode s' s'') :
    F.Ord mode s s'' :=
  fun hmode => F.order_trans (h hmode) (h' hmode)

theorem Takes.append_iff {events later : Gen.Trace} :
    F.Takes (events ++ later) ↔ F.Takes events ∧ F.Takes later :=
  forall_mem_append

theorem takes_singleton {answer : step.Answer} :
    F.Takes [⟨step, answer⟩] ↔ F.focus.Takes step answer :=
  forall_mem_singleton

theorem Follows.opens {e : Expr} (h : F.Follows e) : F.Opens e := ⟨h.1, F.focus.opens h.2⟩

theorem Opens.part {whole part : Expr} (h : F.Opens whole) (hpart : part ∈ whole.parts) :
    F.Follows part :=
  ⟨h.1.part hpart, F.focus.opened h.2 part (mem_append_left _ hpart)⟩

theorem Follows.part {whole part : Expr} (h : F.Follows whole) (hpart : part ∈ whole.parts) :
    F.Follows part :=
  h.opens.part hpart

theorem traced_nil (F : Facts session) (mode : Mode) (s : Build) : F.Traced mode s [] s :=
  ⟨mode.sets_nil, forall_mem_nil _, .nil s⟩

theorem Traced.append {events later : Gen.Trace} {mid : Build} (h : F.Traced mode s events mid)
    (hlater : F.Traced mode mid later s') : F.Traced mode s (events ++ later) s' := by
  refine ⟨?_, forall_mem_append.2 ⟨h.accepts, hlater.accepts⟩, h.leads.append hlater.leads⟩
  rw [bounds_append]
  exact h.sets.append hlater.sets

/-- A step that sets no bound. -/
theorem traced_step (step : Step) {answer : step.Answer} (hbound : step.bound? = none)
    (haccepts : F.Accepts step) (hbinds : F.BindsWell s step)
    (hperform : step.perform session s = .ok (answer, s')) :
    F.Traced mode s [⟨step, answer⟩] s' := by
  refine ⟨?_, forall_mem_singleton.2 haccepts, .cons hperform hbinds (.nil s')⟩
  rw [show bounds [⟨step, answer⟩] = [] from filterMap_cons_none hbound]
  exact mode.sets_nil

theorem Ensures.weaken {Q' : Build → α → Prop} (h : F.Ensures mode s m Q)
    (hQ : ∀ s' a, Q s' a → Q' s' a) : F.Ensures mode s m Q' := by
  refine ⟨fun hs events a s' hrun htakes => ?_, h.stops⟩
  obtain ⟨hs', hord, htraced, ha⟩ := h.ends hs events a s' hrun htakes
  exact ⟨hs', hord, htraced, hQ s' a ha⟩

/-- What is known of every result is known of this one. -/
theorem Ensures.and_result {P : α → Prop} (h : F.Ensures mode s m Q)
    (hP : ∀ {events a s'}, session.Runs m s events a s' → F.Takes events → P a) :
    F.Ensures mode s m fun s' a => Q s' a ∧ P a := by
  refine ⟨fun hs events a s' hrun htakes => ?_, h.stops⟩
  obtain ⟨hs', hord, htraced, ha⟩ := h.ends hs events a s' hrun htakes
  exact ⟨hs', hord, htraced, ha, hP hrun htakes⟩

theorem ensures_fail (fault : Fault) (h : F.focus.Fails) : F.Ensures mode s (.fail fault) Q := by
  refine ⟨fun hs events a s' hrun _ => ?_, fun _ hfails => absurd h hfails⟩
  cases hrun

/-- A script of a single step. -/
theorem ensures_ask {Q : Build → step.Answer → Prop}
    (h : F.Inv mode s → ∀ answer s', step.perform session s = .ok (answer, s') →
      F.focus.Takes step answer →
        F.Inv mode s' ∧ F.Ord mode s s' ∧ F.Traced mode s [⟨step, answer⟩] s' ∧ Q s' answer) :
    F.Ensures mode s (.ask step .done) Q := by
  refine ⟨fun hs events answer s' hrun htakes => ?_, fun _ _ _ _ _ _ hstops _ => ?_⟩
  · obtain ⟨hperform, rfl⟩ := hrun.of_ask
    exact h hs answer s' hperform (takes_singleton.1 htakes)
  · obtain ⟨rfl, rfl, -⟩ := hstops.of_ask
    exact ⟨forall_mem_nil _, Option.some_ne_none _⟩

/-- A datum stays good inside a function. -/
theorem mono [Judged α] (h : F.Ord .inside s s') (ha : F.Ok s a) : F.Ok s' a :=
  Judged.mono (fun _ => F.temp_mono (h rfl)) ha

theorem Ensures.pure (h : Q s a) : F.Ensures mode s (pure a) Q := by
  refine ⟨fun hs events a' s' hrun _ => ?_, fun _ _ _ _ _ _ h => (not_stops_pure h).elim⟩
  obtain ⟨rfl, rfl, rfl⟩ := hrun.of_pure
  exact ⟨hs, F.refl mode _, F.traced_nil mode _, h⟩

theorem EnsuresFrom.bind (hm : F.Ensures mode s m Q)
    (hf : ∀ a s', F.Ord mode s s' → Q s' a → F.EnsuresFrom mode origin s' (f a) R) :
    F.EnsuresFrom mode origin s (m >>= f) R := by
  constructor
  · intro hs events b last hrun htakes
    obtain ⟨first, a, mid, rest, hfirst, hrest, rfl⟩ := hrun.of_bind
    obtain ⟨htakes, htakes'⟩ := Takes.append_iff.1 htakes
    obtain ⟨hmid, hord, htraced, ha⟩ := hm.ends hs first a mid hfirst htakes
    obtain ⟨hlast, hord', htraced', hb⟩ := (hf a mid hord ha).ends hmid rest b last hrest htakes'
    exact ⟨hlast, hord', htraced.append htraced', hb⟩
  · intro hmode hfails hs events refused fault hstops htakes
    obtain hstops | ⟨first, a, mid, rest, hfirst, hrest, rfl⟩ := hstops.of_bind
    · exact hm.stops hmode hfails hs hstops htakes
    · obtain ⟨htakes, htakes'⟩ := Takes.append_iff.1 htakes
      obtain ⟨hmid, hord, htraced, ha⟩ := hm.ends hs first a mid hfirst htakes
      exact ((hf a mid hord ha).stops hmode hfails hmid hrest htakes').imp_left
        fun haccepts => forall_mem_append.2 ⟨htraced.accepts, haccepts⟩

/-- The rest of a script after a step that gave a known answer. -/
theorem EnsuresFrom.ask_bind {answer : step.Answer} {f : step.Answer → Gen β}
    (hperform : step.perform session s = .ok (answer, s'))
    (htraced : F.Traced mode s [⟨step, answer⟩] s')
    (h : F.Inv mode s → F.Inv mode s' ∧ F.EnsuresFrom mode origin s' (f answer) R) :
    F.EnsuresFrom mode origin s (.ask step .done >>= f) R := by
  constructor
  · intro hs events b last hrun htakes
    obtain ⟨rest, hrest, rfl⟩ := hrun.of_ask_bind hperform
    obtain ⟨hlast, hord, hrest, hb⟩ :=
      (h hs).2.ends (h hs).1 rest b last hrest (forall_mem_cons.1 htakes).2
    exact ⟨hlast, hord, htraced.append hrest, hb⟩
  · intro hmode hfails hs events refused fault hstops htakes
    obtain ⟨rest, hrest, rfl⟩ := hstops.of_ask_bind hperform
    exact ((h hs).2.stops hmode hfails (h hs).1 hrest (forall_mem_cons.1 htakes).2).imp_left
      fun haccepts => forall_mem_append.2 ⟨htraced.accepts, haccepts⟩

theorem Ensures.from (h : F.Ensures mode s' m Q) (hord : F.Ord mode s s') :
    F.EnsuresFrom mode s s' m Q := by
  refine ⟨fun hs events a last hrun htakes => ?_, h.stops⟩
  obtain ⟨hlast, hord', hrest⟩ := h.ends hs events a last hrun htakes
  exact ⟨hlast, F.trans hord hord', hrest⟩

theorem Ensures.bind (hm : F.Ensures mode s m Q)
    (hf : ∀ a s', F.Ord mode s s' → Q s' a → F.Ensures mode s' (f a) R) :
    F.Ensures mode s (m >>= f) R :=
  EnsuresFrom.bind hm fun a s' hord ha => (hf a s' hord ha).from hord

/-- The rest of a script that has read the program. -/
theorem Ensures.program {f : Program → Gen β} (h : F.Ensures mode s (f session.program) R) :
    F.Ensures mode s (Gen.program >>= f) R :=
  EnsuresFrom.ask_bind rfl (traced_step .program rfl trivial trivial rfl)
    fun hs => ⟨hs, h.from (F.refl _ _)⟩

theorem ensures_functionSymbol {name : String} {Q : Build → String → Prop}
    (h : Q s (session.symbol name)) : F.Ensures mode s (Gen.functionSymbol name) Q := by
  refine EnsuresFrom.ask_bind rfl ?_ fun hs => ⟨hs, (Ensures.pure h).from (F.refl _ _)⟩
  exact traced_step .symbolStart rfl trivial trivial rfl

/-- The rest of a script that has made the symbol of a function. -/
theorem Ensures.functionSymbol {name : String} {f : String → Gen β}
    (h : F.Ensures mode s (f (session.symbol name)) R) :
    F.Ensures mode s (Gen.functionSymbol name >>= f) R :=
  .bind (ensures_functionSymbol (Q := fun s' symbol => s' = s ∧ symbol = session.symbol name)
    ⟨rfl, rfl⟩) fun _ _ _ heq => heq.1 ▸ heq.2 ▸ h

/-- Two ways to a value, and how to go on with it. -/
theorem ensures_ite_bind [Decidable c] {m' : Gen α} (hm : c → F.Ensures mode s m Q)
    (hm' : ¬c → F.Ensures mode s m' Q)
    (hf : ∀ a s', F.Ord mode s s' → Q s' a → F.Ensures mode s' (f a) R) :
    F.Ensures mode s (if c then m >>= f else m' >>= f) R := by
  split
  next hc => exact .bind (hm hc) hf
  next hc => exact .bind (hm' hc) hf

/-- A script that is performed only under a condition, and how to go on. -/
theorem ensures_when [Decidable c] {k : Gen β} (hm : c → F.Ensures mode s m Q)
    (hk : ∀ s', F.Ord mode s s' → F.Ensures mode s' k R) :
    F.Ensures mode s (if c then m >>= fun _ => k else k) R := by
  split
  next hc => exact .bind (hm hc) fun _ s' hord _ => hk s' hord
  · exact hk s (F.refl _ _)

theorem ensures_discard (hm : F.Ensures mode s m Q) : F.Sound mode s (discard m) :=
  .bind hm fun _ _ _ _ => .pure trivial

/-- A script that is performed for each member of a list, where the facts that it needs are not
lost. -/
theorem sound_forM {f : α → Gen PUnit} {P : Build → Prop}
    (hP : ∀ {s s'}, F.Ord mode s s' → P s → P s') (hs : P s)
    (hf : ∀ a ∈ l, ∀ s, P s → F.Sound mode s (f a)) : F.Sound mode s (l.forM f) := by
  induction l generalizing s with
  | nil => exact .pure trivial
  | cons a l ih =>
    obtain ⟨ha, hl⟩ := forall_mem_cons.1 hf
    exact .bind (ha s hs) fun _ s' hord _ => ih (hP hord hs) hl

theorem sound_mapM [Judged β] (hmono : ∀ {s s'} {b : β}, F.Ord mode s s' → F.Ok s b → F.Ok s' b)
    (hf : ∀ a ∈ l, ∀ s, F.Sound mode s (f a)) : F.Sound mode s (l.mapM f) := by
  induction l generalizing s with
  | nil => exact .pure nofun
  | cons a l ih =>
    obtain ⟨ha, hl⟩ := forall_mem_cons.1 hf
    rw [mapM_cons]
    refine .bind (ha s) fun b s₁ _ hb => .bind (ih hl) fun bs s₂ hord hbs => ?_
    exact .pure (forall_mem_cons.2 ⟨hmono hord hb, hbs⟩)

end Facts

end Monomorph
