import Monomorph.Proofs.Lowering.Bodies
import Monomorph.Proofs.Lowering.Linear
import Monomorph.Proofs.Symbol.Identity

/-!
# The names that code generation uses

Where all names in a program are in a vocabulary, so are the names in all types that code generation
comes across: types are only taken from the program, put into each other and matched. This is a
discipline without any demand on instructions, so that what it says is in its traces: which
instances are requested, which types are defined and which local names are bound, and what else is
followed.
-/

namespace Monomorph

/-- Functions, instances and dispatch tables may be referred to and requested at will. -/
class Focus.IsLoose {session : Session} (focus : Focus session) : Prop where
  refers (symbol : String) : focus.Refers symbol
  requested (item : WorkItem) : focus.Requested item
  tabled (request : Dispatch.Request) : focus.Tabled request

instance (session : Session) (Takes : (step : Step) → step.Answer → Prop) :
    (Focus.taking session Takes).IsLoose :=
  ⟨fun _ => trivial, fun _ => trivial, fun _ => trivial⟩

instance (session : Session) : (Focus.none session).IsLoose := inferInstance

namespace Naming

open Script

variable {session : Session} (V : Vocabulary) (Item : WorkItem → Prop) (focus : Focus session)

/-- Inside a function, the types of the local names are over the vocabulary. -/
def Inv : Mode → Build → Prop
  | .outside, _ => True
  | .inside, s => ∀ entry ∈ s.scope.entries, entry.2.ty.Over V

/-- The names of source types are in the vocabulary, and certain instances are requested. -/
def facts : Facts session where
  focus := focus
  Name := V
  Item := Item
  TypeName _ := True
  Temp _ _ := True
  Inv := Inv V
  Order _ _ := True
  order_refl _ := trivial
  order_trans _ _ := trivial
  temp_mono _ _ := trivial

variable {V Item focus} {mode : Mode} {s s' : Build}

/-- The invariant speaks of the local names only. -/
theorem inv_of_scope_eq (h : Inv V mode s) (hscope : s'.scope = s.scope) : Inv V mode s' := by
  cases mode with
  | outside => trivial
  | inside =>
    rw [Inv, hscope]
    exact h

variable (V Item focus)

/-- All instructions keep to the vocabulary. -/
def linear : Linear session where
  toFacts := facts V Item focus
  quiet h hallows _ hperform :=
    ⟨inv_of_scope_eq (V := V) h (hallows.sameCode hperform).scope, trivial⟩
  takeTemp h := ⟨h, trivial⟩
  result _ _ h _ _ _ _ := ⟨h, trivial, trivial⟩
  effect h _ _ _ _ := ⟨h, trivial⟩
  takeLabel h := ⟨h, trivial⟩
  place _ h := ⟨h, trivial⟩
  leave h _ _ _ := ⟨h, trivial⟩
  join _ _ h _ _ _ := ⟨h, trivial, trivial⟩

/-- Representing types keeps to the vocabulary. -/
def representing (hitem : ∀ item, focus.Grants item → Item item) : Representing session where
  toElements := (linear V Item focus).toElements
  defined _ := trivial
  definedType _ hargs := Elements.sound_definedType hitem (fun _ => trivial) _ hargs

variable {V Item focus}

theorem ok_operand [loose : focus.IsLoose] (operand : IR.Operand) :
    (facts V Item focus).Ok s operand := by
  cases operand with
  | thin symbol => exact loose.refers symbol
  | _ => trivial

variable [loose : focus.IsLoose] (Item focus)

/-- Code generation keeps to the vocabulary of the program. -/
def discipline (hitem : ∀ item, focus.Grants item → Item item) (h : session.program.Over V) :
    Discipline session where
  toRepresenting := representing V Item focus hitem
  program := h
  code _ hgrants := hitem _ hgrants
  scope h entry hentry := ⟨trivial, ok_operand _, h entry hentry, fun _ _ => trivial⟩
  ctors _ _ _ := ⟨trivial, fun _ _ => trivial, loose.refers _⟩
  bindLocal _ h hl := ⟨List.forall_mem_cons.2 ⟨hl.2.1, h⟩, trivial⟩
  classStruct _ := Representing.sound_classStruct fun _ => trivial
  stop hend _ hi := Linear.stop hend hi
  assertThat := Linear.assertThat
  callEither := Linear.callEither
  begin _ _ _ _ := List.forall_mem_nil _
  finish _ _ _ := trivial
  move _ _ _ _ := trivial

/-- Where all code may be lowered, whole compilations keep to the vocabulary. -/
theorem isFull [full : focus.IsFull] {hitem : ∀ item, focus.Grants item → Item item}
    {h : session.program.Over V} : (discipline Item focus hitem h).IsFull :=
  ⟨full.allows⟩

/-- Code generation for a program with clean names requests instances of its items. -/
def clean (h : session.program.Over .clean) : Discipline session :=
  discipline session.program.Requests focus (fun _ h => h.requests) h

instance [focus.IsFull] (h : session.program.Over .clean) : (clean focus h).IsFull :=
  isFull _ focus

/-- Code generation with no demand on names, where something is followed. -/
def following : Discipline session :=
  discipline (V := .full) (fun _ => True) focus (fun _ _ => trivial) session.over_full

instance [focus.IsFull] : (following focus).IsFull := isFull _ focus

/-- Every state will do. -/
theorem inv_following (mode : Mode) (s : Build) : (following focus).Inv mode s := by
  cases mode with
  | outside => trivial
  | inside => exact fun entry _ => Ty.over_full entry.2.ty

variable {focus}

/-- Code that is followed leaves a good trace and gives what it ensures, in every state. -/
theorem accepts_of_runs {α : Type} {m : Gen α} {Q : Build → α → Prop} {mode : Mode} {s s' : Build}
    (hm : (following focus).Ensures mode s m Q) {events : Gen.Trace} {a : α}
    (h : session.Runs m s events a s')
    (htakes : ∀ event ∈ events, focus.Takes event.1 event.2) :
    (∀ event ∈ events, (following focus).Accepts event.1) ∧ Q s' a := by
  obtain ⟨-, -, htraced, ha⟩ := hm.ends (inv_following focus mode s) events a s' h htakes
  exact ⟨htraced.accepts, ha⟩

variable (session)

/-- Code generation with no demand on names. -/
abbrev free : Discipline session := following (.none session)

theorem takes_none (events : Gen.Trace) : (free session).Takes events :=
  fun _ _ => trivial

/-- Every state will do. -/
theorem inv_free (mode : Mode) (s : Build) : (free session).Inv mode s :=
  inv_following (.none session) mode s

end Naming

end Monomorph
