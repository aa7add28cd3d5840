import Monomorph.Proofs.Layout.Bodies

/-!
# Arguments that are known through a behavior

A value becomes known through a behavior where the context of an expression asks for that. The
context of an argument is its parameter, so an argument of any other type is coerced when it is
lowered against the parameter. An argument that was lowered before, in order to bind the parameters
of a generic callee, had no context, and it is passed as it is.

## Main results

* `Lowering.arguments_dyn`, `Lowering.passes_uncoerced`.
-/

namespace Monomorph

open List Script

/-- A block has the value of its last expression. -/
inductive Expr.Yields : Expr → Expr → Prop
  | self {e} (h : ∀ note stmts tail, e ≠ .block note (.mk stmts (some tail))) : Yields e e
  | tail {note stmts e core} (h : Yields e core) :
      Yields (.block note (.mk stmts (some e))) core

/-- A script is performed among events, with a given result. -/
def Script.Occurs {α : Type} (session : Session) (events : List (Event Step.Answer)) (m : Gen α)
    (a : α) : Prop :=
  ∃ s own s', session.Runs m s own a s' ∧ own <:+: events

variable {session : Session} {s s' : Build} {events events' : List (Event Step.Answer)}
  {behavior : String} {args : List Ty} {value : Value}

theorem Script.Occurs.mono {α : Type} {m : Gen α} {a : α} (h : Occurs session events m a)
    (hpart : events <:+: events') : Occurs session events' m a := by
  obtain ⟨s, own, s', hruns, hown⟩ := h
  exact ⟨s, own, s', hruns, hown.trans hpart⟩

/-- A coerced value is known through the behavior. -/
theorem Gen.ty_of_coerceToDyn {v : Value}
    (h : session.Runs (Gen.coerceToDyn v behavior args) s events value s') :
    value.ty = .dyn behavior args := by
  have hbind : ∀ {α : Type} {m : Gen α} {f : α → Gen Value},
      (∀ a {s events value s'}, session.Runs (f a) s events value s' →
        value.ty = .dyn behavior args) →
      ∀ {s events value s'}, session.Runs (m >>= f) s events value s' →
        value.ty = .dyn behavior args := by
    intro α m f hf s events value s' h
    obtain ⟨_, a, _, _, -, h, -⟩ := h.of_bind
    exact hf a h
  have hpair : ∀ (ir : IR.Ty) (data : IR.Operand) {s events value s'},
      session.Runs (do
        let table ← requireTable (.behavior v.ty behavior args)
        let half ← fresh
        emit (.insertValue half ⟨ir, .undef⟩ ⟨.ptr, data⟩ 0)
        let whole ← fresh
        emit (.insertValue whole ⟨ir, .temp half⟩ ⟨.ptr, table⟩ 1)
        return ({ operand := .temp whole, ir, ty := .dyn behavior args } : Value))
        s events value s' → value.ty = .dyn behavior args := fun ir data =>
    hbind fun _ => hbind fun _ => hbind fun _ => hbind fun _ => hbind fun _ _ _ _ _ h => by
      rw [(h.of_pure).2.1]
  revert h
  refine hbind fun ir => hbind fun p => ?_
  dsimp only
  split
  · exact hpair ir _
  · refine hbind fun size => hbind fun data => ?_
    split
    · exact hbind fun _ => hpair ir data
    · exact hpair ir data

namespace Lowering

/-- A value is what an expression gives where the context asks for a behavior: the value of the
expression at the end of its blocks, coerced unless that is known through a behavior itself. -/
def Coerces (session : Session) (b : Bindings) (result : Ty) (e : Expr) (behavior : String)
    (args : List Ty) (events : List (Event Step.Answer)) (value : Value) : Prop :=
  ∃ core depth v, e.Yields core ∧
    Occurs session events ((ofDepth b result depth).shape core (some (.dyn behavior args))) v ∧
    ((v.ty.behavior?.isSome = true ∧ value = v) ∨
      (v.ty.behavior? = none ∧ Occurs session events (Gen.coerceToDyn v behavior args) value))

variable {b : Bindings} {result : Ty} {depth : Nat} {e : Expr}

theorem Coerces.mono (h : Coerces session b result e behavior args events value)
    (hpart : events <:+: events') : Coerces session b result e behavior args events' value := by
  obtain ⟨core, depth, v, hyields, hshape, hvalue⟩ := h
  exact ⟨core, depth, v, hyields, hshape.mono hpart, hvalue.imp_right fun hcoerced =>
    ⟨hcoerced.1, hcoerced.2.mono hpart⟩⟩

/-- An expression is coerced where the context asks for a behavior, once. -/
theorem coerces_expr (h : session.Runs
      ((ofDepth b result depth).expr e (some (.dyn behavior args))) s events value s') :
    Coerces session b result e behavior args events value ∧ value.ty.behavior?.isSome = true := by
  -- The induction is on the depth, since a block hands the context on to its last expression.
  induction depth generalizing e s events value s' with
  | zero => cases h
  | succ depth ih =>
    obtain ⟨shaping, v, mid, fitting, hshape, hfit, rfl⟩ := h.of_bind
    by_cases hblock : ∃ note stmts tail, e = .block note (.mk stmts (some tail))
    · obtain ⟨note, stmts, tail, rfl⟩ := hblock
      obtain ⟨_, _, _, lowering, -, htail, rfl⟩ := hshape.of_bind
      obtain ⟨hcoerces, hdyn⟩ := ih htail
      obtain ⟨known, hknown⟩ := Option.isSome_iff_exists.1 hdyn
      rw [fit, hknown] at hfit
      obtain ⟨rfl, rfl, -⟩ := hfit.of_pure
      obtain ⟨core, d, w, hyields, hrest⟩ :=
        hcoerces.mono (infix_append_right.trans infix_append_left)
      exact ⟨⟨core, d, w, hyields.tail, hrest⟩, hdyn⟩
    · have hself : e.Yields e := .self fun note stmts tail heq => hblock ⟨note, stmts, tail, heq⟩
      have hcore : Occurs session (shaping ++ fitting)
          ((ofDepth b result depth).shape e (some (.dyn behavior args))) v :=
        ⟨s, shaping, mid, hshape, infix_append_left⟩
      rw [fit] at hfit
      cases hv : v.ty.behavior? with
      | none =>
        rw [hv] at hfit
        refine ⟨⟨e, depth, v, hself, hcore, .inr ⟨hv, mid, fitting, s', hfit,
          infix_append_right⟩⟩, ?_⟩
        rw [Gen.ty_of_coerceToDyn hfit]
        rfl
      | some known =>
        rw [hv] at hfit
        obtain ⟨rfl, rfl, -⟩ := hfit.of_pure
        have hdyn : value.ty.behavior?.isSome = true := by rw [hv]; rfl
        exact ⟨⟨e, depth, value, hself, hcore, .inl ⟨hdyn, rfl⟩⟩, hdyn⟩

theorem convertTo_dyn (v : Value) (behavior : String) (args : List Ty) (ir : IR.Ty) :
    Gen.convertTo v (.dyn behavior args) ir = pure v := by
  rw [Gen.convertTo]
  split
  · rfl
  · cases v.ty.asPrimitive? <;> rfl

/-- The first argument is the value that it had before, or else it is lowered against its parameter;
then it is brought to the representation of the parameter. -/
theorem runs_arguments_cons {l : Lowering} {param : Ty} {params : List Ty} {exprs : List Expr}
    {early : List (Option Value)} {lowered : List IR.Typed}
    (h : session.Runs (l.arguments (param :: params) (e :: exprs) early) s events lowered s') :
    ∃ value v rest, lowered = ⟨session.program.ir param, v.operand⟩ :: rest ∧
      (∀ known, early.head?.join = some known → value = known) ∧
      (early.head?.join = none → Occurs session events (l.expr e (some param)) value) ∧
      Occurs session events (Gen.convertTo value param (session.program.ir param)) v ∧
      Occurs session events (l.arguments params exprs early.tail) rest := by
  have hrest : ∀ {value t own}, session.Runs (do
        let ir ← Gen.irType param
        let v ← Gen.convertTo value param ir
        let rest ← l.arguments params exprs early.tail
        return ⟨ir, v.operand⟩ :: rest) t own lowered s' → own <:+: events →
      ∃ v rest, lowered = ⟨session.program.ir param, v.operand⟩ :: rest ∧
        Occurs session events (Gen.convertTo value param (session.program.ir param)) v ∧
        Occurs session events (l.arguments params exprs early.tail) rest := by
    intro value t own h hpart
    obtain ⟨_, t₁, _, -, h₁, rfl⟩ := (Gen.gives_ir session param).of_bind h
    obtain ⟨converting, v, t₂, later, hconvert, h₂, rfl⟩ := h₁.of_bind
    obtain ⟨rest, hlater, rfl⟩ := h₂.of_bind_pure
    have hpart := infix_append_right.trans hpart
    exact ⟨v, rest, rfl, ⟨t₁, converting, t₂, hconvert, infix_append_left.trans hpart⟩,
      t₂, later, s', hlater, infix_append_right.trans hpart⟩
  rw [arguments] at h
  dsimp only at h
  split at h
  next known hearly =>
    obtain ⟨v, rest, hlowered, hparts⟩ := hrest h infix_rfl
    refine ⟨known, v, rest, hlowered, ?_, ?_, hparts⟩
    · rw [hearly]
      rintro _ ⟨⟩
      rfl
    · rw [hearly]
      rintro ⟨⟩
  next hearly =>
    obtain ⟨first, value, t, before, hfirst, h₁, rfl⟩ := h.of_bind
    obtain ⟨v, rest, hlowered, hparts⟩ := hrest h₁ infix_append_right
    exact ⟨value, v, rest, hlowered,
      fun known hknown => (hearly known (Option.join_eq_some_iff.1 hknown)).elim,
      fun _ => ⟨s, first, t, hfirst, infix_append_left⟩, hparts⟩

/-- What is passed for a parameter that is known through a behavior: an argument that was lowered
before is passed as it is, and any other one is coerced. -/
theorem arguments_dyn {params : List Ty} {exprs : List Expr} {early : List (Option Value)}
    {lowered : List IR.Typed} (h : Runs (Step.perform session)
      ((ofDepth b result depth).arguments params exprs early) s events lowered s') {i : Nat}
    (hparam : params[i]? = some (.dyn behavior args)) (hexpr : exprs[i]? = some e) :
    ∃ value, lowered[i]? = some ⟨session.program.ir (.dyn behavior args), value.operand⟩ ∧
      (∀ known, early[i]?.join = some known → value = known) ∧
      (early[i]?.join = none → Coerces session b result e behavior args events value) := by
  induction params generalizing exprs early s events lowered i s' with
  | nil => cases hparam
  | cons param params ih =>
    cases exprs with
    | nil => cases hexpr
    | cons own exprs =>
      obtain ⟨value, v, rest, rfl, hknown, hfirst, ⟨_, _, _, hconvert, -⟩, _, _, _, hlater,
        hpart⟩ := runs_arguments_cons h
      cases i with
      | zero =>
        cases hparam
        cases hexpr
        rw [convertTo_dyn] at hconvert
        obtain ⟨-, rfl, -⟩ := runs_pure_iff.1 hconvert
        rw [List.head?_eq_getElem?] at hknown hfirst
        refine ⟨v, rfl, hknown, fun hnone => ?_⟩
        obtain ⟨_, _, _, hfirst, hpart⟩ := hfirst hnone
        exact (coerces_expr hfirst).1.mono hpart
      | succ i =>
        obtain ⟨value, hlowered, hknown, hcoerces⟩ := ih hlater hparam hexpr
        rw [List.getElem?_tail] at hknown hcoerces
        exact ⟨value, hlowered, hknown, fun hnone => (hcoerces hnone).mono hpart⟩

/-- A function that gives a struct, and a generic one with a parameter that is known through a
behavior. -/
def showing : Program where
  home := {
    structs := .ofList [{ name := "S" }]
    functions := .ofList [
      { name := "make", ret := .ofName "S" [] },
      { name := "g", generics := ["T"]
        params := [⟨"d", .dyn "Show" []⟩, ⟨"x", .ofName "T" []⟩] }] }

/-- A call of the first function. -/
def made : Expr := .call {} (.ident {} "make") []

/-- The struct is coerced when it is lowered against a parameter. -/
theorem arguments_dyn_made :
    ∃ events lowered s', Runs (Step.perform ⟨showing, {}⟩)
        ((ofDepth .empty (.prim .unit) 3).arguments [.dyn "Show" []] [made] []) (.initial {})
        events lowered s' ∧
      ∃ value, lowered[0]? = some ⟨.named "%dyn.Show", value.operand⟩ ∧
        Coerces ⟨showing, {}⟩ .empty (.prim .unit) made "Show" [] events value := by
  have hrun : (((ofDepth .empty (.prim .unit) 3).arguments [.dyn "Show" []] [made] []).run
      (Step.perform ⟨showing, {}⟩) (.initial {})).toOption.map (fun _ => ()) = some () := by
    decide +kernel
  obtain ⟨events, lowered, s', h, -⟩ := exists_runs_of_map_run hrun
  obtain ⟨value, hlowered, -, hcoerces⟩ := arguments_dyn (i := 0) h rfl rfl
  exact ⟨events, lowered, s', h, value, hlowered, hcoerces rfl⟩

/-- The struct is passed as it is when it was lowered in order to bind the parameter of a generic
function. -/
theorem passes_uncoerced :
    (((ofDepth .empty (.prim .unit) 3).callPath (.single "g") [made, .lit {} (.int 1)] {} none).run
        (Step.perform ⟨showing, {}⟩) (.initial {})).toOption.map
      (fun result => result.2.assembly.draft.lines.toList) =
      some [.instr (.call (some 0) (.named "%struct.S") (.global "@tml_make") []),
        .instr (.call none .void (.global "@tml_g__I32")
          [⟨.named "%dyn.Show", .temp 0⟩, ⟨.i32, .int 1⟩])] := by
  decide +kernel

end Lowering

end Monomorph
