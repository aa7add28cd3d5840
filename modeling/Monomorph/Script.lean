import Monomorph.Fault

/-!
# Scripts

A script asks for one step after another, and each may depend on the answers to those before it.
What a step does is left to whoever performs the script.
-/

namespace Monomorph

/-- A script over steps with the given answers. -/
inductive Script {Step : Type} (Answer : Step → Type) (α : Type)
  /-- The end with a result. -/
  | done (a : α)
  /-- The end without a result. -/
  | fail (fault : Fault)
  /-- A step, and how to go on with its answer. -/
  | ask (step : Step) (next : Answer step → Script Answer α)

namespace Script

variable {Step : Type} {Answer : Step → Type} {α β σ : Type}

/-- One script after another. -/
def bind : Script Answer α → (α → Script Answer β) → Script Answer β
  | done a, f => f a
  | fail fault, _ => fail fault
  | ask step next, f => ask step fun answer => (next answer).bind f

instance : Monad (Script Answer) where
  pure := done
  bind := bind

instance : LawfulMonad (Script Answer) :=
  .mk' _
    (fun x => by
      change x.bind done = x
      induction x with
      | done | fail => rfl
      | ask step next ih => exact congrArg (ask step) (funext ih))
    (fun _ _ => rfl)
    (fun x f g => by
      change (x.bind f).bind g = x.bind fun a => (f a).bind g
      induction x with
      | done | fail => rfl
      | ask step next ih => exact congrArg (ask step) (funext ih))

/-- The result of a script and the state after it, given what each step does. -/
def run (perform : (step : Step) → σ → Except Fault (Answer step × σ)) :
    Script Answer α → σ → Except Fault (α × σ)
  | done a, s => .ok (a, s)
  | fail fault, _ => .error fault
  | ask step next, s =>
    match perform step s with
    | .error fault => .error fault
    | .ok (answer, s) => (next answer).run perform s

end Script

end Monomorph
