import Monomorph.Lowering.Block
import Monomorph.Lowering.Construct.Record
import Monomorph.Lowering.Invoke.Call
import Monomorph.Lowering.Invoke.Method

/-!
# Expressions

One step of lowering takes an expression apart and leaves the expressions inside it to the
lowering at hand. Nesting the step gives lowerings for expressions of greater and greater depth.
-/

namespace Monomorph

/-- The behavior through which values of a type are known. -/
def Ty.behavior? : Ty → Option (String × List Ty)
  | .dyn behavior args => some (behavior, args)
  | _ => none

namespace Lowering

/-- An expression, before it is fitted to what the context expects. -/
def shape (l : Lowering) (e : Expr) (expected : Option Ty) : Gen Value :=
  match e with
  | .lit note value => l.literal value note expected
  | .ident note name => l.name name note.span expected
  | .path note path => l.pathValue path note.span expected
  | .call note callee args => l.call note callee args expected
  | .methodCall note receiver method args => l.methodCall note receiver method args
  | .field note object field => l.fieldValue note object field
  | .record note path inits base => l.record path inits base note.span expected
  | .functionRef note name => l.functionRef name note.span expected
  | .closure note body captures => l.closure body captures note.span
  | .block _ body => l.block body expected

/-- Turn a value into one known through a behavior, where the context expects that. -/
def fit (value : Value) (expected : Option Ty) : Gen Value :=
  match expected.bind Ty.behavior?, value.ty.behavior? with
  | some (behavior, args), none => Gen.coerceToDyn value behavior args
  | _, _ => pure value

/-- One expression, given how those inside it are lowered. -/
def step (l : Lowering) (e : Expr) (expected : Option Ty) : Gen Value := do
  fit (← l.shape e expected) expected

/-- The lowering of expressions up to a depth, for one instance. -/
def ofDepth (b : Bindings) (result : Ty) : Nat → Lowering
  | 0 => ⟨b, result, fun _ _ => .fail .tooDeep⟩
  | depth + 1 => ⟨b, result, fun e expected => (ofDepth b result depth).step e expected⟩

end Lowering

end Monomorph
