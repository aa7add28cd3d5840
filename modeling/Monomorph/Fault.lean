import Monomorph.Instance.Worklist

/-!
# Faults

What ends a compilation or a layout query without a result. All other complaints are diagnostics
inside a result.
-/

namespace Monomorph

/-- The operation whose result does not fit in 64 bits. -/
inductive Overflow
  | add
  | multiply
  deriving DecidableEq, Inhabited

/-- The name of the operation. -/
def Overflow.text : Overflow → String
  | add => "add"
  | multiply => "multiply"

/-- A way to end without a result. -/
inductive Fault
  /-- A size does not fit in 64 bits. -/
  | overflow (operation : Overflow)
  /-- Members, expressions or defaults nest deeper than the settings allow. -/
  | tooDeep
  /-- The worklist did not become empty. -/
  | nonConvergent (failure : NonConvergence)
  deriving DecidableEq, Inhabited

/-- The fault in words. -/
def Fault.message : Fault → String
  | overflow operation => "attempt to " ++ operation.text ++ " with overflow"
  | tooDeep => "nesting is too deep"
  | nonConvergent failure => failure.message

end Monomorph
