/-!
# Codes of diagnostics

Every complaint has a code. Codes that start with `E5` are errors in the program, those that start
with `E9` are failures of the compiler, and those that start with `W` are warnings.
-/

namespace Monomorph

/-- What a diagnostic is about. -/
inductive Code
  /-- A call whose callee nothing matches. -/
  | unresolvedCall
  /-- A callee or an assignment target of the wrong shape. -/
  | badShape
  /-- A called field that holds no function. -/
  | fieldNotFunction
  | arity
  /-- An unknown field, or one that a literal leaves out. -/
  | field
  /-- An unknown variant, struct or item. -/
  | unknownItem
  /-- A type parameter that could not be inferred, where that is an error. -/
  | uninferred
  /-- A method that a behavior, or its implementation, does not have. -/
  | behaviorMethod
  /-- A union literal that does not set exactly one field. -/
  | unionLiteral
  | unknownName
  | unknownMethod
  /-- A type parameter that fell back to a default. -/
  | defaulted
  /-- An instance that was deferred because its arguments are open. -/
  | deferred
  /-- A worklist that did not become empty. -/
  | nonConvergent
  /-- An instance without a definition. -/
  | missingDefinition
  deriving DecidableEq, Inhabited

namespace Code

/-- Every code, in increasing order within its kind. -/
def all : List Code :=
  [unresolvedCall, badShape, fieldNotFunction, arity, field, unknownItem, uninferred,
    behaviorMethod, unionLiteral, unknownName, unknownMethod, defaulted, deferred, nonConvergent,
    missingDefinition]

/-- The code as it is shown. -/
def text : Code → String
  | unresolvedCall => "E5001"
  | badShape => "E5002"
  | fieldNotFunction => "E5003"
  | arity => "E5004"
  | field => "E5005"
  | unknownItem => "E5006"
  | uninferred => "E5007"
  | behaviorMethod => "E5009"
  | unionLiteral => "E5010"
  | unknownName => "E5011"
  | unknownMethod => "E5012"
  | defaulted => "W5001"
  | deferred => "W5002"
  | nonConvergent => "E9001"
  | missingDefinition => "E9002"

/-- The code with the given text, in upper or lower case. -/
def ofText? (s : String) : Option Code :=
  all.find? fun code => code.text.toList = s.toList.map Char.toUpper

/-- Failures of the compiler itself. -/
def isInternal : Code → Bool
  | nonConvergent | missingDefinition => true
  | _ => false

/-- Warnings. -/
def isWarning : Code → Bool
  | defaulted | deferred => true
  | _ => false

/-- Errors in the program. -/
def isProgramError (code : Code) : Bool :=
  !code.isInternal && !code.isWarning

/-- A text is read back as its code. -/
theorem ofText?_text (code : Code) : ofText? code.text = some code := by
  cases code <;> decide

end Code

end Monomorph
