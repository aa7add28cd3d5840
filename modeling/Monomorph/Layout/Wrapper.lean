import Monomorph.Ty.Basic

/-!
# Pointer-like wrappers

A closed set of types through which field access looks: owning boxes, reference-counted boxes and
raw pointers. References count as raw pointers.
-/

namespace Monomorph

/-- How the payload of a wrapper is reached. -/
inductive Wrapper
  /-- A struct of one pointer to the payload. -/
  | owned
  /-- A struct of one pointer to a block of two counters and the payload. -/
  | counted
  /-- The value is the address of the payload. -/
  | raw
  deriving DecidableEq, Inhabited

namespace Wrapper

/-- The wrapper types by name. -/
def ofName? : String → Option Wrapper
  | "Box" | "Heap" => some owned
  | "Arc" | "Shared" | "Rc" => some counted
  | "Ptr" | "RawPtr" => some raw
  | _ => none

/-- The wrapper and the payload type of a type. -/
def ofTy? : Ty → Option (Wrapper × Ty)
  | .named _ name [inner] => (ofName? name).map fun wrapper => (wrapper, inner)
  | .ptr inner | .ref _ inner => some (raw, inner)
  | _ => none

/-- Whether the value is a struct that holds the pointer. -/
def isBoxed : Wrapper → Bool
  | owned | counted => true
  | raw => false

/-- The position of the payload in the counted block. -/
def payloadIndex? : Wrapper → Option Nat
  | counted => some 2
  | owned | raw => none

/-- The name of the counted block. -/
def blockName : String := "ArcInner"

/-- The number of wrapper layers directly inside each other. -/
def depth : Ty → Nat
  | .named _ name [inner] => if (ofName? name).isSome then depth inner + 1 else 0
  | .ptr inner | .ref _ inner => depth inner + 1
  | _ => 0

end Wrapper

end Monomorph
