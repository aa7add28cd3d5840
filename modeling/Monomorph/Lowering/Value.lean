import Monomorph.IR.Instr
import Monomorph.Ty.Basic

/-!
# Values, places and local names

A lowered expression is a value: an operand with its two types. A place is an address that holds a
value. Every local name has a place, except the receiver of a reference class, which is the
instance pointer itself.

A value of function type also carries how it must be called, as far as that is known.
-/

namespace Monomorph

/-- How a function value must be called. -/
inductive CallConv
  /-- Without an environment. -/
  | thin
  /-- With the captured environment. -/
  | capturing
  /-- As the environment shows when the program runs. -/
  | unknown
  deriving DecidableEq, Inhabited

/-- What is known of a place after a value of convention `other` was stored in it. -/
def CallConv.join (conv other : CallConv) : CallConv :=
  if conv = other then conv else unknown

/-- A lowered expression. -/
structure Value where
  operand : IR.Operand
  /-- The type that instructions see. -/
  ir : IR.Ty
  /-- The type of the source. -/
  ty : Ty
  /-- How the value must be called, if it is a function. -/
  conv : CallConv := .unknown
  deriving DecidableEq, Inhabited

namespace Value

/-- The unit value. -/
def unit : Value := { operand := .zero, ir := .empty, ty := .prim .unit }

/-- What stands for an expression that could not be lowered. -/
def placeholder (ir : IR.Ty) (ty : Ty) : Value :=
  match ir.zero? with
  | none => unit
  | some operand => { operand, ir, ty }

/-- The value of a call; a call without a result has the unit value. -/
def ofCall (result : Option IR.Operand) (ir : IR.Ty) (ty : Ty) : Value :=
  match result with
  | none => unit
  | some operand => { operand, ir, ty }

/-- The operand with the type that instructions see. -/
def typed (v : Value) : IR.Typed := ⟨v.ir, v.operand⟩

end Value

/-- An address that holds a value. -/
structure Place where
  addr : IR.Operand
  /-- The type of the value. -/
  ty : Ty
  deriving DecidableEq, Inhabited

/-- Where the value of a local name is. -/
inductive Storage
  /-- At an address. -/
  | slot (addr : IR.Operand)
  /-- In an operand that never changes. -/
  | direct (operand : IR.Operand)
  deriving DecidableEq, Inhabited

/-- A local name. -/
structure Local where
  /-- Where the value is. -/
  storage : Storage
  /-- The type of the source. -/
  ty : Ty
  /-- The type that instructions see. -/
  ir : IR.Ty
  /-- How the value must be called, if it is a function. -/
  conv : CallConv := .unknown
  deriving DecidableEq, Inhabited

/-- The local names of a function. -/
structure Scope where
  /-- The names; of two entries with one name the first counts. -/
  entries : List (String × Local) := []
  deriving DecidableEq, Inhabited

namespace Scope

/-- The local called `name`. -/
def find? (s : Scope) (name : String) : Option Local := s.entries.lookup name

/-- Give `name` a new meaning. -/
def bind (s : Scope) (name : String) (l : Local) : Scope := ⟨(name, l) :: s.entries⟩

/-- Record that a value of convention `conv` was stored in `name`. -/
def storeConv (s : Scope) (name : String) (conv : CallConv) : Scope :=
  match s.find? name with
  | none => s
  | some l => s.bind name { l with conv := l.conv.join conv }

theorem find?_bind (s : Scope) (name other : String) (l : Local) :
    (s.bind name l).find? other = if other = name then some l else s.find? other := by
  by_cases h : other = name
  · simp [bind, find?, h]
  · simp [bind, find?, h, List.lookup_cons, beq_false_of_ne h]

end Scope

end Monomorph
