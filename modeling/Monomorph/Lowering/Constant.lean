import Monomorph.Lowering.Steps

/-!
# Constants and numeric conversions

Literals, the constants that built-in kinds provide, and the conversions between built-in kinds.
None of them calls a function.
-/

namespace Monomorph

namespace Primitive

/-- A floating-point constant of a kind, from the bits of a double. -/
def floatConstant (kind : Primitive) (bits : UInt64) : IR.Operand :=
  .float (if kind = .f32 then Binary.narrow bits else bits)

/-- The least and the greatest value of a numeric kind. The greatest unsigned value is written as
minus one, which is all ones in every width. -/
def bounds? (kind : Primitive) : Option (IR.Operand × IR.Operand) :=
  match kind with
  | .bool => some (.bool false, .bool true)
  | .f32 => some (.float (Binary.signBit ||| Binary.maxSingle), .float Binary.maxSingle)
  | .f64 => some (.float (Binary.signBit ||| Binary.maxDouble), .float Binary.maxDouble)
  | .char => some (.int 0, .int 0x10FFFF)
  | _ =>
      if kind.isUnsigned then some (.int 0, .int (-1))
      else if kind.isSigned then
        kind.bits.map fun bits =>
          let half : Int := ((1 <<< (bits - 1) : Nat) : Int)
          (.int (-half), .int (half - 1))
      else none

/-- The one of a kind that has one. -/
def one? (kind : Primitive) : Option IR.Operand :=
  if kind.isFloat then some (kind.floatConstant Binary.one)
  else if kind = .bool then some (.bool true)
  else if kind.isInteger || kind = .char then some (.int 1)
  else none

/-- The conversion from one kind to another, or none where both have the same representation or
one of them is not numeric. -/
def castTo? (source target : Primitive) : Option IR.Cast := do
  let sourceBits ← source.bits
  let targetBits ← target.bits
  match source.isFloat, target.isFloat with
  | false, false =>
      if sourceBits < targetBits then some (if source.isSigned then .sext else .zext)
      else if targetBits < sourceBits then some .trunc
      else none
  | false, true => some (if source.isSigned then .sitofp else .uitofp)
  | true, false => some (if target.isSigned then .fptosi else .fptoui)
  | true, true =>
      if sourceBits < targetBits then some .fpext
      else if targetBits < sourceBits then some .fptrunc
      else none

end Primitive

namespace Gen

/-- A value of a built-in kind converted to another; any other value is left as it is. -/
def convert (v : Value) (target : Primitive) : Gen Value := do
  match v.ty.asPrimitive? with
  | none => return v
  | some source =>
    match source.castTo? target with
    | some op =>
        let r ← fresh
        emit (.cast r op v.typed target.ir)
        return { operand := .temp r, ir := target.ir, ty := .prim target }
    | none => return { operand := v.operand, ir := target.ir, ty := .prim target }

/-- A value brought to the representation of a type, where both are built-in kinds. -/
def convertTo (v : Value) (target : Ty) (targetIR : IR.Ty) : Gen Value := do
  if v.ir = targetIR then return v
  match v.ty.asPrimitive?, target.asPrimitive? with
  | some _, some kind => convert v kind
  | _, _ => return v

end Gen

namespace Lowering

/-- The value of a literal. Its own type, or else the expected one, chooses the kind of a number;
without either, integers are `I32` and floating-point numbers `F64`. -/
def literal (l : Lowering) (value : Literal) (note : Note) (expected : Option Ty) : Gen Value := do
  let target := ((note.ty.map l.subst).or expected).bind Ty.asPrimitive?
  match value with
  | .int n =>
      match target with
      | some kind =>
          if kind.isFloat then
            return {
              operand := kind.floatConstant (Binary.ofInt n), ir := kind.ir, ty := .prim kind }
          else if kind.isInteger then
            return { operand := .int n, ir := kind.ir, ty := .prim kind }
          else return { operand := .int n, ir := .i32, ty := .prim .i32 }
      | none => return { operand := .int n, ir := .i32, ty := .prim .i32 }
  | .float bits =>
      let kind := (target.filter Primitive.isFloat).getD .f64
      return { operand := kind.floatConstant bits, ir := kind.ir, ty := .prim kind }
  | .bool b => return { operand := .bool b, ir := .i1, ty := .prim .bool }
  | .str s => return { operand := ← Gen.stringGlobal s, ir := .ptr, ty := .prim .str }
  | .unit => return .unit

/-- The default value of a built-in kind. -/
def defaultOf (kind : Primitive) : Gen Value := do
  match kind with
  | .unit | .never => return .unit
  | .str => return { operand := ← Gen.stringGlobal "", ir := .ptr, ty := .prim .str }
  | _ => return .placeholder kind.ir (.prim kind)

/-- A call of a function that a built-in kind provides: `default`, `zero`, `one`, `min_value`,
`max_value` and `from`. Nothing for any other call. -/
def kindFunction (l : Lowering) (path : Path) (args : List Expr) : Gen (Option Value) := do
  match path.qualifier?.bind Primitive.ofName?, path.last? with
  | some kind, some name =>
      let constant := fun operand : IR.Operand =>
        ({ operand, ir := kind.ir, ty := .prim kind } : Value)
      match name, args with
      | "default", [] | "zero", [] => return some (← defaultOf kind)
      | "one", [] => return kind.one?.map constant
      | "min_value", [] => return kind.bounds?.map fun bounds => constant bounds.1
      | "max_value", [] => return kind.bounds?.map fun bounds => constant bounds.2
      | "from", [arg] => return some (← Gen.convert (← l.expr arg none) kind)
      | _, _ => return none
  | _, _ => return none

end Lowering

end Monomorph
