import Monomorph.Lowering.Build

/-!
# Representation of source types

Every source type has a type that instructions see. Asking for it requests the instances of the
nominal types on the way, so that their definitions are written in a later round.
-/

namespace Monomorph

/-- The representation of a built-in kind. -/
def Primitive.ir : Primitive → IR.Ty
  | .i8 | .u8 => .i8
  | .i16 | .u16 => .i16
  | .i32 | .u32 | .char => .i32
  | .i64 | .u64 => .i64
  | .i128 | .u128 => .i128
  | .f32 => .float
  | .f64 => .double
  | .bool => .i1
  | .str => .ptr
  | .unit | .never => .empty

namespace Gen

/-- The representation of a value known through a behavior, defined on first use. -/
def dynType (behavior : String) (args : List Ty) : Gen IR.Ty := do
  let name := "%dyn." ++ Symbol.ofInstance behavior args
  defineType name .fatPtr
  return .named name

/-- The representation of a boxed wrapper, defined on first use. The payload is represented too,
unless it is open. -/
def boxedType (name : String) (args : List Ty) (representArgs : Gen (List IR.Ty)) :
    Gen IR.Ty := do
  let irName := "%struct." ++ Symbol.ofInstance name args
  defineType irName (.anon [.ptr])
  if !(← program).isOpenList args then discard representArgs
  return .named irName

/-- The representation of a struct, enum or class instance, which is requested. A name that the
program does not know is represented by a pointer. -/
def definedType (name : String) (args : List Ty) : Gen IR.Ty := do
  let p ← program
  let isOpen := p.isOpenList args
  match p.struct? name with
  | some d =>
      let symbol ← request (.plain .struct d.name args) isOpen
      return .named ((if d.isUnion then "%union." else "%struct.") ++ symbol)
  | none =>
    match p.enum? name with
    | some d =>
        let symbol ← request (.plain .enum d.name args) isOpen
        return if isOpen then .i32 else .named ("%struct." ++ symbol)
    | none =>
      match p.class? name with
      | some d =>
          let symbol ← request (.plain .cls d.name args) isOpen
          return if d.isValue then .named ("%class." ++ symbol) else .ptr
      | none => return .ptr

/-- The representation of a nominal type; `representArgs` represents its arguments. -/
def nominalType (name : String) (args : List Ty) (representArgs : Gen (List IR.Ty)) :
    Gen IR.Ty :=
  match Wrapper.ofName? name, args with
  | some wrapper, [_] =>
      if wrapper.isBoxed then boxedType name args representArgs else pure .ptr
  | _, _ => definedType name args

mutual

/-- The representation of the values of a type. -/
def irType : Ty → Gen IR.Ty
  | .prim kind => pure kind.ir
  | .ref .. | .ptr _ => pure .ptr
  | .func .. | .closure .. => pure .fatPtr
  | .dyn behavior args => dynType behavior args
  | .slice _ => pure (.anon [.ptr, .i64])
  | .tuple elems => do
      if elems.isEmpty then return .empty
      return .anon (← irTypes elems)
  | .array elem length => do return .array length (← irType elem)
  | .classRef name => nominalType name [] (pure [])
  | .named _ name args =>
      match (if args.isEmpty then Primitive.ofName? name else none) with
      | some kind => pure kind.ir
      | none => nominalType name args (irTypes args)

/-- The representations of several types, from left to right. -/
def irTypes : List Ty → Gen (List IR.Ty)
  | [] => pure []
  | t :: ts => do
      let ir ← irType t
      let irs ← irTypes ts
      return ir :: irs

end

/-- The representation of a result. -/
def returnType (t : Ty) : Gen IR.Ty :=
  if t.isVoidLike then pure .void else irType t

/-- The struct of a class instance, which is requested. -/
def classStruct (name : String) (args : List Ty) : Gen IR.Ty := do
  discard <| irType (.ofName name args)
  return .named ("%class." ++ Symbol.ofInstance name args)

/-- The representation of a class instance: the struct itself for a value class, else a
pointer. -/
def instanceType (d : ClassDef) (args : List Ty) : Gen IR.Ty := do
  let struct ← classStruct d.name args
  return if d.isValue then struct else .ptr

/-- The block behind a reference-counted wrapper: two counters and the payload. -/
def countedBlock (payload : Ty) : Gen IR.Ty := do
  let name := "%struct." ++ Wrapper.blockName ++ Symbol.separator ++ payload.symbol
  let payloadType ← irType payload
  defineType name (.anon [.i64, .i64, payloadType])
  return .named name

end Gen

end Monomorph
