import Monomorph.Lowering.Represent

/-!
# Elementary code

Short sequences of instructions from which all code is made: stack slots, loads, stores, member
addresses, calls, and the end of a block that control does not leave.
-/

namespace Monomorph

namespace Gen

/-- A new stack slot. -/
def alloca (ir : IR.Ty) : Gen IR.Operand := do
  let r ← fresh
  emit (.alloca r ir)
  return .temp r

/-- The value at an address. -/
def load (ir : IR.Ty) (addr : IR.Operand) : Gen IR.Operand := do
  let r ← fresh
  emit (.load r ir addr)
  return .temp r

/-- Store an operand at an address. -/
def store (ir : IR.Ty) (operand addr : IR.Operand) : Gen Unit :=
  emit (.store ⟨ir, operand⟩ addr)

/-- The address of a member of the aggregate at an address. -/
def member (agg : IR.Ty) (addr : IR.Operand) (index : Nat) : Gen IR.Operand := do
  let r ← fresh
  emit (.member r agg addr index)
  return .temp r

/-- A new stack slot that holds a value. -/
def spill (v : Value) : Gen Place := do
  let addr ← alloca v.ir
  store v.ir v.operand addr
  return ⟨addr, v.ty⟩

/-- A call and its result, which is absent when the type is void. -/
def call (ret : IR.Ty) (callee : IR.Operand) (args : List IR.Typed) : Gen (Option IR.Operand) := do
  if ret.isVoid then
    emit (.call none ret callee args)
    return none
  else
    let r ← fresh
    emit (.call (some r) ret callee args)
    return some (.temp r)

/-- The function that provides memory. -/
def allocator : String := "@malloc"

/-- Memory of a given size from the heap. -/
def allocate (size : UInt64) : Gen IR.Operand := do
  declare allocator .ptr [.i64]
  let r ← fresh
  emit (.call (some r) .ptr (.global allocator) [⟨.i64, .int size.toNat⟩])
  return .temp r

/-- Start a block for code that is never reached. -/
def deadBlock : Gen Unit := do
  block (.dead (← freshLabel))

/-- The function that ends the program with a message. -/
def panicSymbol : String := "@panic"

/-- End the program with a message. -/
def stopWith (message : IR.Operand) : Gen Unit := do
  declare panicSymbol .void [.ptr]
  emit (.call none .void (.global panicSymbol) [⟨.ptr, message⟩])
  emit .unreachable

end Gen

/-- What the code of one function depends on: the type arguments of its instance, its result type,
and how the expressions inside an expression are lowered. -/
structure Lowering where
  /-- The type arguments of the instance. -/
  bindings : Bindings
  /-- The result type. -/
  result : Ty
  /-- Lower an expression; the type, if given, is what the context expects. -/
  expr : Expr → Option Ty → Gen Value

namespace Lowering

/-- A type of the source under the type arguments of the instance. -/
def subst (l : Lowering) (t : Ty) : Ty := t.subst l.bindings

/-- Lower expressions for their effects. -/
def evaluate (l : Lowering) (es : List Expr) : Gen Unit :=
  es.forM fun e => discard (l.expr e none)

/-- The type of a struct literal without type arguments, if the struct or class has no
parameters. -/
def recordType? (p : Program) (path : Path) : Option Ty :=
  if path.args.isEmpty then
    let name := path.joined
    match ((p.struct? name).map StructDef.generics).or
        ((p.class? name).map ClassDef.generics) with
    | some [] => some (.ofName (path.last?.getD "") [])
    | _ => none
  else none

/-- The type of an expression that shows without lowering it. -/
def evidentType? (p : Program) (b : Bindings) (scope : Scope) : Expr → Option Ty
  | .lit note value =>
      (note.ty.map (Ty.subst b)).or <| some <|
        match value with
        | .int _ => .prim .i32
        | .float _ => .prim .f64
        | .bool _ => .prim .bool
        | .str _ => .prim .str
        | .unit => .prim .unit
  | .ident note name => (note.ty.map (Ty.subst b)).or ((scope.find? name).map Local.ty)
  | .functionRef note name =>
      (note.ty.map (Ty.subst b)).or ((p.function? name).map FunctionDef.fnType)
  | .record note path _ _ => (note.ty.map (Ty.subst b)).or (recordType? p path)
  | .block note (.mk _ (some tail)) =>
      (note.ty.map (Ty.subst b)).or (evidentType? p b scope tail)
  | .block note (.mk _ none) | .path note _ | .call note _ _ | .methodCall note _ _ _
  | .field note _ _ | .closure note _ _ => note.ty.map (Ty.subst b)

/-- The type of an expression that shows without lowering it. -/
def evidentType (l : Lowering) (e : Expr) : Gen (Option Ty) := do
  return evidentType? (← Gen.program) l.bindings (← Gen.perform .scope) e

end Lowering

end Monomorph
