import Monomorph.Lowering.Invoke.Argument

/-!
# Intrinsics

Intrinsics are grouped in families. A bare name means the intrinsic of the first family that has
it, in the order of the table; a name with a qualifier is looked for only in the family that the
last segment of the qualifier names. Most intrinsics are calls of one function of the runtime, the
others are short sequences of instructions.
-/

namespace Monomorph

/-- A family of intrinsics. -/
inductive Family
  | core | io | mem | atomic | sync | time | math | string | assert | async
  deriving DecidableEq, Inhabited

namespace Family

/-- Every family, in the order in which bare names are looked for. -/
def all : List Family :=
  [core, io, mem, atomic, sync, time, math, string, assert, async]

/-- The name of a family. -/
def name : Family → String
  | core => "intrinsic"
  | io => "io"
  | mem => "mem"
  | atomic => "atomic"
  | sync => "sync"
  | time => "time"
  | math => "math"
  | string => "string"
  | assert => "assert"
  | async => "async"

/-- The family called `s`. -/
def ofName? (s : String) : Option Family := all.find? fun family => family.name = s

end Family

/-- A parameter or result of a function of the runtime. -/
inductive RuntimeTy
  | bool | i32 | i64 | f64 | str | ptr | void
  deriving DecidableEq, Inhabited

namespace RuntimeTy

/-- The type that instructions see. -/
def ir : RuntimeTy → IR.Ty
  | bool => .i1
  | i32 => .i32
  | i64 => .i64
  | f64 => .double
  | str | ptr => .ptr
  | void => .void

/-- The type of the source. -/
def ty : RuntimeTy → Ty
  | bool => .prim .bool
  | i32 => .prim .i32
  | i64 => .prim .i64
  | f64 => .prim .f64
  | str => .prim .str
  | ptr => .ptr (.prim .u8)
  | void => .prim .unit

end RuntimeTy

/-- An atomic access. -/
inductive Access
  | load
  | store
  | update (op : IR.Update)
  deriving DecidableEq, Inhabited

/-- What an intrinsic does. -/
inductive Action
  /-- Call a function of the runtime. -/
  | runtime (symbol : String) (params : List RuntimeTy) (ret : RuntimeTy)
  /-- State that control does not come here. -/
  | unreachable
  | sizeOf
  | alignOf
  | atomic (access : Access)
  | fence
  /-- Test a condition. -/
  | assert
  /-- Test two values for equality, or for inequality. -/
  | assertEq (negate : Bool)
  /-- End the program. -/
  | panic
  deriving DecidableEq, Inhabited

/-- An intrinsic. -/
structure Intrinsic where
  family : Family
  name : String
  /-- What it does. -/
  action : Action
  deriving DecidableEq, Inhabited

namespace Intrinsic

open Family in
/-- Every intrinsic, by family. -/
def all : List Intrinsic := [
  ⟨core, "unreachable", .unreachable⟩,
  ⟨core, "size_of", .sizeOf⟩,
  ⟨core, "align_of", .alignOf⟩,
  ⟨io, "print", .runtime "@print" [.str] .void⟩,
  ⟨io, "println", .runtime "@println" [.str] .void⟩,
  ⟨io, "eprintln", .runtime "@eprintln" [.str] .void⟩,
  ⟨io, "print_i64", .runtime "@print_i64" [.i64] .void⟩,
  ⟨io, "read_line", .runtime "@read_line" [] .str⟩,
  ⟨mem, "alloc", .runtime "@malloc" [.i64] .ptr⟩,
  ⟨mem, "dealloc", .runtime "@free" [.ptr] .void⟩,
  ⟨mem, "mem_copy", .runtime "@mem_copy" [.ptr, .ptr, .i64] .void⟩,
  ⟨mem, "mem_set", .runtime "@mem_set" [.ptr, .i32, .i64] .void⟩,
  ⟨mem, "mem_eq", .runtime "@mem_eq" [.ptr, .ptr, .i64] .bool⟩,
  ⟨atomic, "atomic_load", .atomic .load⟩,
  ⟨atomic, "atomic_store", .atomic .store⟩,
  ⟨atomic, "atomic_add", .atomic (.update .add)⟩,
  ⟨atomic, "atomic_sub", .atomic (.update .sub)⟩,
  ⟨atomic, "atomic_exchange", .atomic (.update .exchange)⟩,
  ⟨atomic, "atomic_and", .atomic (.update .and)⟩,
  ⟨atomic, "atomic_or", .atomic (.update .or)⟩,
  ⟨atomic, "fence", .fence⟩,
  ⟨sync, "mutex_create", .runtime "@mutex_create" [] .ptr⟩,
  ⟨sync, "mutex_lock", .runtime "@mutex_lock" [.ptr] .void⟩,
  ⟨sync, "mutex_unlock", .runtime "@mutex_unlock" [.ptr] .void⟩,
  ⟨sync, "mutex_destroy", .runtime "@mutex_destroy" [.ptr] .void⟩,
  ⟨sync, "thread_yield", .runtime "@thread_yield" [] .void⟩,
  ⟨time, "time_ms", .runtime "@time_ms" [] .i64⟩,
  ⟨time, "time_ns", .runtime "@time_ns" [] .i64⟩,
  ⟨time, "sleep", .runtime "@sleep_ms" [.i64] .void⟩,
  ⟨math, "sqrt", .runtime "@llvm.sqrt.f64" [.f64] .f64⟩,
  ⟨math, "pow", .runtime "@llvm.pow.f64" [.f64, .f64] .f64⟩,
  ⟨math, "fabs", .runtime "@llvm.fabs.f64" [.f64] .f64⟩,
  ⟨math, "floor", .runtime "@llvm.floor.f64" [.f64] .f64⟩,
  ⟨math, "ceil", .runtime "@llvm.ceil.f64" [.f64] .f64⟩,
  ⟨math, "sin", .runtime "@llvm.sin.f64" [.f64] .f64⟩,
  ⟨math, "cos", .runtime "@llvm.cos.f64" [.f64] .f64⟩,
  ⟨string, "str_len", .runtime "@str_len" [.str] .i64⟩,
  ⟨string, "str_eq", .runtime "@str_eq" [.str, .str] .bool⟩,
  ⟨string, "str_concat", .runtime "@str_concat" [.str, .str] .str⟩,
  ⟨string, "str_hash", .runtime "@str_hash" [.str] .i64⟩,
  ⟨string, "i64_to_str", .runtime "@i64_to_str" [.i64] .str⟩,
  ⟨assert, "assert", .assert⟩,
  ⟨assert, "assert_eq", .assertEq false⟩,
  ⟨assert, "assert_ne", .assertEq true⟩,
  ⟨assert, "panic", .panic⟩,
  ⟨async, "sleep", .runtime "@async_sleep" [.i64] .void⟩,
  ⟨async, "yield_now", .runtime "@async_yield" [] .void⟩,
  ⟨async, "block_on", .runtime "@async_block_on" [.ptr] .ptr⟩]

/-- The first intrinsic of that name in a family, or in any family. -/
def find? (family : Option Family) (name : String) : Option Intrinsic :=
  all.find? fun i => (family.isNone || family = some i.family) && i.name = name

/-- The intrinsic that a path names. -/
def ofPath? (path : Path) : Option Intrinsic :=
  match path.segments.reverse with
  | [] => none
  | [name] => find? none name
  | name :: qualifier :: _ => (Family.ofName? qualifier).bind fun family => find? family name

end Intrinsic

namespace Gen

/-- A truth value that tells whether two values are equal. Strings are compared by the runtime,
aggregates by their bytes. -/
def equality (left right : Value) : Gen IR.Operand := do
  let r ← fresh
  let isString := left.ty.asPrimitive? = some .str
  let isFloat := (left.ty.asPrimitive?.map Primitive.isFloat).getD false
  if isString then
    declare "@str_eq" .i1 [.ptr, .ptr]
    emit (.call (some r) .i1 (.global "@str_eq") [⟨.ptr, left.operand⟩, ⟨.ptr, right.operand⟩])
  else if isFloat then emit (.floatEq r left.typed right.operand)
  else if !left.ir.isAggregate then emit (.intEq r left.typed right.operand)
  else
    let size ← sizeOf left.ty
    let a ← spill left
    let b ← spill right
    declare "@mem_eq" .i1 [.ptr, .ptr, .i64]
    emit (.call (some r) .i1 (.global "@mem_eq")
      [⟨.ptr, a.addr⟩, ⟨.ptr, b.addr⟩, ⟨.i64, .int size.toNat⟩])
  return .temp r

/-- Go on if a condition holds, and end the program with a message otherwise. -/
def assertThat (condition message : IR.Operand) : Gen Unit := do
  let id ← freshLabel
  emit (.branch condition (.assertOk id) (.assertFail id))
  block (.assertFail id)
  stopWith message
  block (.assertOk id)

end Gen

namespace Lowering

/-- Call a function of the runtime. The type of the expression is kept as the result type where it
has the representation of the result. -/
def callRuntime (l : Lowering) (name symbol : String) (params : List RuntimeTy) (ret : RuntimeTy)
    (args : List Expr) (note : Note) : Gen Value := do
  let retTy ←
    match note.ty.map l.subst with
    | some t =>
        if ret = .void then pure ret.ty
        else do pure (if (← Gen.irType t) = ret.ir then t else ret.ty)
    | none => pure ret.ty
  if !(← l.checkArity name params.length args note.span) then
    return .placeholder ret.ir retTy
  let lowered ← l.arguments (params.map RuntimeTy.ty) args []
  Gen.declare symbol ret.ir (params.map RuntimeTy.ir)
  return .ofCall (← Gen.call ret.ir (.global symbol) lowered) ret.ir retTy

/-- A number that the layout of the type argument gives. -/
def layoutNumber (l : Lowering) (path : Path) (name : String) (span : Span)
    (number : Extent → UInt64) : Gen Value := do
  match path.args with
  | [] =>
      Gen.error .arity span ("`" ++ name ++ "` needs a type argument")
        "write the type as `name[T]()`"
      return .placeholder .i64 (.prim .i64)
  | t :: _ =>
      let extent ← Gen.extentOf (l.subst t)
      return { operand := .int (number extent).toNat, ir := .i64, ty := .prim .i64 }

/-- The type of the element of an atomic access: the type argument, or the type that the value
shows, or `I32`. -/
def atomicElem (l : Lowering) (path : Path) (args : List Expr) : Gen Ty := do
  match path.args with
  | t :: _ => return l.subst t
  | [] =>
    match args[1]? with
    | some e => return (← l.evidentType e).getD (.prim .i32)
    | none => return .prim .i32

/-- The value operand of an atomic access. -/
def atomicValue (l : Lowering) (e : Expr) (elem : Ty) (ir : IR.Ty) : Gen IR.Typed := do
  let value ← Gen.convertTo (← l.expr e (some elem)) elem ir
  return ⟨ir, value.operand⟩

/-- An atomic access through the pointer that is its first argument. -/
def atomicAccess (l : Lowering) (path : Path) (args : List Expr) (span : Span)
    (access : Access) : Gen Value := do
  let count := if access = .load then 1 else 2
  if !(← l.checkArity (path.last?.getD "") count args span) then
    return .placeholder .i32 (.prim .i32)
  let elem ← l.atomicElem path args
  let ir ← Gen.irType elem
  let align := (← Gen.extentOf elem).align
  match access, args with
  | .load, pointer :: _ =>
      let addr := (← l.expr pointer none).operand
      let r ← Gen.fresh
      Gen.emit (.atomicLoad r ir addr align)
      return { operand := .temp r, ir, ty := elem }
  | .store, pointer :: e :: _ =>
      let addr := (← l.expr pointer none).operand
      let value ← l.atomicValue e elem ir
      Gen.emit (.atomicStore value addr align)
      return .unit
  | .update op, pointer :: e :: _ =>
      let addr := (← l.expr pointer none).operand
      let value ← l.atomicValue e elem ir
      let r ← Gen.fresh
      Gen.emit (.atomicUpdate r op addr value align)
      return { operand := .temp r, ir, ty := elem }
  | _, _ => return .unit

/-- The message of an assertion: an argument, or the default text. -/
def message (l : Lowering) (arg : Option Expr) (default : String) : Gen IR.Operand := do
  match arg with
  | some e => return (← l.expr e (some (.prim .str))).operand
  | none => Gen.stringGlobal default

/-- Test a condition. -/
def assertion (l : Lowering) (args : List Expr) (span : Span) : Gen Value := do
  match args with
  | [] => discard <| l.checkArity "assert" 1 args span
  | condition :: rest =>
      let value ← l.expr condition (some (.prim .bool))
      let text ← l.message rest.head? "assertion failed"
      Gen.assertThat value.operand text
  return .unit

/-- Test two values for equality, or for inequality. -/
def equalityAssertion (l : Lowering) (args : List Expr) (span : Span) (negate : Bool) :
    Gen Value := do
  match args with
  | first :: second :: rest =>
      let left ← l.expr first none
      let right ← Gen.convertTo (← l.expr second (some left.ty)) left.ty left.ir
      let equal ← Gen.equality left right
      let condition ←
        if negate then do
          let r ← Gen.fresh
          Gen.emit (.negate r equal)
          pure (IR.Operand.temp r)
        else pure equal
      let text ← l.message rest.head?
        (if negate then "assertion failed: values are equal"
          else "assertion failed: values differ")
      Gen.assertThat condition text
  | _ => discard <| l.checkArity (if negate then "assert_ne" else "assert_eq") 2 args span
  return .unit

/-- Do what an intrinsic does. -/
def perform (l : Lowering) (i : Intrinsic) (path : Path) (args : List Expr) (note : Note) :
    Gen Value := do
  match i.action with
  | .runtime symbol params ret => l.callRuntime i.name symbol params ret args note
  | .unreachable =>
      Gen.emit .unreachable
      Gen.deadBlock
      return .unit
  | .sizeOf => l.layoutNumber path i.name note.span Extent.size
  | .alignOf => l.layoutNumber path i.name note.span Extent.align
  | .atomic access => l.atomicAccess path args note.span access
  | .fence =>
      Gen.emit .fence
      return .unit
  | .assert => l.assertion args note.span
  | .assertEq negate => l.equalityAssertion args note.span negate
  | .panic =>
      let text ← l.message args.head? "explicit panic"
      Gen.stopWith text
      Gen.deadBlock
      return .unit

/-- A call of the intrinsic that a path names; nothing if it names none. -/
def intrinsic (l : Lowering) (path : Path) (args : List Expr) (note : Note) :
    Gen (Option Value) := do
  match Intrinsic.ofPath? path with
  | none => return none
  | some i => return some (← l.perform i path args note)

end Lowering

end Monomorph
