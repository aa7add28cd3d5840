import Monomorph.IR.Ty
import Monomorph.Number.Binary
import Monomorph.Text.Decimal

/-!
# Instructions

Instructions work on operands and, most of them, define one temporary. Functions are sequences of
instructions and labels.
-/

namespace Monomorph.IR

/-- What an instruction works on. -/
inductive Operand
  | temp (id : Nat)
  /-- A parameter of the function. -/
  | arg (name : String)
  /-- The receiver. -/
  | self
  /-- The environment of a closure. -/
  | env
  /-- A global, with its sigil. -/
  | global (name : String)
  | int (value : Int)
  /-- A floating-point constant by its bits. -/
  | float (bits : UInt64)
  /-- The floating-point zero of a placeholder. -/
  | floatZero
  | bool (value : Bool)
  | null
  /-- An aggregate of zeros. -/
  | zero
  /-- An aggregate without a value. -/
  | undef
  /-- A function value without an environment. -/
  | thin (symbol : String)
  deriving DecidableEq, Inhabited

/-- An operand as it is written. -/
def Operand.text : Operand → String
  | temp id => "%t" ++ toString id
  | arg name => "%arg." ++ name
  | self => "%self"
  | env => "%env"
  | global name => name
  | int value => Decimal.int value
  | float bits => Binary.text bits
  | floatZero => "0.0"
  | bool value => if value then "true" else "false"
  | null => "null"
  | zero => "zeroinitializer"
  | undef => "undef"
  | thin symbol => "\x7b ptr " ++ symbol ++ ", ptr null \x7d"

/-- The zero value of a type that has values. -/
def Ty.zero? : Ty → Option Operand
  | .void => none
  | .i1 => some (.bool false)
  | .i8 | .i16 | .i32 | .i64 | .i128 => some (.int 0)
  | .float | .double => some .floatZero
  | .ptr => some .null
  | .empty | .named _ | .anon _ | .array .. => some .zero

/-- An operand with its type. -/
structure Typed where
  ty : Ty
  operand : Operand
  deriving DecidableEq, Inhabited

/-- A typed operand as it is written. -/
def Typed.text (v : Typed) : String := v.ty.text ++ " " ++ v.operand.text

/-- The name of a block; numbers tell apart the blocks of different branchings. -/
inductive Label
  /-- The call of a function value without an environment. -/
  | thin (id : Nat)
  /-- The call of a function value with an environment. -/
  | fat (id : Nat)
  /-- Where the two calls meet. -/
  | merge (id : Nat)
  /-- Where an assertion that holds goes on. -/
  | assertOk (id : Nat)
  /-- Where an assertion that fails ends. -/
  | assertFail (id : Nat)
  /-- Code that is never reached. -/
  | dead (id : Nat)
  deriving DecidableEq, Inhabited

/-- A label as it is written. -/
def Label.text : Label → String
  | thin id => "fp_thin" ++ toString id
  | fat id => "fp_fat" ++ toString id
  | merge id => "fp_merge" ++ toString id
  | assertOk id => "assert_ok" ++ toString id
  | assertFail id => "assert_fail" ++ toString id
  | dead id => "dead" ++ toString id

/-- A numeric conversion. -/
inductive Cast
  | sext | zext | trunc | sitofp | uitofp | fptosi | fptoui | fpext | fptrunc
  deriving DecidableEq, Inhabited

/-- A conversion as it is written. -/
def Cast.text : Cast → String
  | sext => "sext"
  | zext => "zext"
  | trunc => "trunc"
  | sitofp => "sitofp"
  | uitofp => "uitofp"
  | fptosi => "fptosi"
  | fptoui => "fptoui"
  | fpext => "fpext"
  | fptrunc => "fptrunc"

/-- An atomic update. -/
inductive Update
  | add | sub | exchange | and | or
  deriving DecidableEq, Inhabited

/-- An atomic update as it is written. -/
def Update.text : Update → String
  | add => "add"
  | sub => "sub"
  | exchange => "xchg"
  | and => "and"
  | or => "or"

/-- An instruction. -/
inductive Instr
  /-- Reserve a stack slot. -/
  | alloca (result : Nat) (ty : Ty)
  | load (result : Nat) (ty : Ty) (addr : Operand)
  | store (value : Typed) (addr : Operand)
  /-- The address of a member of an aggregate. -/
  | member (result : Nat) (agg : Ty) (addr : Operand) (index : Nat)
  /-- The address of a slot of a dispatch table. -/
  | slot (result : Nat) (table : Operand) (index : Nat)
  /-- A call; the result is absent when the type is void. -/
  | call (result : Option Nat) (ty : Ty) (callee : Operand) (args : List Typed)
  /-- An aggregate with one member replaced. -/
  | insertValue (result : Nat) (whole part : Typed) (index : Nat)
  /-- A member of an aggregate. -/
  | extractValue (result : Nat) (whole : Typed) (index : Nat)
  /-- A numeric conversion. -/
  | cast (result : Nat) (op : Cast) (value : Typed) (target : Ty)
  /-- Equality of integers or pointers. -/
  | intEq (result : Nat) (left : Typed) (right : Operand)
  /-- Ordered equality of floating-point numbers. -/
  | floatEq (result : Nat) (left : Typed) (right : Operand)
  /-- The negation of a truth value. -/
  | negate (result : Nat) (value : Operand)
  /-- The value of the block that control came from. -/
  | phi (result : Nat) (ty : Ty) (first : Operand) (firstFrom : Label) (second : Operand)
      (secondFrom : Label)
  | atomicLoad (result : Nat) (ty : Ty) (addr : Operand) (align : UInt64)
  | atomicStore (value : Typed) (addr : Operand) (align : UInt64)
  /-- An atomic update, which gives the previous value. -/
  | atomicUpdate (result : Nat) (op : Update) (addr : Operand) (value : Typed) (align : UInt64)
  | fence
  /-- Go to a block. -/
  | jump (target : Label)
  /-- Go to one of two blocks. -/
  | branch (condition : Operand) (yes no : Label)
  | ret (value : Option Typed)
  /-- Control never comes here. -/
  | unreachable
  deriving DecidableEq, Inhabited

namespace Instr

/-- The temporary that an instruction defines. -/
def result? : Instr → Option Nat
  | alloca r _ | load r _ _ | member r _ _ _ | slot r _ _ | insertValue r _ _ _
  | extractValue r _ _ | cast r _ _ _ | intEq r _ _ | floatEq r _ _ | negate r _
  | phi r _ _ _ _ _ | atomicLoad r _ _ _ | atomicUpdate r _ _ _ _ => some r
  | call r _ _ _ => r
  | store .. | atomicStore .. | fence | jump _ | branch .. | ret _ | unreachable => none

/-- Whether an instruction ends its block. -/
def isTerminator : Instr → Bool
  | jump _ | branch .. | ret _ | unreachable => true
  | _ => false

/-- The assignment of a result. -/
def assignText (result : Nat) : String := (Operand.temp result).text ++ " = "

/-- What follows the address of an atomic access. -/
def orderText (align : UInt64) : String := " seq_cst, align " ++ toString align.toNat

/-- An instruction as it is written. -/
def text : Instr → String
  | alloca r ty => assignText r ++ "alloca " ++ ty.text
  | load r ty addr => assignText r ++ "load " ++ ty.text ++ ", ptr " ++ addr.text
  | store value addr => "store " ++ value.text ++ ", ptr " ++ addr.text
  | member r agg addr index =>
      assignText r ++ "getelementptr inbounds " ++ agg.text ++ ", ptr " ++ addr.text ++
        ", i32 0, i32 " ++ toString index
  | slot r table index =>
      assignText r ++ "getelementptr inbounds ptr, ptr " ++ table.text ++ ", i64 " ++
        toString index
  | call r ty callee args =>
      (match r with
        | some r => assignText r
        | none => "") ++
        "call " ++ ty.text ++ " " ++ callee.text ++ "(" ++
        String.intercalate ", " (args.map Typed.text) ++ ")"
  | insertValue r whole part index =>
      assignText r ++ "insertvalue " ++ whole.text ++ ", " ++ part.text ++ ", " ++ toString index
  | extractValue r whole index =>
      assignText r ++ "extractvalue " ++ whole.text ++ ", " ++ toString index
  | cast r op value target =>
      assignText r ++ op.text ++ " " ++ value.text ++ " to " ++ target.text
  | intEq r left right => assignText r ++ "icmp eq " ++ left.text ++ ", " ++ right.text
  | floatEq r left right => assignText r ++ "fcmp oeq " ++ left.text ++ ", " ++ right.text
  | negate r value => assignText r ++ "xor i1 " ++ value.text ++ ", true"
  | phi r ty first firstFrom second secondFrom =>
      assignText r ++ "phi " ++ ty.text ++ " [ " ++ first.text ++ ", %" ++ firstFrom.text ++
        " ], [ " ++ second.text ++ ", %" ++ secondFrom.text ++ " ]"
  | atomicLoad r ty addr align =>
      assignText r ++ "load atomic " ++ ty.text ++ ", ptr " ++ addr.text ++ orderText align
  | atomicStore value addr align =>
      "store atomic " ++ value.text ++ ", ptr " ++ addr.text ++ orderText align
  | atomicUpdate r op addr value align =>
      assignText r ++ "atomicrmw " ++ op.text ++ " ptr " ++ addr.text ++ ", " ++ value.text ++
        orderText align
  | fence => "fence seq_cst"
  | jump target => "br label %" ++ target.text
  | branch condition yes no =>
      "br i1 " ++ condition.text ++ ", label %" ++ yes.text ++ ", label %" ++ no.text
  | ret none => "ret void"
  | ret (some value) => "ret " ++ value.text
  | unreachable => "unreachable"

end Instr

end Monomorph.IR
