/-!
# Types of the instruction stream
-/

namespace Monomorph.IR

/-- The type of a value that instructions work on. -/
inductive Ty
  | void
  | i1 | i8 | i16 | i32 | i64 | i128
  | float | double
  | ptr
  /-- The aggregate without members. -/
  | empty
  /-- A type with a definition; the name includes its sigil. -/
  | named (name : String)
  /-- An aggregate given by its members. -/
  | anon (fields : List Ty)
  | array (length : UInt64) (elem : Ty)
  deriving Inhabited

namespace Ty

mutual

/-- Whether two types are the same. -/
def same : Ty → Ty → Bool
  | .void, .void | .i1, .i1 | .i8, .i8 | .i16, .i16 | .i32, .i32 | .i64, .i64 | .i128, .i128
  | .float, .float | .double, .double | .ptr, .ptr | .empty, .empty => true
  | .named a, .named b => a = b
  | .anon as, .anon bs => sameList as bs
  | .array m a, .array n b => m = n && same a b
  | _, _ => false

/-- Whether two lists of types are the same. -/
def sameList : List Ty → List Ty → Bool
  | [], [] => true
  | a :: as, b :: bs => same a b && sameList as bs
  | _, _ => false

end

mutual

theorem same_iff : (a b : Ty) → (same a b = true ↔ a = b)
  | .void, b | .i1, b | .i8, b | .i16, b | .i32, b | .i64, b | .i128, b | .float, b
  | .double, b | .ptr, b | .empty, b => by cases b <;> simp [same]
  | .named _, b => by cases b <;> simp [same]
  | .anon as, b => by cases b <;> simp [same, sameList_iff as]
  | .array _ a, b => by cases b <;> simp [same, same_iff a]

theorem sameList_iff : (as bs : List Ty) → (sameList as bs = true ↔ as = bs)
  | [], bs => by cases bs <;> simp [sameList]
  | a :: as, bs => by cases bs <;> simp [sameList, same_iff a, sameList_iff as]

end

instance : DecidableEq Ty := fun a b => decidable_of_iff _ (same_iff a b)

/-- Two pointers: the shape of function values and of values behind a behavior. -/
def fatPtr : Ty := .anon [.ptr, .ptr]

/-- Whether the type has no values. -/
def isVoid (t : Ty) : Bool := t = .void

/-- Whether values have members. -/
def isAggregate : Ty → Bool
  | .empty | .named _ | .anon _ | .array .. => true
  | _ => false

/-- The width of an integer type. -/
def intBits : Ty → Option Nat
  | .i1 => some 1
  | .i8 => some 8
  | .i16 => some 16
  | .i32 => some 32
  | .i64 => some 64
  | .i128 => some 128
  | _ => none

/-- How constructors with a parameter of this type are told apart. -/
def suffix : Ty → String
  | .i1 => "Bool"
  | .i8 => "I8"
  | .i16 => "I16"
  | .i32 => "I32"
  | .i64 => "I64"
  | .i128 => "I128"
  | .float => "F32"
  | .double => "F64"
  | .ptr | .named _ => "ptr"
  | .void | .empty => "Unit"
  | .anon _ | .array .. => "agg"

mutual

/-- The type as it is written. -/
def text : Ty → String
  | .void => "void"
  | .i1 => "i1"
  | .i8 => "i8"
  | .i16 => "i16"
  | .i32 => "i32"
  | .i64 => "i64"
  | .i128 => "i128"
  | .float => "float"
  | .double => "double"
  | .ptr => "ptr"
  | .empty => "\x7b\x7d"
  | .named name => name
  | .anon fields => membersText fields
  | .array length elem => "[" ++ toString length.toNat ++ " x " ++ elem.text ++ "]"

/-- The texts of several types. -/
def texts : List Ty → List String
  | [] => []
  | t :: ts => t.text :: texts ts

/-- The members of an aggregate in braces. -/
def membersText : List Ty → String
  | [] => "\x7b\x7d"
  | t :: ts => "\x7b " ++ String.intercalate ", " (t.text :: texts ts) ++ " \x7d"

end

theorem texts_eq_map (ts : List Ty) : texts ts = ts.map text := by
  induction ts with
  | nil => rfl
  | cons t ts ih => simp [texts, ih]

end Ty

end Monomorph.IR
