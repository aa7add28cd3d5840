/-!
# Built-in scalar kinds

The seventeen built-in kinds of the source language, their spelling and their numeric shape.
Two further spellings, `Usize` and `Isize`, are read as the 64-bit kinds and never written.
-/

namespace Monomorph

/-- A built-in scalar, string or void-like kind. -/
inductive Primitive
  | i8 | i16 | i32 | i64 | i128
  | u8 | u16 | u32 | u64 | u128
  | f32 | f64
  | bool | char | str | unit | never
  deriving DecidableEq, Inhabited

namespace Primitive

/-- Every kind, in declaration order. -/
def all : List Primitive :=
  [i8, i16, i32, i64, i128, u8, u16, u32, u64, u128, f32, f64, bool, char, str, unit, never]

/-- The spelling of a kind, in source text and in symbols alike. -/
def name : Primitive → String
  | i8 => "I8"
  | i16 => "I16"
  | i32 => "I32"
  | i64 => "I64"
  | i128 => "I128"
  | u8 => "U8"
  | u16 => "U16"
  | u32 => "U32"
  | u64 => "U64"
  | u128 => "U128"
  | f32 => "F32"
  | f64 => "F64"
  | bool => "Bool"
  | char => "Char"
  | str => "Str"
  | unit => "Unit"
  | never => "Never"

/-- The kind with spelling `s`; the size aliases are read as 64-bit kinds. -/
def ofName? (s : String) : Option Primitive :=
  if s = "Usize" then some u64
  else if s = "Isize" then some i64
  else all.find? fun kind => kind.name = s

/-- Signed integer kinds. -/
def isSigned : Primitive → Bool
  | i8 | i16 | i32 | i64 | i128 => true
  | _ => false

/-- Unsigned integer kinds. -/
def isUnsigned : Primitive → Bool
  | u8 | u16 | u32 | u64 | u128 => true
  | _ => false

/-- Integer kinds of either sign. -/
def isInteger (kind : Primitive) : Bool :=
  kind.isSigned || kind.isUnsigned

/-- Floating-point kinds. -/
def isFloat : Primitive → Bool
  | f32 | f64 => true
  | _ => false

/-- Width in bits of a kind that has one: a truth value has one bit and a character 32. -/
def bits : Primitive → Option Nat
  | i8 | u8 => some 8
  | i16 | u16 => some 16
  | i32 | u32 | char | f32 => some 32
  | i64 | u64 | f64 => some 64
  | i128 | u128 => some 128
  | bool => some 1
  | str | unit | never => none

theorem mem_all (kind : Primitive) : kind ∈ all := by
  cases kind <;> decide

/-- A spelling is read back as its kind. -/
theorem ofName?_name (kind : Primitive) : ofName? kind.name = some kind := by
  cases kind <;> decide

end Primitive

end Monomorph
