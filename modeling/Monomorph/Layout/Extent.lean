import Monomorph.Fault

/-!
# Sizes and alignments

Sizes and alignments are 64-bit words, and a result that does not fit is an overflow, never a
smaller number. A record places its fields in order, each at the next multiple of its alignment;
an overlay places all of them at the start. Both round their size up to their alignment.
-/

namespace Monomorph

namespace Word

/-- The sum, if it fits. -/
def add (a b : UInt64) : Except Overflow UInt64 :=
  if a.toNat + b.toNat < UInt64.size then .ok (a + b) else .error .add

/-- The product, if it fits. -/
def mul (a b : UInt64) : Except Overflow UInt64 :=
  if a.toNat * b.toNat < UInt64.size then .ok (a * b) else .error .multiply

/-- The quotient rounded up. -/
def ceilDiv (a b : UInt64) : UInt64 :=
  if a % b = 0 then a / b else a / b + 1

/-- The next multiple of an alignment; an alignment of zero or one asks for nothing. -/
def roundUp (value align : UInt64) : Except Overflow UInt64 :=
  if align ≤ 1 then .ok value else mul (ceilDiv value align) align

end Word

/-- A size and an alignment in bytes. -/
structure Extent where
  size : UInt64
  align : UInt64
  deriving DecidableEq, Inhabited

namespace Extent

/-- No bytes. -/
def zero : Extent := ⟨0, 1⟩

/-- A pointer. -/
def pointer : Extent := ⟨8, 8⟩

/-- Two pointers, or a pointer and a length. -/
def fatPointer : Extent := ⟨16, 8⟩

/-- The end and the alignment of a record after one more field. -/
def place (acc field : Extent) : Except Overflow Extent := do
  let start ← Word.roundUp acc.size field.align
  let stop ← Word.add start field.size
  return ⟨stop, max acc.align field.align⟩

/-- A size rounded up to its alignment. -/
def pad (e : Extent) : Except Overflow Extent := do
  return ⟨← Word.roundUp e.size e.align, e.align⟩

/-- Fields one after the other, in order. -/
def record (fields : List Extent) : Except Overflow Extent := do
  (← fields.foldlM place zero).pad

/-- Fields that all start at the same place. -/
def overlay (fields : List Extent) : Except Overflow Extent :=
  pad (fields.foldl (fun acc f => ⟨max acc.size f.size, max acc.align f.align⟩) zero)

/-- An array of elements, each rounded up to its alignment. -/
def array (elem : Extent) (length : UInt64) : Except Overflow Extent := do
  let stride ← Word.roundUp elem.size elem.align
  return ⟨← Word.mul stride length, elem.align⟩

end Extent

/-- The extent of a built-in kind. -/
def Primitive.extent : Primitive → Extent
  | .i8 | .u8 | .bool => ⟨1, 1⟩
  | .i16 | .u16 => ⟨2, 2⟩
  | .i32 | .u32 | .f32 | .char => ⟨4, 4⟩
  | .i64 | .u64 | .f64 => ⟨8, 8⟩
  | .i128 | .u128 => ⟨16, 16⟩
  | .str => .pointer
  | .unit | .never => .zero

end Monomorph
