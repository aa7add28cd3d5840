import Monomorph.Text.Hex

/-!
# Binary floating-point constants

Constants are carried as the bits of a double. An integer becomes the nearest double, and a
double becomes the nearest single, widened again; a tie goes to the even significand in both.
All steps are exact integer arithmetic on a significand and a power of two.
-/

namespace Monomorph.Binary

/-- A non-negative number `significand * 2 ^ exponent`. -/
structure Magnitude where
  /-- The integer significand. -/
  significand : Nat
  /-- The power of two. -/
  exponent : Int
  deriving DecidableEq, Inhabited

/-- The quotient of `n` by `2 ^ shift`, rounded to nearest; a tie goes to the even neighbour. -/
def roundShift (n shift : Nat) : Nat :=
  let quotient := n >>> shift
  let twice := 2 * (n - quotient <<< shift)
  let unit := 1 <<< shift
  if twice < unit then quotient
  else if unit < twice then quotient + 1
  else quotient + quotient % 2

/-- Round a magnitude to at most `precision` significant bits, none of them below the bit of
weight `2 ^ least`. -/
def round (precision : Nat) (least : Int) (m : Magnitude) : Magnitude :=
  let lowest := max (m.exponent + (Nat.log2 m.significand : Int) - (precision - 1 : Int)) least
  let shift := lowest - m.exponent
  if shift ≤ 0 then m else ⟨roundShift m.significand shift.toNat, lowest⟩

/-- The sign bit of a double. -/
def signBit : UInt64 := 0x8000000000000000

/-- The bits of positive infinity. -/
def infinity : UInt64 := 0x7FF0000000000000

/-- The bits of the positive normal double of a magnitude whose significand is below `2 ^ 53`, or a
power of two; zero and infinity outside the normal range. -/
def encode (m : Magnitude) : UInt64 :=
  if m.significand = 0 then 0
  else
    let top := Nat.log2 m.significand
    let aligned :=
      if top ≤ 52 then m.significand <<< (52 - top) else m.significand >>> (top - 52)
    let biased := m.exponent + (top : Int) + 1023
    if biased ≤ 0 then 0
    else if 2047 ≤ biased then infinity
    else UInt64.ofNat (biased.toNat <<< 52 + (aligned - 1 <<< 52))

/-- The double nearest to an integer. -/
def ofInt (n : Int) : UInt64 :=
  let bits := encode (round 53 (-1074) ⟨n.natAbs, 0⟩)
  if n < 0 then bits ||| signBit else bits

/-- The single nearest to a finite positive double, as a double. -/
def narrowFinite (bits : UInt64) : UInt64 :=
  let field := bits.toNat >>> 52
  let fraction := bits.toNat % (1 <<< 52)
  let m : Magnitude :=
    if field = 0 then ⟨fraction, -1074⟩ else ⟨fraction + 1 <<< 52, (field : Int) - 1075⟩
  let rounded := round 24 (-149) m
  if 128 ≤ rounded.exponent + (Nat.log2 rounded.significand : Int) && rounded.significand != 0
  then infinity else encode rounded

/-- The single nearest to a double, widened to a double again. A value that is not a number keeps
its sign and the upper bits of its payload, and is quiet. -/
def narrow (bits : UInt64) : UInt64 :=
  let sign := bits &&& signBit
  let rest := bits &&& 0x7FFFFFFFFFFFFFFF
  if infinity < rest then sign ||| ((rest &&& 0xFFFFFFFFE0000000) ||| 0x0008000000000000)
  else if rest = infinity then bits
  else sign ||| narrowFinite rest

/-- The bits as sixteen hexadecimal digits after `0x`. -/
def text (bits : UInt64) : String :=
  "0x" ++ String.ofList (Hex.pad 16 bits.toNat)

/-- The bits of one. -/
def one : UInt64 := 0x3FF0000000000000

/-- The bits of the largest finite double. -/
def maxDouble : UInt64 := 0x7FEFFFFFFFFFFFFF

/-- The bits of the largest finite single, as a double. -/
def maxSingle : UInt64 := 0x47EFFFFFE0000000

end Monomorph.Binary
