/-!
# Hexadecimal text

Upper-case hexadecimal numerals of a fixed width, and byte strings in which every byte outside
the plain printable range is written as a backslash and two hexadecimal digits.
-/

namespace Monomorph.Hex

/-- The upper-case digit of a value below sixteen. -/
def digit (n : Nat) : Char :=
  if n < 10 then Char.ofNat ('0'.toNat + n) else Char.ofNat ('A'.toNat + (n - 10))

/-- The last `width` hexadecimal digits of `n`, the highest first. -/
def pad : Nat → Nat → List Char
  | 0, _ => []
  | width + 1, n => pad width (n / 16) ++ [digit (n % 16)]

/-- Bytes that stand for themselves: printable ASCII and the blank, except the quote and the
backslash. -/
def isPlain (byte : UInt8) : Bool :=
  0x20 ≤ byte && byte ≤ 0x7E && byte != 0x22 && byte != 0x5C

/-- One byte of an escaped string. -/
def escapeByte (byte : UInt8) : List Char :=
  if isPlain byte then [Char.ofNat byte.toNat] else '\\' :: pad 2 byte.toNat

/-- A byte string with every byte that is not plain escaped. -/
def escape (bytes : List UInt8) : List Char :=
  bytes.flatMap escapeByte

end Monomorph.Hex
