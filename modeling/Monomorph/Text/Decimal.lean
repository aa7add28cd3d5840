/-!
# Decimal numerals

Counts and sizes are written in plain decimal. Reading is strict: ASCII digits only, at least one
of them, and a value that fits in 64 bits; there are no digit separators and no blanks.
-/

namespace Monomorph.Decimal

/-- The number of values of a 64-bit word. -/
def wordCount : Nat := UInt64.size

/-- The number that a list of decimal digits writes. -/
def value (digits : List Char) : Nat :=
  digits.foldl (fun acc c => 10 * acc + (c.toNat - '0'.toNat)) 0

/-- Read a numeral of one or more digits whose value is below `2 ^ 64`. -/
def read64? (cs : List Char) : Option Nat :=
  if !cs.isEmpty && cs.all Char.isDigit && value cs < wordCount then some (value cs) else none

/-- Read a 64-bit numeral that may start with a plus sign. -/
def readSigned64? : List Char → Option Nat
  | '+' :: cs => read64? cs
  | cs => read64? cs

/-- An integer in decimal, with a minus sign where it is negative. -/
def int (n : Int) : String :=
  if n < 0 then "-" ++ toString n.natAbs else toString n.natAbs

theorem lt_wordCount_of_read64? {cs : List Char} {n : Nat} (h : read64? cs = some n) :
    n < wordCount := by
  unfold read64? at h
  split at h
  next hc =>
    simp only [Bool.and_eq_true, decide_eq_true_eq] at hc
    cases h
    exact hc.2
  next => cases h

end Monomorph.Decimal
