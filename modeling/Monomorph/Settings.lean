import Monomorph.Text.Blank
import Monomorph.Text.Decimal

/-!
# Settings of a compilation
-/

namespace Monomorph

/-- What a compilation depends on besides the program. -/
structure Settings where
  /-- Rounds after which a worklist that is not empty counts as endless. -/
  maxRounds : Nat := 100
  /-- Whether a type parameter that only a default could bind is an error. -/
  strictGenerics : Bool := false
  /-- Whether functions record that they were entered. -/
  coverage : Bool := false
  /-- What the symbols of functions start with. -/
  symbolStart : String := "tml_"
  /-- The greatest number of errors kept; zero for no limit. -/
  errorLimit : Nat := 0
  /-- How deeply nested expressions, field defaults and members are followed. -/
  depth : Nat := 4096
  deriving DecidableEq, Inhabited

namespace Settings

/-- Whether the text of a variable switches something on. -/
def isTruthy (raw : String) : Bool :=
  ["1", "true", "yes", "on"].any fun word =>
    word.toList = (Blank.trim raw).map Char.toLower

/-- A positive number of rounds written in decimal, with blanks around it allowed. -/
def readRounds? (raw : String) : Option Nat :=
  (Decimal.readSigned64? (Blank.trim raw)).filter (0 < ·)

/-- The usual settings, changed by the environment variables that are set. A number of rounds
that cannot be read is ignored. -/
def ofVariables (lookup : String → Option String) : Settings where
  maxRounds := ((lookup "TML_MAX_INSTANTIATION_ROUNDS").bind readRounds?).getD 100
  strictGenerics := ((lookup "TML_STRICT_GENERICS").map isTruthy).getD false
  coverage := ((lookup "TML_COVERAGE").map isTruthy).getD false

end Settings

end Monomorph
