import Monomorph.Diagnostic.Code
import Monomorph.Source.Span

/-!
# Diagnostics

A diagnostic is a coded message with labelled places and notes.
-/

namespace Monomorph

/-- How grave a diagnostic is. -/
inductive Severity
  | error
  | warning
  | note
  deriving DecidableEq, Inhabited

/-- The word for a severity. -/
def Severity.text : Severity → String
  | error => "error"
  | warning => "warning"
  | note => "note"

/-- A place with an explanation. -/
structure Label where
  span : Span
  message : String
  /-- Whether the place is the main one. -/
  isPrimary : Bool := true
  deriving DecidableEq, Inhabited

/-- A label on a line of its own, with an arrow to the main place. -/
def Label.text (label : Label) : String :=
  "\n  " ++ (if label.isPrimary then "-->" else ":::") ++ " " ++ label.span.text ++ ": " ++
    label.message

/-- A problem to be reported. -/
structure Diagnostic where
  /-- What it is about. -/
  code : Code
  /-- How grave it is. -/
  severity : Severity := .error
  message : String := ""
  labels : List Label := []
  /-- Further remarks. -/
  notes : List String := []
  deriving DecidableEq, Inhabited

namespace Diagnostic

/-- An error at one place. -/
def errorAt (code : Code) (span : Span) (message label : String) : Diagnostic :=
  { code, message, labels := [⟨span, label, true⟩] }

/-- Whether the diagnostic is an error. -/
def isError (d : Diagnostic) : Bool := d.severity = .error

/-- The place of the first primary label. -/
def primarySpan (d : Diagnostic) : Span :=
  match d.labels.find? Label.isPrimary with
  | some label => label.span
  | none => .dummy

/-- The diagnostic as it is shown. -/
def text (d : Diagnostic) : String :=
  d.severity.text ++ "[" ++ d.code.text ++ "]: " ++ d.message ++
    String.join (d.labels.map Label.text) ++
    String.join (d.notes.map fun note => "\n  = note: " ++ note)

/-- What two diagnostics share when one repeats the other. -/
def key (d : Diagnostic) : Code × Span × String :=
  (d.code, d.primarySpan, d.message)

end Diagnostic

end Monomorph
