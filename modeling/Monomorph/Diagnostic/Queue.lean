import Monomorph.Diagnostic.Basic

/-!
# Queues of diagnostics

A queue keeps diagnostics in the order in which they come. It drops errors beyond a limit and, if
asked to, repetitions of what it has kept. For that it counts the errors and remembers the keys of
what it keeps. Flushing hands out what was kept, sorted by place.
-/

namespace Monomorph

/-- Diagnostics kept so far, and what to keep. -/
structure DiagnosticQueue where
  /-- The greatest number of errors kept; zero for no limit. -/
  errorLimit : Nat := 0
  /-- Whether repetitions are dropped. -/
  deduplicate : Bool := true
  /-- What was kept, in order. -/
  kept : List Diagnostic := []
  /-- The number of errors kept. -/
  errorCount : Nat := 0
  /-- The keys that make a diagnostic a repetition. -/
  seen : List (Code × Span × String) := []
  deriving DecidableEq, Inhabited

namespace DiagnosticQueue

/-- Whether an error was kept. -/
def hasErrors (q : DiagnosticQueue) : Bool := 0 < q.errorCount

/-- Whether no further error is kept. -/
def limitReached (q : DiagnosticQueue) : Bool :=
  0 < q.errorLimit && q.errorLimit ≤ q.errorCount

/-- The queue with one more diagnostic. -/
def keep (q : DiagnosticQueue) (d : Diagnostic) : DiagnosticQueue :=
  { q with
    kept := q.kept ++ [d]
    errorCount := if d.isError then q.errorCount + 1 else q.errorCount
    seen := if q.deduplicate then d.key :: q.seen else q.seen }

/-- Record a diagnostic, and answer whether it is kept. An error beyond the limit is dropped before
its key is looked at. -/
def push (q : DiagnosticQueue) (d : Diagnostic) : Bool × DiagnosticQueue :=
  if d.isError && q.limitReached then (false, q)
  else if q.deduplicate && q.seen.contains d.key then (false, q)
  else (true, q.keep d)

/-- Diagnostics sorted by the start of their main place; the order of arrival decides ties. -/
def sortByPlace (ds : List Diagnostic) : List Diagnostic :=
  ds.mergeSort fun a b => a.primarySpan.start ≤ b.primarySpan.start

/-- What was kept, sorted by place, and the emptied queue. -/
def flush (q : DiagnosticQueue) : List Diagnostic × DiagnosticQueue :=
  (sortByPlace q.kept, { q with kept := [], errorCount := 0, seen := [] })

end DiagnosticQueue

end Monomorph
