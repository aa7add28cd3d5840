/-!
# Source spans

Half-open byte ranges of a source text.
-/

namespace Monomorph

/-- A byte range; the end is exclusive. -/
structure Span where
  /-- The first byte. -/
  start : Nat
  /-- The byte after the last. -/
  stop : Nat
  deriving DecidableEq, Inhabited

namespace Span

/-- The span of generated code. -/
def dummy : Span := ⟨0, 0⟩

/-- The number of bytes; zero for a range that ends before it starts. -/
def length (s : Span) : Nat := s.stop - s.start

/-- Whether the range holds no byte. -/
def isEmpty (s : Span) : Bool := s.stop ≤ s.start

/-- Whether the range is the one of generated code. -/
def isDummy (s : Span) : Bool := s = dummy

/-- The least range that covers both. -/
def merge (a b : Span) : Span := ⟨min a.start b.start, max a.stop b.stop⟩

/-- A range as it is shown in messages. -/
def text (s : Span) : String := toString s.start ++ ".." ++ toString s.stop

end Span

end Monomorph
