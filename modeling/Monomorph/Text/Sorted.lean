/-!
# Sorted names

Names in increasing order, each once. Texts are compared by code points, which is also the order
of their UTF-8 bytes.
-/

namespace Monomorph.Sorted

/-- Drop each name that equals the one before it. -/
def dropRepeats : List String → List String
  | a :: b :: rest => if a = b then dropRepeats (b :: rest) else a :: dropRepeats (b :: rest)
  | names => names

/-- Names in increasing order, each once. -/
def distinct (names : List String) : List String :=
  dropRepeats (names.mergeSort fun a b => !decide (b < a))

end Monomorph.Sorted
