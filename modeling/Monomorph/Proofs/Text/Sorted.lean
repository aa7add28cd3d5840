import Monomorph.Text.Sorted

/-!
# Sorted names are distinct

Sorting and then dropping each name that equals the one before leaves every name once, in strictly
increasing order.
-/

namespace Monomorph.Sorted

open List

private theorem not_decide_lt_iff (a b : String) : (!decide (b < a)) = true ↔ a ≤ b := by
  rw [Bool.not_eq_true', decide_eq_false_iff_not, String.not_lt]

private theorem pairwise_mergeSort_names (names : List String) :
    (names.mergeSort fun a b => !decide (b < a)).Pairwise (· ≤ ·) := by
  have h := @pairwise_mergeSort String (fun a b => !decide (b < a)) ?_ ?_ names
  · exact h.imp fun hab => (not_decide_lt_iff _ _).1 hab
  · intro a b c hab hbc
    rw [not_decide_lt_iff] at hab hbc ⊢
    exact String.le_trans hab hbc
  · intro a b
    rw [Bool.or_eq_true, not_decide_lt_iff, not_decide_lt_iff]
    exact String.le_total a b

theorem mem_dropRepeats (name : String) : (names : List String) →
    (name ∈ dropRepeats names ↔ name ∈ names)
  | [] | [_] => Iff.rfl
  | a :: b :: rest => by
      have ih := mem_dropRepeats name (b :: rest)
      rw [dropRepeats]
      split
      next h => rw [ih, h]; simp
      next => rw [mem_cons, ih, mem_cons (l := b :: rest)]

theorem pairwise_dropRepeats : {names : List String} → names.Pairwise (· ≤ ·) →
    (dropRepeats names).Pairwise (· < ·)
  | [], _ => .nil
  | [_], _ => pairwise_singleton _ _
  | a :: b :: rest, h => by
      obtain ⟨ha, hrest⟩ := pairwise_cons.1 h
      have ih := pairwise_dropRepeats hrest
      rw [dropRepeats]
      split
      next => exact ih
      next hne =>
        refine pairwise_cons.2 ⟨fun name hname => ?_, ih⟩
        have hmem := (mem_dropRepeats name (b :: rest)).1 hname
        rw [← String.not_le]
        intro hle
        have hb : b ≤ name := by
          rcases mem_cons.1 hmem with rfl | hmem
          · exact String.le_refl _
          · exact (pairwise_cons.1 hrest).1 name hmem
        exact hne (String.le_antisymm (ha b mem_cons_self) (String.le_trans hb hle))

/-- Exactly the given names are kept. -/
theorem mem_distinct (name : String) (names : List String) :
    name ∈ distinct names ↔ name ∈ names := by
  rw [distinct, mem_dropRepeats, mem_mergeSort]

/-- The names strictly increase, so that each occurs once. -/
theorem pairwise_distinct (names : List String) : (distinct names).Pairwise (· < ·) :=
  pairwise_dropRepeats (pairwise_mergeSort_names names)

end Monomorph.Sorted
