import Mathlib.Data.List.Nodup

/-!
# First occurrences

Of the elements of a list that share a key, only the first counts. Adding an element at the end of
the list adds it to the first occurrences exactly if its key is new.
-/

namespace Monomorph

open List

variable {α κ : Type} [DecidableEq κ] (key : α → κ)

/-- The elements of a list that are the first with their key, in order. -/
def firsts : List α → List α
  | [] => []
  | a :: rest => a :: (firsts rest).filter fun b => key b ≠ key a

/-- First occurrences are elements of the list. -/
theorem mem_of_mem_firsts {a : α} {l : List α} (h : a ∈ firsts key l) : a ∈ l := by
  induction l with
  | nil => exact h
  | cons b l ih =>
    rw [firsts] at h
    obtain rfl | h := mem_cons.1 h
    · exact mem_cons_self
    · exact mem_cons_of_mem _ (ih (mem_filter.1 h).1)

@[simp] theorem mem_map_firsts (k : κ) : (l : List α) → k ∈ (firsts key l).map key ↔ k ∈ l.map key
  | [] => Iff.rfl
  | a :: rest => by
      have ih := mem_map_firsts k rest
      simp only [mem_map] at ih
      by_cases hk : key a = k
      · simp [firsts, hk]
      · simp only [firsts, map_cons, mem_cons, mem_map, mem_filter, Ne.symm hk, false_or, ← ih]
        exact ⟨fun ⟨b, hb, hbk⟩ => ⟨b, hb.1, hbk⟩,
          fun ⟨b, hb, hbk⟩ => ⟨b, ⟨hb, by simp [hbk, Ne.symm hk]⟩, hbk⟩⟩

/-- No key occurs twice. -/
theorem nodup_map_firsts : (l : List α) → ((firsts key l).map key).Nodup
  | [] => nodup_nil
  | a :: rest => by
      rw [firsts, map_cons, nodup_cons]
      refine ⟨fun h => ?_, (nodup_map_firsts rest).sublist (filter_sublist.map key)⟩
      obtain ⟨b, hb, hba⟩ := mem_map.1 h
      exact absurd hba (by simpa using (mem_filter.1 hb).2)

/-- Among the first occurrences, a key shows the first element that has it. -/
theorem filter_firsts (k : κ) : (l : List α) →
    (firsts key l).filter (fun a => key a = k) = (l.find? fun a => key a = k).toList
  | [] => rfl
  | a :: rest => by
      have ih := filter_firsts k rest
      by_cases hk : key a = k
      · subst hk
        simp [firsts, filter_filter]
      · have hother : ∀ b, (decide (key b = k) && decide (key b ≠ key a)) = decide (key b = k) := by
          intro b
          by_cases hb : key b = k
          · simp [hb, Ne.symm hk]
          · simp [hb]
        simp only [firsts, filter_cons, find?_cons, hk, filter_filter, hother, ih,
          decide_false, Bool.false_eq_true, if_false]

/-- One more element at the end counts exactly if its key is new. -/
theorem firsts_concat (x : α) : (l : List α) → firsts key (l ++ [x]) =
    if key x ∈ l.map key then firsts key l else firsts key l ++ [x]
  | [] => rfl
  | a :: rest => by
      rw [cons_append, firsts, firsts_concat x rest, firsts, map_cons]
      by_cases hrest : key x ∈ rest.map key
      · rw [if_pos hrest, if_pos (mem_cons_of_mem _ hrest)]
      · rw [if_neg hrest, filter_append]
        by_cases ha : key x = key a
        · rw [if_pos (ha ▸ mem_cons_self)]
          simp [ha]
        · rw [if_neg (not_mem_cons_of_ne_of_not_mem ha hrest)]
          simp [ha]

/-- A record of a list: the keys that were seen, and the elements that were the first with their
key. -/
structure Recorded (seen : List κ) (held l : List α) : Prop where
  items : held = firsts key l
  known : ∀ k, k ∈ seen ↔ k ∈ l.map key

namespace Recorded

variable {key} {seen : List κ} {held l : List α} {x : α}

/-- The keys of the elements held are distinct. -/
theorem nodup (h : Recorded key seen held l) : (held.map key).Nodup :=
  h.items ▸ nodup_map_firsts key l

/-- An element whose key was seen adds nothing. -/
theorem old (h : Recorded key seen held l) (hx : key x ∈ seen) :
    Recorded key seen held (l ++ [x]) := by
  have hseen := (h.known (key x)).1 hx
  refine ⟨by rw [h.items, firsts_concat, if_pos hseen], fun k => ?_⟩
  rw [h.known, map_append, mem_append, map_singleton, mem_singleton]
  exact ⟨Or.inl, fun hk => hk.elim id fun hk => hk ▸ hseen⟩

/-- An element whose key was not seen is added at the end. -/
theorem new (h : Recorded key seen held l) (hx : key x ∉ seen) :
    Recorded key (key x :: seen) (held ++ [x]) (l ++ [x]) := by
  have hnew : key x ∉ l.map key := fun hmem => hx ((h.known _).2 hmem)
  refine ⟨by rw [h.items, firsts_concat, if_neg hnew], fun k => ?_⟩
  rw [mem_cons, h.known, map_append, mem_append, map_singleton, mem_singleton, or_comm]

end Recorded

end Monomorph
