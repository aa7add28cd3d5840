import Mathlib.Logic.Relation
import Monomorph.Proofs.Layout.Shape

/-!
# Types with a finite unfolding

A type unfolds if going from it to its parts, again and again, comes to an end and meets only
types whose layout is settled: no unions, no open arguments, and no class whose bases are unknown
or go round in a circle. Such a type does not lie inside itself.
-/

namespace Monomorph

/-! ### Open types -/

namespace Program

variable (p : Program)

/-- Qualifiers do not matter for whether a type is open. -/
theorem isOpen_unqualified (t : Ty) : p.isOpen t.unqualified = p.isOpen t := by
  induction t using Ty.induction_leaves with
  | leaf => rfl
  | step t hleaf ih =>
    rw [p.isOpen_of_leaf?_eq_none ((Ty.leaf?_unqualified t).trans hleaf), Ty.children_unqualified,
      p.isOpen_of_leaf?_eq_none hleaf, List.any_map, List.any_eq, List.any_eq]
    exact decide_eq_decide.2 (exists_congr fun part => and_congr_right fun hpart => by
      rw [Function.comp_apply, ih part hpart])

theorem isOpenList_unqualifiedList (ts : List Ty) :
    p.isOpenList (Ty.unqualifiedList ts) = p.isOpenList ts := by
  simp only [isOpenList_eq_any, Ty.unqualifiedList_eq_map, List.any_map, Function.comp_def,
    isOpen_unqualified]

end Program

namespace Layout

/-! ### Unfolding -/

/-- A nominal type whose layout is settled: its arguments are closed, it is no union, and if it is
a value class, its bases are known and end. -/
structure IsPlain (p : Program) (name : String) (args : List Ty) : Prop where
  closed : p.isOpenList args = false
  noUnion : ∀ d, p.struct? name = some d → d.isUnion = false
  /-- The bases are known and end. -/
  lineage : ∀ d, p.class? name = some d → d.isValue = true → ∃ ds, p.Lineage name ds

/-- The unfolding of a type ends within a number of steps and meets only plain nominal types, where
wrappers are not unfolded. -/
def UnfoldsIn (p : Program) : Nat → Ty → Prop
  | 0, _ => False
  | n + 1, t =>
      (∀ name args, t.declared? = some (name, args) → isWrapped name args = false →
        IsPlain p name args) ∧
      ∀ u ∈ (shape p t).parts, UnfoldsIn p n u

/-- The unfolding of a type ends and meets only plain nominal types. -/
def Unfolds (p : Program) (t : Ty) : Prop := ∃ n, UnfoldsIn p n t

section Decidable

variable (p : Program)

theorem isPlain_iff (name : String) (args : List Ty) :
    IsPlain p name args ↔ p.isOpenList args = false ∧ (∀ d ∈ p.struct? name, d.isUnion = false) ∧
      ∀ d ∈ p.class? name, d.isValue = true → ∃ ds, p.Lineage name ds :=
  ⟨fun h => ⟨h.1, h.2, h.3⟩, fun ⟨h₁, h₂, h₃⟩ => ⟨h₁, h₂, h₃⟩⟩

instance (name : String) (args : List Ty) : Decidable (IsPlain p name args) :=
  decidable_of_iff _ (isPlain_iff p name args).symm

theorem unfoldsIn_succ_iff (n : Nat) (t : Ty) : UnfoldsIn p (n + 1) t ↔
      (∀ key ∈ t.declared?, isWrapped key.1 key.2 = false → IsPlain p key.1 key.2) ∧
        ∀ u ∈ (shape p t).parts, UnfoldsIn p n u :=
  and_congr_left'
    ⟨fun h key hkey => h key.1 key.2 hkey, fun h name args hkey => h (name, args) hkey⟩

instance : (n : Nat) → (t : Ty) → Decidable (UnfoldsIn p n t)
  | 0, _ => .isFalse id
  | n + 1, t =>
      have (u : Ty) : Decidable (UnfoldsIn p n u) := instDecidableUnfoldsIn n u
      decidable_of_iff _ (unfoldsIn_succ_iff p n t).symm

end Decidable

variable {p : Program} {n m : Nat} {t t' u : Ty} {e e' : Extent}

theorem UnfoldsIn.mono (h : UnfoldsIn p n t) (hle : n ≤ m) : UnfoldsIn p m t := by
  induction n generalizing m t with
  | zero => exact h.elim
  | succ n ih =>
    obtain ⟨m, rfl⟩ := Nat.exists_eq_add_of_le' (Nat.lt_of_lt_of_le (Nat.succ_pos n) hle)
    exact ⟨h.1, fun u hu => ih (h.2 u hu) (Nat.le_of_succ_le_succ hle)⟩

section

variable (h : t.unqualified = t'.unqualified)

include h

theorem exists_mem_parts (hu : u ∈ (shape p t').parts) :
    ∃ v ∈ (shape p t).parts, v.unqualified = u.unqualified := by
  have hparts := congrArg Shape.parts (map_unqualified_shape (p := p) h)
  rw [Shape.parts_map, Shape.parts_map] at hparts
  have hmem := List.mem_map_of_mem (f := Ty.unqualified) hu
  rw [← hparts] at hmem
  exact List.mem_map.1 hmem

theorem declared?_of_unqualified_eq {name : String} {args' : List Ty}
    (ht' : t'.declared? = some (name, args')) :
    ∃ args, t.declared? = some (name, args) ∧
      Ty.unqualifiedList args = Ty.unqualifiedList args' := by
  have h := congrArg Ty.declared? h
  rw [Ty.declared?_unqualified, Ty.declared?_unqualified, ht'] at h
  obtain ⟨⟨_, args⟩, ht, heq⟩ := Option.map_eq_some_iff.1 h
  obtain ⟨rfl, hargs⟩ := Prod.mk.inj heq
  exact ⟨args, ht, hargs⟩

/-- Qualifiers do not matter for unfolding. -/
theorem UnfoldsIn.congr (ht : UnfoldsIn p n t) : UnfoldsIn p n t' := by
  induction n generalizing t t' with
  | zero => exact ht
  | succ n ih =>
    refine ⟨fun name args' hdeclared hwrapped => ?_, fun u hu => ?_⟩
    · obtain ⟨args, ht', hargs⟩ := declared?_of_unqualified_eq h hdeclared
      have hplain := ht.1 name args ht' ((isWrapped_congr hargs name).trans hwrapped)
      refine ⟨?_, hplain.noUnion, hplain.lineage⟩
      rw [← p.isOpenList_unqualifiedList, ← hargs, p.isOpenList_unqualifiedList]
      exact hplain.closed
    · obtain ⟨v, hv, heq⟩ := exists_mem_parts h hu
      exact ih heq (ht.2 v hv)

theorem Unfolds.congr (ht : Unfolds p t) : Unfolds p t' :=
  ht.imp fun _ => UnfoldsIn.congr h

end

theorem UnfoldsIn.of_mem_parts (ht : UnfoldsIn p n t) (hu : u ∈ (shape p t).parts) :
    UnfoldsIn p n u := by
  cases n with
  | zero => exact ht.elim
  | succ n => exact (ht.2 u hu).mono (Nat.le_succ n)

theorem Unfolds.of_mem_parts (ht : Unfolds p t) (hu : u ∈ (shape p t).parts) : Unfolds p u := by
  obtain ⟨n, ht⟩ := ht
  exact ⟨n, ht.of_mem_parts hu⟩

/-! ### Types inside others -/

/-- A type is one of the parts of another, with its qualifiers erased. -/
def Part (p : Program) (t u : Ty) : Prop := ∃ part ∈ (shape p u).parts, part.unqualified = t

theorem part_of_mem (h : u ∈ (shape p t).parts) : Part p u.unqualified t.unqualified :=
  exists_mem_parts (Ty.unqualified_unqualified t) h

/-- Going from a type that unfolds to what lies inside it comes to an end. -/
theorem UnfoldsIn.acc (ht : UnfoldsIn p n t) : Acc (Part p) t.unqualified := by
  induction n generalizing t with
  | zero => exact ht.elim
  | succ n ih =>
    refine ⟨_, ?_⟩
    rintro _ ⟨part, hpart, rfl⟩
    obtain ⟨u, hu, heq⟩ := exists_mem_parts (Ty.unqualified_unqualified t).symm hpart
    rw [← heq]
    exact ih (ht.2 u hu)

/-- A type does not lie inside itself if going to what lies inside it comes to an end. -/
theorem not_transGen_of_acc (h : Acc (Part p) t) : ¬ Relation.TransGen (Part p) t t := by
  induction acc_transGen_iff.2 h with
  | intro t _ ih => exact fun hloop => ih t hloop (h.inv_of_transGen hloop) hloop

end Layout

end Monomorph
