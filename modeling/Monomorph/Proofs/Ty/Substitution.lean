import Monomorph.Proofs.Symbol.Writable
import Monomorph.Proofs.Ty.Qualifiers
import Monomorph.Ty.Bindings

/-!
# Substitution in types that symbols can write

Replacing parameters of a type commutes with erasing qualifiers, and a type that symbols can write
stays so when its parameters are replaced by such types.
-/

namespace Monomorph

open List

namespace Bindings

/-- The bound types with their qualifiers erased. -/
def unqualified (b : Bindings) : Bindings :=
  ⟨b.entries.map fun entry => (entry.1, entry.2.unqualified)⟩

/-- What is bound once the bound types are all mapped. -/
theorem find?_mapped (b : Bindings) (f : Ty → Ty) (name : String) :
    (Bindings.mk (b.entries.map fun entry => (entry.1, f entry.2))).find? name =
      (b.find? name).map f := by
  obtain ⟨entries⟩ := b
  simp only [find?]
  induction entries with
  | nil => rfl
  | cons entry entries ih =>
    obtain ⟨key, t⟩ := entry
    simp only [map_cons, lookup_cons, ih]
    cases name == key <;> rfl

theorem find?_unqualified (b : Bindings) (name : String) :
    b.unqualified.find? name = (b.find? name).map Ty.unqualified :=
  find?_mapped b Ty.unqualified name

theorem unqualified_insert (b : Bindings) (name : String) (t : Ty) :
    (b.insert name t).unqualified = b.unqualified.insert name t.unqualified := by
  simp only [insert, unqualified, map_cons, filter_map]
  rfl

theorem unqualified_ofArgs (params : List String) (args : List Ty) :
    (ofArgs params args).unqualified = ofArgs params (Ty.unqualifiedList args) := by
  have hfold : ∀ (entries : List (String × Ty)) (b : Bindings),
      (entries.foldl (fun acc entry => acc.insert entry.1 entry.2) b).unqualified =
        (entries.map fun entry => (entry.1, entry.2.unqualified)).foldl
          (fun acc entry => acc.insert entry.1 entry.2) b.unqualified := by
    intro entries
    induction entries with
    | nil => exact fun _ => rfl
    | cons entry entries ih =>
      intro b
      rw [foldl_cons, ih, unqualified_insert]
      rfl
  rw [ofArgs, ofArgs, hfold, Ty.unqualifiedList_eq_map, zip_map_right]
  rfl

/-- A parameter is bound to one of the arguments. -/
theorem mem_of_find?_ofArgs {params : List String} {args : List Ty} {name : String} {t : Ty}
    (h : (ofArgs params args).find? name = some t) : t ∈ args := by
  have hfold : ∀ (entries : List (String × Ty)) (b : Bindings),
      (entries.foldl (fun acc entry => acc.insert entry.1 entry.2) b).find? name = some t →
        (∃ entry ∈ entries, entry.2 = t) ∨ b.find? name = some t := by
    intro entries
    induction entries with
    | nil => exact fun _ => .inr
    | cons entry entries ih =>
      intro b hfind
      rw [foldl_cons] at hfind
      obtain ⟨other, hother, rfl⟩ | hfind := ih _ hfind
      · exact .inl ⟨other, mem_cons_of_mem _ hother, rfl⟩
      · rw [find?_insert] at hfind
        split at hfind
        · exact .inl ⟨entry, mem_cons_self, Option.some.inj hfind⟩
        · exact .inr hfind
  obtain ⟨entry, hentry, rfl⟩ | hfind := hfold _ _ h
  · exact (of_mem_zip hentry).2
  · cases hfind

end Bindings

namespace Ty

/-- Where nothing is bound, nothing is replaced. -/
theorem subst_empty (t : Ty) : t.subst .empty = t := by
  induction t using induction_leaves with
  | leaf => exact subst_param ..
  | step t hleaf ih =>
    rw [subst_of_leaf?_eq_none hleaf, mapChildren_congr ih]
    cases t <;> simp [mapChildren]

/-- Without arguments, no parameter is replaced. -/
theorem subst_ofArgs_nil (params : List String) (t : Ty) : t.subst (.ofArgs params []) = t := by
  rw [Bindings.ofArgs, zip_nil_right, foldl_nil, subst_empty]

/-- Substitution commutes with erasing qualifiers. -/
theorem unqualified_subst (b : Bindings) (t : Ty) :
    (t.subst b).unqualified = t.unqualified.subst b.unqualified := by
  induction t using induction_leaves with
  | leaf qualifier name =>
    rw [unqualified, unqualifiedList, subst_param, subst_param, Bindings.find?_unqualified]
    cases b.find? name <;> rfl
  | step t hleaf ih =>
    rw [subst_of_leaf?_eq_none hleaf, subst_of_leaf?_eq_none ((leaf?_unqualified t).trans hleaf),
      unqualified_eq, unqualified_eq, mapChildren_bare, mapChildren_mapChildren,
      mapChildren_mapChildren, mapChildren_congr ih]

theorem unqualifiedList_substList (b : Bindings) (ts : List Ty) :
    unqualifiedList (substList b ts) = substList b.unqualified (unqualifiedList ts) := by
  simp only [unqualifiedList_eq_map, substList_eq_map, map_map, Function.comp_def,
    unqualified_subst]

mutual

/-- Substitution keeps types writable. -/
theorem Writable.subst {b : Bindings} (hb : ∀ name t, b.find? name = some t → t.Writable) :
    (t : Ty) → t.Writable → (t.subst b).Writable
  | .prim _, h | .classRef _, h => h
  | .named qualifier name [], h => by
      rw [subst_param]
      cases hfind : b.find? name with
      | none => exact h
      | some t => exact hb name t hfind
  | .named qualifier name (arg :: args), h => by
      rw [writable_named] at h
      have hargs := Writable.substList hb (arg :: args) h.2.2
      rw [Ty.subst, writable_named, length_substList]
      · exact ⟨h.1, h.2.1, hargs⟩
      · nofun
  | .dyn behavior args, h => by
      rw [writable_dyn] at h
      rw [Ty.subst, writable_dyn, length_substList]
      exact ⟨h.1, h.2.1, Writable.substList hb args h.2.2⟩
  | .tuple elems, h => by
      rw [writable_tuple] at h
      rw [Ty.subst, writable_tuple, length_substList]
      exact ⟨h.1, Writable.substList hb elems h.2⟩
  | .func params ret, h | .closure params ret, h => by
      simp only [writable_func, writable_closure] at h
      simp only [Ty.subst, writable_func, writable_closure, length_substList]
      exact ⟨h.1, Writable.substList hb params h.2.1, Writable.subst hb ret h.2.2⟩
  | .ref _ t, h | .ptr t, h | .slice t, h | .array t _, h =>
      have hinner := Writable.subst hb t ⟨h.clean, h.counted⟩
      ⟨hinner.clean, hinner.counted⟩

theorem Writable.substList {b : Bindings} (hb : ∀ name t, b.find? name = some t → t.Writable) :
    (ts : List Ty) → (∀ t ∈ ts, t.Writable) → ∀ t ∈ substList b ts, t.Writable
  | [], _ => forall_mem_nil _
  | t :: ts, h =>
      forall_mem_cons.2 ⟨Writable.subst hb t (forall_mem_cons.1 h).1,
        Writable.substList hb ts (forall_mem_cons.1 h).2⟩

end

end Ty

end Monomorph
