import Monomorph.Proofs.Ty.Children
import Monomorph.Ty.Matching

/-!
# What occurs in types, and what a match pairs up

A parameter occurs in a type as a nominal leaf, that is, as a nominal type without arguments; a name
that is applied to arguments is no parameter. Matching walks through a pattern and a concrete type
side by side and meets the parameters of the pattern, each with the part of the concrete type that
stands in its place. The two need not line up: where they do not, the walk skips a part of the
pattern, and where only the pattern is a reference, it looks through the reference. What it meets
does not depend on what is bound already, and it binds a parameter where it meets it first.
-/

namespace Monomorph

open List

namespace Bindings

/-- Bind names one after the other, each unless it is bound already. -/
def insertAllNew (b : Bindings) (entries : List (String × Ty)) : Bindings :=
  entries.foldl (fun acc entry => acc.insertNew entry.1 entry.2) b

@[simp] theorem insertAllNew_nil (b : Bindings) : b.insertAllNew [] = b := rfl

theorem insertAllNew_cons (b : Bindings) (entry : String × Ty) (entries : List (String × Ty)) :
    b.insertAllNew (entry :: entries) = (b.insertNew entry.1 entry.2).insertAllNew entries :=
  rfl

theorem insertAllNew_append (b : Bindings) (entries more : List (String × Ty)) :
    b.insertAllNew (entries ++ more) = (b.insertAllNew entries).insertAllNew more :=
  foldl_append

/-- What was bound before comes first, then the first entry. -/
theorem find?_insertAllNew (b : Bindings) (entries : List (String × Ty)) (name : String) :
    (b.insertAllNew entries).find? name = (b.find? name).or (entries.lookup name) := by
  induction entries generalizing b with
  | nil => exact Option.or_none.symm
  | cons entry entries ih =>
    obtain ⟨own, t⟩ := entry
    rw [insertAllNew_cons, ih, find?_insertNew, lookup_cons]
    by_cases hname : name = own
    · simp [hname]
    · simp [hname, beq_false_of_ne hname]

/-- Where all names are bound already, nothing changes. -/
theorem insertAllNew_eq_self {b : Bindings} {entries : List (String × Ty)}
    (h : ∀ entry ∈ entries, (b.find? entry.1).isSome = true) : b.insertAllNew entries = b := by
  induction entries with
  | nil => rfl
  | cons entry entries ih =>
    obtain ⟨hentry, hentries⟩ := forall_mem_cons.1 h
    have hfirst : b.insertNew entry.1 entry.2 = b := if_pos hentry
    rw [insertAllNew_cons, hfirst, ih hentries]

end Bindings

namespace Ty

/-! ### What occurs in a type -/

/-- A type occurs in another one: as the whole, or in one of the types that this is made of. -/
inductive Occurs (t : Ty) : Ty → Prop
  | whole : Occurs t t
  | child {part whole} (hpart : part ∈ whole.children) (h : Occurs t part) : Occurs t whole

/-- What a type mentions are its nominal leaves. -/
theorem mentions_iff_occurs {names : List String} {t : Ty} : t.mentions names = true ↔
    ∃ qualifier name, name ∈ names ∧ Occurs (.named qualifier name []) t := by
  constructor
  · intro h
    induction t using induction_leaves with
    | leaf qualifier name =>
      have hname : (names.contains name || false) = true := h
      rw [Bool.or_false, contains_iff_mem] at hname
      exact ⟨qualifier, name, hname, .whole⟩
    | step t hleaf ih =>
      rw [mentions_eq, hleaf, Option.any_none, Bool.false_or] at h
      obtain ⟨part, hpart, h⟩ := any_eq_true.1 h
      obtain ⟨qualifier, name, hname, hoccurs⟩ := ih part hpart h
      exact ⟨qualifier, name, hname, .child hpart hoccurs⟩
  · rintro ⟨qualifier, name, hname, hoccurs⟩
    induction hoccurs with
    | whole =>
      rw [mentions, isEmpty_nil, Bool.true_and, contains_iff_mem.2 hname, Bool.true_or]
    | child hpart _ ih => exact mentions_of_mem_children hpart ih

/-! ### What a match meets -/

section Pairs

variable (params : List String)

mutual

/-- The parameters that a match meets, from left to right, each with the part of the concrete type
that stands in its place. -/
def pairs : Ty → Ty → List (String × Ty)
  | .named _ name args, concrete =>
      if args.isEmpty && params.contains name then [(name, concrete)]
      else
        match concrete with
        | .named _ other actual =>
            if name = other && args.length = actual.length then pairsList args actual else []
        | _ => []
  | .dyn behavior args, .dyn other actual =>
      if behavior = other && args.length = actual.length then pairsList args actual else []
  | .ref _ inner, .ref _ actual => pairs inner actual
  | .ref _ inner, concrete => pairs inner concrete
  | .ptr inner, .ptr actual | .slice inner, .slice actual | .array inner _, .array actual _ =>
      pairs inner actual
  | .func ps r, .func as a | .func ps r, .closure as a
  | .closure ps r, .func as a | .closure ps r, .closure as a =>
      (if ps.length = as.length then pairsList ps as else []) ++ pairs r a
  | .tuple ps, .tuple as => if ps.length = as.length then pairsList ps as else []
  | _, _ => []

/-- What a match of two lists of one length meets. -/
def pairsList : List Ty → List Ty → List (String × Ty)
  | p :: ps, c :: cs => pairs p c ++ pairsList ps cs
  | _, _ => []

end

end Pairs

variable {params : List String}

mutual

/-- A match binds what it meets, one after the other. -/
theorem matchInto_eq_insertAllNew : (pattern concrete : Ty) → (b : Bindings) →
    pattern.matchInto params concrete b = b.insertAllNew (pattern.pairs params concrete)
  | .named _ name args, concrete, b => by
      cases concrete with
      | named _ other actual =>
        rw [matchInto, pairs]
        split
        · rfl
        · split
          · exact matchList_eq_insertAllNew args actual b
          · rfl
      | _ =>
        simp only [matchInto, pairs]
        split <;> rfl
  | .dyn _ args, concrete, b | .tuple args, concrete, b => by
      cases concrete <;> simp only [matchInto, pairs, Bindings.insertAllNew_nil]
      split
      · exact matchList_eq_insertAllNew args _ b
      · rfl
  | .ref _ inner, concrete, b | .ptr inner, concrete, b | .slice inner, concrete, b
  | .array inner _, concrete, b => by
      cases concrete <;>
        simp only [matchInto, pairs, Bindings.insertAllNew_nil, matchInto_eq_insertAllNew inner]
  | .func ps r, concrete, b | .closure ps r, concrete, b => by
      cases concrete <;> simp only [matchInto, pairs, Bindings.insertAllNew_nil]
      all_goals
        rw [Bindings.insertAllNew_append, matchInto_eq_insertAllNew r]
        split
        · rw [matchList_eq_insertAllNew ps _ b]
        · rfl
  | .prim _, _, _ | .classRef _, _, _ => by simp only [matchInto, pairs, Bindings.insertAllNew_nil]

theorem matchList_eq_insertAllNew : (patterns concretes : List Ty) → (b : Bindings) →
    matchList params patterns concretes b = b.insertAllNew (pairsList params patterns concretes)
  | [], _, _ | _ :: _, [], _ => by simp only [matchList, pairsList, Bindings.insertAllNew_nil]
  | p :: ps, c :: cs, b => by
      rw [matchList, pairsList, Bindings.insertAllNew_append, matchInto_eq_insertAllNew p c b,
        matchList_eq_insertAllNew ps cs]

end

mutual

/-- A match pairs parameters that the pattern mentions with types that occur in the concrete one. -/
theorem of_mem_pairs {entry : String × Ty} : (pattern concrete : Ty) →
    entry ∈ pattern.pairs params concrete →
      entry.1 ∈ params ∧ pattern.mentions [entry.1] = true ∧ entry.2.Occurs concrete
  | .named qualifier name args, concrete, h => by
      have hparam : (args.isEmpty && params.contains name) = true → entry = (name, concrete) →
          entry.1 ∈ params ∧ (named qualifier name args).mentions [entry.1] = true ∧
            entry.2.Occurs concrete := by
        rintro hparam rfl
        obtain ⟨hargs, hname⟩ := Bool.and_eq_true_iff.1 hparam
        exact ⟨contains_iff_mem.1 hname, by simp [mentions, hargs], .whole⟩
      cases concrete with
      | named _ other actual =>
        rw [pairs] at h
        split at h
        · exact hparam ‹_› (mem_singleton.1 h)
        · split at h
          · obtain ⟨hname, hmentions, part, hpart, hoccurs⟩ := of_mem_pairsList args actual h
            exact ⟨hname, Bool.or_eq_true_iff.2 (.inr hmentions), .child hpart hoccurs⟩
          · cases h
      | _ =>
        simp only [pairs] at h
        split at h
        · exact hparam ‹_› (mem_singleton.1 h)
        · cases h
  | .dyn _ args, concrete, h | .tuple args, concrete, h => by
      -- With a type of another shape, nothing is paired.
      cases concrete <;> simp only [pairs] at h <;> try cases h
      split at h
      · obtain ⟨hname, hmentions, part, hpart, hoccurs⟩ := of_mem_pairsList args _ h
        exact ⟨hname, hmentions, .child hpart hoccurs⟩
      · cases h
  | .ref _ inner, concrete, h => by
      cases concrete with
      | ref _ actual =>
        rw [pairs] at h
        obtain ⟨hname, hmentions, hoccurs⟩ := of_mem_pairs inner actual h
        exact ⟨hname, hmentions, .child (mem_singleton_self actual) hoccurs⟩
      | _ =>
        simp only [pairs] at h
        exact of_mem_pairs inner _ h
  | .ptr inner, concrete, h | .slice inner, concrete, h | .array inner _, concrete, h => by
      cases concrete <;> simp only [pairs] at h <;> try cases h
      obtain ⟨hname, hmentions, hoccurs⟩ := of_mem_pairs inner _ h
      exact ⟨hname, hmentions, .child (mem_singleton_self _) hoccurs⟩
  | .func ps r, concrete, h | .closure ps r, concrete, h => by
      cases concrete <;> simp only [pairs] at h <;> try cases h
      all_goals
        obtain h | h := mem_append.1 h
        · split at h
          · obtain ⟨hname, hmentions, part, hpart, hoccurs⟩ := of_mem_pairsList ps _ h
            exact ⟨hname, Bool.or_eq_true_iff.2 (.inl hmentions),
              .child (mem_append_left _ hpart) hoccurs⟩
          · cases h
        · obtain ⟨hname, hmentions, hoccurs⟩ := of_mem_pairs r _ h
          exact ⟨hname, Bool.or_eq_true_iff.2 (.inr hmentions),
            .child (mem_append_right _ (mem_singleton_self _)) hoccurs⟩
  | .prim _, _, h | .classRef _, _, h => by
      simp only [pairs] at h
      cases h

theorem of_mem_pairsList {entry : String × Ty} : (patterns concretes : List Ty) →
    entry ∈ pairsList params patterns concretes →
      entry.1 ∈ params ∧ mentionsList [entry.1] patterns = true ∧
        ∃ part ∈ concretes, entry.2.Occurs part
  | [], _, h | _ :: _, [], h => by
      simp only [pairsList] at h
      cases h
  | p :: ps, c :: cs, h => by
      rw [pairsList] at h
      obtain h | h := mem_append.1 h
      · obtain ⟨hname, hmentions, hoccurs⟩ := of_mem_pairs p c h
        exact ⟨hname, Bool.or_eq_true_iff.2 (.inl hmentions), c, mem_cons_self, hoccurs⟩
      · obtain ⟨hname, hmentions, part, hpart, hoccurs⟩ := of_mem_pairsList ps cs h
        exact ⟨hname, Bool.or_eq_true_iff.2 (.inr hmentions), part,
          mem_cons_of_mem _ hpart, hoccurs⟩

end

end Ty

end Monomorph
