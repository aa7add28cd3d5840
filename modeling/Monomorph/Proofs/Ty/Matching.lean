import Monomorph.Proofs.Ty.Composition

/-!
# Matching reads parameters off types

Matching walks through a pattern and a concrete type side by side and binds the parameters that it
meets, each unless it is bound already. So a match only adds to what is bound, and what it adds is
the same whatever is bound. If the concrete type is the pattern under a substitution, then the two
line up everywhere, and the match finds the substitution again.

## Main results

* `Ty.find?_matchInto`, `Ty.matchInto_extends`, `Ty.matchInto_subst`.
-/

namespace Monomorph

open List

namespace Ty

open Bindings

/-! ### Any match -/

variable {params : List String} {pattern concrete : Ty} {name : String}

/-- What was bound before a match comes first, then what the match binds on its own. -/
theorem find?_matchInto (b : Bindings) (name : String) :
    (pattern.matchInto params concrete b).find? name =
      (b.find? name).or ((pattern.matchInto params concrete .empty).find? name) := by
  simp only [matchInto_eq_insertAllNew, find?_insertAllNew, find?_empty, Option.none_or]

theorem find?_matchList {patterns concretes : List Ty} (b : Bindings) (name : String) :
    (matchList params patterns concretes b).find? name =
      (b.find? name).or ((matchList params patterns concretes .empty).find? name) := by
  simp only [matchList_eq_insertAllNew, find?_insertAllNew, find?_empty, Option.none_or]

/-- What a match binds on its own is a parameter that the pattern mentions, to a type that occurs in
the concrete one. -/
theorem of_find?_matchInto_empty {t : Ty}
    (h : (pattern.matchInto params concrete .empty).find? name = some t) :
    name ∈ params ∧ pattern.mentions [name] = true ∧ t.Occurs concrete := by
  rw [matchInto_eq_insertAllNew, find?_insertAllNew, find?_empty, Option.none_or] at h
  obtain ⟨before, after, hpairs, -⟩ := lookup_eq_some_iff.1 h
  have hmem : (name, t) ∈ pattern.pairs params concrete := by
    rw [hpairs]
    exact mem_append_right _ mem_cons_self
  exact of_mem_pairs pattern concrete hmem

/-- Where all that a match would bind is bound already, it changes nothing. -/
theorem matchInto_eq_self {b : Bindings}
    (h : ∀ name, ((pattern.matchInto params concrete .empty).find? name).isSome = true →
      (b.find? name).isSome = true) : pattern.matchInto params concrete b = b := by
  rw [matchInto_eq_insertAllNew]
  refine insertAllNew_eq_self fun entry hentry => h entry.1 ?_
  rw [matchInto_eq_insertAllNew, find?_insertAllNew, find?_empty, Option.none_or]
  exact lookup_isSome_iff.2 ⟨entry, hentry, beq_self_eq_true _⟩

/-- A match only extends the bindings: what was bound stays, and what is added is a parameter that
the pattern mentions, bound to a type that occurs in the concrete one. To match again changes
nothing. -/
theorem matchInto_extends (params : List String) (pattern concrete : Ty) (b : Bindings) :
    (∀ name t, b.find? name = some t →
        (pattern.matchInto params concrete b).find? name = some t) ∧
      (∀ name t, b.find? name = none →
        (pattern.matchInto params concrete b).find? name = some t →
          name ∈ params ∧ pattern.mentions [name] = true ∧ t.Occurs concrete) ∧
      pattern.matchInto params concrete (pattern.matchInto params concrete b) =
        pattern.matchInto params concrete b := by
  refine ⟨fun name t hfind => ?_, fun name t hfree hfind => ?_, matchInto_eq_self fun name h => ?_⟩
  · rw [find?_matchInto, hfind, Option.some_or]
  · rw [find?_matchInto, hfree, Option.none_or] at hfind
    exact of_find?_matchInto_empty hfind
  · rw [find?_matchInto, Option.isSome_or, h, Bool.or_true]

/-! ### Matching a type under a substitution -/

/-- A name that is a parameter is bound to whatever the concrete type is. -/
theorem matchInto_param (h : name ∈ params) (qualifier : String) (concrete : Ty) (b : Bindings) :
    (named qualifier name []).matchInto params concrete b = b.insertNew name concrete := by
  have hparam := contains_iff_mem.2 h
  cases concrete <;> simp only [matchInto, hparam, isEmpty_nil, Bool.and_self, if_true]

/-- Any other name matches itself, its arguments those of the concrete type. -/
theorem matchInto_named {args : List Ty} (h : args = [] → name ∉ params)
    (qualifier qualifier' : String) {actual : List Ty} (hlength : args.length = actual.length)
    (b : Bindings) :
    (named qualifier name args).matchInto params (.named qualifier' name actual) b =
      matchList params args actual b := by
  have hparam : ¬ (args.isEmpty && params.contains name) = true := by
    intro hparam
    obtain ⟨hargs, hname⟩ := Bool.and_eq_true_iff.1 hparam
    exact h (List.isEmpty_iff.1 hargs) (contains_iff_mem.1 hname)
  rw [matchInto, if_neg hparam, if_pos (by simp [hlength])]

/-- Of two parts of a pattern that bind to the same image, either may come first. -/
theorem or_images (first second : Bool) (image : Option Ty) :
    (if first = true then image else none).or (if second = true then image else none) =
      if (first || second) = true then image else none := by
  cases first <;> cases second <;> simp

mutual

/-- Matched against what a substitution makes of it, a pattern binds the parameters that it mentions
to their images. -/
theorem find?_matchInto_subst {s : Bindings}
    (hs : ∀ name, (s.find? name).isSome = true ↔ name ∈ params) (name : String) : (pattern : Ty) →
    (pattern.matchInto params (pattern.subst s) .empty).find? name =
      if pattern.mentions [name] = true then s.find? name else none
  | .prim _ | .classRef _ => by simp [matchInto, mentions]
  | .named qualifier own [] => by
      have hmentions : (named qualifier own []).mentions [name] = decide (name = own) := by
        simp [mentions, mentionsList, eq_comm]
      rw [subst_param, hmentions]
      cases himage : s.find? own with
      | some image =>
        rw [matchInto_param ((hs own).1 (by rw [himage]; rfl)), find?_insertNew, find?_empty]
        split <;> simp_all
      | none =>
        have hown : own ∉ params := fun h => by
          have himage' := (hs own).2 h
          rw [himage] at himage'
          cases himage'
        rw [Option.getD_none, matchInto_named (fun _ => hown) qualifier qualifier rfl,
          matchList.eq_def]
        split <;> simp_all
  | .named qualifier own (arg :: args) => by
      have hargs : arg :: args = [] → own ∉ params := by rintro ⟨⟩
      have hsubst : (named qualifier own (arg :: args)).subst s =
          .named qualifier own (substList s (arg :: args)) := rfl
      rw [hsubst, matchInto_named hargs qualifier qualifier (length_substList s _).symm]
      exact find?_matchList_subst hs name (arg :: args)
  | .dyn _ args | .tuple args => by
      rw [subst, matchInto, if_pos (by simp)]
      exact find?_matchList_subst hs name args
  | .ref _ inner | .ptr inner | .slice inner | .array inner _ => by
      rw [subst, matchInto]
      exact find?_matchInto_subst hs name inner
  | .func ps r | .closure ps r => by
      rw [subst, matchInto, if_pos (length_substList s ps).symm, find?_matchInto,
        find?_matchList_subst hs name ps, find?_matchInto_subst hs name r, or_images]
      rfl

theorem find?_matchList_subst {s : Bindings}
    (hs : ∀ name, (s.find? name).isSome = true ↔ name ∈ params) (name : String) :
    (patterns : List Ty) →
    (matchList params patterns (substList s patterns) .empty).find? name =
      if mentionsList [name] patterns = true then s.find? name else none
  | [] => by
      rw [matchList.eq_def]
      rfl
  | p :: ps => by
      rw [substList, matchList, find?_matchList, find?_matchInto_subst hs name p,
        find?_matchList_subst hs name ps, or_images]
      rfl

end

/-- Matching inverts substitution: matched against what a substitution of its parameters makes of
it, a pattern binds exactly the parameters that occur in it as nominal leaves, each to its image,
and what was bound makes the same of the pattern. -/
theorem matchInto_subst {s : Bindings} (hs : ∀ name, (s.find? name).isSome = true ↔ name ∈ params)
    (pattern : Ty) :
    (∀ name t, (pattern.matchInto params (pattern.subst s) .empty).find? name = some t ↔
        name ∈ params ∧ (∃ qualifier, Occurs (.named qualifier name []) pattern) ∧
          s.find? name = some t) ∧
      pattern.subst (pattern.matchInto params (pattern.subst s) .empty) = pattern.subst s := by
  have hfind := fun name => find?_matchInto_subst hs name pattern
  refine ⟨fun name t => ?_, subst_congr fun name hname => ?_⟩
  · have hoccurs : pattern.mentions [name] = true ↔
        ∃ qualifier, Occurs (.named qualifier name []) pattern := by
      simp [mentions_iff_occurs]
    rw [hfind, ← hoccurs, ← hs]
    constructor
    · intro h
      obtain ⟨hmentions, himage⟩ := Option.ite_none_right_eq_some.1 h
      exact ⟨by rw [himage]; rfl, hmentions, himage⟩
    · rintro ⟨-, hmentions, himage⟩
      rw [if_pos hmentions, himage]
  · rw [hfind, if_pos hname]

/-- Of three parameters one occurs twice and is bound to a type with the name of another, one occurs
only as an argument, and one has arguments of its own, so that it is no parameter there. -/
theorem matchInto_subst_of_closure :
    ∃ (pattern : Ty) (s : Bindings),
      (∀ name, (s.find? name).isSome = true ↔ name ∈ ["T", "U", "V"]) ∧
      pattern = .closure [.named "" "T" [], .ref true (.named "" "Cell" [.named "" "U" []])]
        (.tuple [.array (.named "" "T" []) 3, .ptr (.slice (.dyn "Show" [.named "" "U" []])),
          .func [.prim .i32] (.named "" "V" [.classRef "Node"])]) ∧
      (pattern.matchInto ["T", "U", "V"] (pattern.subst s) .empty).find? "T" =
        some (.named "" "Cell" [.named "" "U" []]) ∧
      (∀ t, (pattern.matchInto ["T", "U", "V"] (pattern.subst s) .empty).find? "V" ≠ some t) ∧
      pattern.subst (pattern.matchInto ["T", "U", "V"] (pattern.subst s) .empty) =
        pattern.subst s := by
  have hs : ∀ name, ((((Bindings.empty.insert "T" (.named "" "Cell" [.named "" "U" []])).insert "U"
      (.prim .bool)).insert "V" (.prim .i32)).find? name).isSome = true ↔
        name ∈ ["T", "U", "V"] := by
    intro name
    simp only [find?_insert, find?_empty]
    grind
  obtain ⟨hfind, hsubst⟩ := matchInto_subst hs
    (.closure [.named "" "T" [], .ref true (.named "" "Cell" [.named "" "U" []])]
      (.tuple [.array (.named "" "T" []) 3, .ptr (.slice (.dyn "Show" [.named "" "U" []])),
        .func [.prim .i32] (.named "" "V" [.classRef "Node"])]))
  refine ⟨_, _, hs, rfl, (hfind _ _).2 ⟨by simp, ?_, rfl⟩, fun t h => ?_, hsubst⟩
  · exact ⟨"", .child List.mem_cons_self .whole⟩
  · obtain ⟨-, ⟨qualifier, hoccurs⟩, -⟩ := (hfind "V" t).1 h
    have hmentions := mentions_iff_occurs.2 ⟨qualifier, "V", List.mem_singleton_self _, hoccurs⟩
    exact absurd hmentions (by decide)

end Ty

end Monomorph
