import Monomorph.Proofs.Symbol.Writable

/-!
# Placeholders are no instances

A placeholder ends in a word of its own. The last word of an instance is a name, a number or a
built-in kind, possibly behind marks, however deep its last argument is. None of these is the word
of placeholders.
-/

namespace Monomorph.Symbol

open List

/-- A name that is not taken for the word of placeholders, nor for a part of a separator. -/
structure IsResolved (name : String) : Prop where
  separable : Separable name.toList
  nonempty : name.toList ≠ []
  start : name.toList.head? ≠ some '_'
  notUnresolved : name ≠ unresolvedWord

instance : DecidablePred IsResolved := fun name =>
  decidable_of_iff (Separable name.toList ∧ name.toList ≠ [] ∧ name.toList.head? ≠ some '_' ∧
    name ≠ unresolvedWord) ⟨fun h => ⟨h.1, h.2.1, h.2.2.1, h.2.2.2⟩, fun h => ⟨h.1, h.2, h.3, h.4⟩⟩

theorem IsResolved.append {start word : String} {c : Char} {rest : Word} (h : IsResolved word)
    (hstart : start.toList = c :: rest) (hc : c ≠ '_' ∧ c ≠ 'U')
    (hchain : start.toList.IsChain Apart) : IsResolved (start ++ word) where
  separable := by
    rw [String.toList_append]
    exact h.separable.mark hchain h.nonempty h.start
  nonempty := by simp [hstart]
  start := by simp [hstart, hc.1]
  notUnresolved heq := by
    have hlist := congrArg String.toList heq
    rw [String.toList_append, hstart] at hlist
    exact hc.2 (List.cons.inj hlist).1

/-- A word that does not end a placeholder: the separator may take an underscore from it. -/
def IsInner (word : String) : Prop :=
  Separable word.toList ∧ word ≠ unresolvedWord ∧ word ≠ "_" ++ unresolvedWord

theorem wording_isResolved : Ty.Wording IsResolved IsResolved IsInner where
  first h := by
    refine ⟨h.separable, h.notUnresolved, ?_⟩
    rintro rfl
    exact h.start rfl
  count n := by
    have hdigits : 'U' ∉ (toString n).toList := by
      rw [toList_numeral]
      exact fun h => absurd (Nat.isDigit_of_mem_toDigits (by decide) (by decide) h) (by decide)
    refine ⟨separable_numeral n, fun h => hdigits ?_, fun h => hdigits ?_⟩ <;> rw [h] <;> decide
  prim kind := by cases kind <;> decide
  head := by decide
  name := id
  start h := forall_mem_cons.2 ⟨h.append rfl (by decide) (by decide),
    forall_mem_singleton.2 (h.append rfl (by decide) (by decide))⟩
  mark m _ h := by
    have hfirst : ∃ c rest, m.text.toList = c :: rest ∧ c ≠ '_' ∧ c ≠ 'U' := by
      cases m with
      | ptr | slice => exact ⟨_, _, rfl, by decide⟩
      | ref mutable => cases mutable <;> exact ⟨_, _, rfl, by decide⟩
      | array length => exact ⟨'a', _, by simp [Mark.text, arrayMark]; rfl, by decide⟩
    obtain ⟨c, rest, htext, hc⟩ := hfirst
    exact h.append htext hc (mark_text m).2

/-- The last of several words stands behind a separator. -/
theorem exists_suffix_joinWords (word next : String) (words : List String) : ∃ last ∈ next :: words,
      separator.toList ++ last.toList <:+ (joinWords (word :: next :: words)).toList := by
  rw [toList_joinWords_cons]
  induction words generalizing word next with
  | nil => exact ⟨next, mem_cons_self, suffix_append _ _⟩
  | cons other words ih =>
    obtain ⟨last, hlast, hsuffix⟩ := ih next other
    refine ⟨last, mem_cons_of_mem _ hlast, ?_⟩
    rw [toList_joinWords_cons]
    exact hsuffix.trans ((suffix_append _ _).trans (suffix_append _ _))

/-- A word behind a separator that ends a placeholder is no inner word. -/
theorem IsInner.not_suffix {word : String} (h : IsInner word) {text : Word}
    (hword : separator.toList ++ word.toList <:+ text) :
    ¬ separator.toList ++ unresolvedWord.toList <:+ text := by
  obtain ⟨hseparable, hne, hne'⟩ := h
  intro hplaceholder
  rcases suffix_or_suffix_of_suffix hword hplaceholder with hends | hends
  · rcases suffix_cons_iff.1 hends with heq | hends
    · exact hne (String.toList_inj.1 (List.cons.inj (List.cons.inj heq).2).2)
    · rcases suffix_cons_iff.1 hends with heq | hends
      · exact absurd (List.cons.inj (List.cons.inj heq).2).1 (by decide)
      · exact absurd (hends.subset mem_cons_self) (by decide)
  · rcases suffix_cons_iff.1 hends with heq | hends
    · exact hne (String.toList_inj.1 (List.cons.inj (List.cons.inj heq).2).2.symm)
    · rcases suffix_cons_iff.1 hends with heq | hends
      · exact hne' (String.toList_inj.1 (List.cons.inj heq).2.symm)
      · exact hseparable.noSeparator ((prefix_append _ _).isInfix.trans hends.isInfix)

/-- Placeholders never pass for instances: the symbol of an instance, with a base that can be cut
off and names that are not taken for the word of placeholders, does not end as placeholders do. -/
theorem isPlaceholder_ofInstance {base : String} {args : List Ty} (hbase : Separable base.toList)
    (hargs : ∀ name ∈ Ty.namesList args, IsResolved name) :
    isPlaceholder (ofInstance base args) = false ∧ isPlaceholder (placeholder base) = true ∧
      ∀ other, placeholder other ≠ ofInstance base args := by
  have hplaceholder : ∀ other, isPlaceholder (placeholder other) = true := fun other => by
    rw [isPlaceholder, isSuffixOf_iff_suffix, placeholder, String.append_assoc]
    exact ⟨other.toList, String.toList_append.symm⟩
  have hinstance : isPlaceholder (ofInstance base args) = false := by
    have hwords := wording_isResolved.wordsList args hargs
    rw [isPlaceholder, Bool.eq_false_iff, ne_eq, isSuffixOf_iff_suffix, String.toList_append,
      ofInstance]
    cases hlist : Ty.wordsList args with
    | nil => exact fun h => hbase.noSeparator ((prefix_append _ _).isInfix.trans h.isInfix)
    | cons word words =>
      obtain ⟨last, hlast, hsuffix⟩ := exists_suffix_joinWords base word words
      exact (hwords last (hlist ▸ hlast)).not_suffix hsuffix
  refine ⟨hinstance, hplaceholder base, fun other heq => ?_⟩
  rw [← heq, hplaceholder other] at hinstance
  cases hinstance

/-- An instance of an item with the name of placeholders, whose last argument ends in a class. -/
theorem isPlaceholder_ofInstance_marked :
    let args := [.tuple [], .ptr (.func [] (.array (.dyn "Show" [.classRef "Node"]) 3))]
    (∀ name ∈ Ty.namesList args, IsResolved name) ∧
      isPlaceholder (ofInstance "UNRESOLVED" args) = false :=
  ⟨by decide, (isPlaceholder_ofInstance (by decide) (by decide)).1⟩

end Monomorph.Symbol
