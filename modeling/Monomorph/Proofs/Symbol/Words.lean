import Mathlib.Data.List.Chain
import Monomorph.Symbol.Decode

/-!
# Cutting a symbol into its words

A symbol is cut at every separator from the left, so its words are found again if no word contains
a separator or borders on one. A word borders on a separator only through an underscore at its
end: an underscore at the start of a word comes after the cut.
-/

namespace Monomorph.Symbol

open List

/-- A word that contains no separator and does not end in an underscore. -/
structure Separable (w : Word) : Prop where
  noSeparator : ¬ separator.toList <:+: w
  noTrail : w.getLast? ≠ some '_'

/-- Two characters that are not both underscores. -/
def Apart (a b : Char) : Prop := a = '_' → b ≠ '_'

instance : DecidableRel Apart := fun a b => inferInstanceAs (Decidable (a = '_' → b ≠ '_'))

/-! ### Separable words -/

private theorem isChain_apart_iff (w : Word) : w.IsChain Apart ↔ ¬ separator.toList <:+: w := by
  change _ ↔ ¬ ['_', '_'] <:+: w
  induction w with
  | nil => simp
  | cons a w ih =>
      cases w with
      | nil => simp [infix_cons_iff]
      | cons b w =>
          rw [isChain_cons_cons, ih]
          conv_rhs => rw [infix_cons_iff]
          simp [Apart, eq_comm]

/-- A word is separable if one more underscore at its end makes no separator. -/
theorem separable_iff_isChain (w : Word) : Separable w ↔ (w ++ ['_']).IsChain Apart := by
  rw [isChain_append, isChain_apart_iff]
  constructor
  · rintro ⟨hw, hl⟩
    refine ⟨hw, isChain_singleton _, fun x hx y _ hx' => ?_⟩
    exact absurd (hx' ▸ hx) hl
  · rintro ⟨hw, -, hl⟩
    exact ⟨hw, fun h => hl '_' h '_' rfl rfl rfl⟩

instance : DecidablePred Separable := fun w =>
  decidable_of_iff _ (separable_iff_isChain w).symm

/-- A text without underscores is separable. -/
theorem separable_of_notMem {w : Word} (h : '_' ∉ w) : Separable w where
  noSeparator hw := h (hw.subset (by decide))
  noTrail hl := h (mem_of_getLast? hl)

/-- A text whose last underscore is its end can stand in front of a separable word that starts
with another character. -/
theorem Separable.mark {m w : Word} (hm : m.IsChain Apart) (hw : Separable w)
    (hne : w ≠ []) (hs : w.head? ≠ some '_') : Separable (m ++ w) := by
  rw [separable_iff_isChain] at hw ⊢
  rw [append_assoc]
  refine hm.append hw fun x _ y hy _ hy' => hs ?_
  obtain ⟨c, w, rfl⟩ := exists_cons_of_ne_nil hne
  simpa [hy'] using hy

/-! ### Cutting -/

/-- A character that makes no separator with what follows joins the first word. -/
private theorem splitWords_cons {c : Char} {text w : Word} {ws : List Word}
    (hc : ∀ rest, c = '_' → text = '_' :: rest → False) (h : splitWords text = w :: ws) :
    splitWords (c :: text) = (c :: w) :: ws := by
  rw [splitWords, h]
  exact hc

private theorem splitWords_separable_append (rest : Word) :
    (w : Word) → (w ++ ['_']).IsChain Apart →
      splitWords (w ++ (separator.toList ++ rest)) = w :: splitWords rest
  | [], _ => rfl
  | c :: w, h => by
      have hw := splitWords_separable_append rest w (List.IsChain.tail h)
      refine splitWords_cons (fun text hc ht => ?_) hw
      cases w with
      | nil => exact List.IsChain.rel_head? h rfl hc rfl
      | cons d w => exact List.IsChain.rel_head? h rfl hc (List.cons.inj ht).1

/-- A separable word in front of a separator is cut off. -/
theorem splitWords_append {w : Word} (h : Separable w) (rest : Word) :
    splitWords (w ++ (separator.toList ++ rest)) = w :: splitWords rest :=
  splitWords_separable_append rest w ((separable_iff_isChain w).1 h)

/-- A word without a separator is not cut. -/
theorem splitWords_of_isChain : {w : Word} → w.IsChain Apart → splitWords w = [w]
  | [], _ => rfl
  | c :: w, h => by
      refine splitWords_cons (fun text hc ht => ?_) (splitWords_of_isChain (List.IsChain.tail h))
      subst ht
      exact List.IsChain.rel_head? h rfl hc rfl

/-! ### Words that a symbol is cut into -/

/-- Words that a symbol is cut into: none contains a separator, and only the last may end in an
underscore. -/
structure Cut (ws : List Word) : Prop where
  /-- No two underscores stand side by side. -/
  chain : ∀ w ∈ ws, w.IsChain Apart
  /-- A word in front of another does not blur the separator. -/
  separable : ws.Pairwise fun w _ => Separable w

theorem cut_nil : Cut [] := ⟨forall_mem_nil _, .nil⟩

theorem cut_cons {w : Word} {ws : List Word} :
    Cut (w :: ws) ↔ w.IsChain Apart ∧ (ws ≠ [] → Separable w) ∧ Cut ws := by
  constructor
  · rintro ⟨hchain, hsep⟩
    obtain ⟨hw, hws⟩ := forall_mem_cons.1 hchain
    obtain ⟨hfirst, hrest⟩ := pairwise_cons.1 hsep
    refine ⟨hw, fun hne => ?_, hws, hrest⟩
    obtain ⟨next, rest, rfl⟩ := exists_cons_of_ne_nil hne
    exact hfirst next mem_cons_self
  · rintro ⟨hw, hfirst, hws, hrest⟩
    exact ⟨forall_mem_cons.2 ⟨hw, hws⟩,
      pairwise_cons.2 ⟨fun _ hnext => hfirst (ne_nil_of_mem hnext), hrest⟩⟩

theorem Separable.isChain {w : Word} (h : Separable w) : w.IsChain Apart :=
  (isChain_apart_iff w).2 h.noSeparator

theorem cut_of_separable {ws : List Word} (h : ∀ w ∈ ws, Separable w) : Cut ws where
  chain w hw := (h w hw).isChain
  separable := pairwise_of_forall_sublist fun hpair => h _ (hpair.subset mem_cons_self)

/-- The words of a text are such words, also when one more character is put in front of it. -/
private theorem exists_splitWords (text : Word) :
    ∃ w ws, splitWords text = w :: ws ∧ Cut (w :: ws) ∧
      ∀ c, (∀ rest, c = '_' → text = '_' :: rest → False) → Cut ((c :: w) :: ws) := by
  fun_induction splitWords text with
  | case1 =>
    exact ⟨[], [], rfl, cut_cons.2 ⟨.nil, fun h => absurd rfl h, cut_nil⟩,
      fun c _ => cut_cons.2 ⟨.singleton c, fun h => absurd rfl h, cut_nil⟩⟩
  | case2 rest ih =>
    obtain ⟨w, ws, hsplit, hcut, -⟩ := ih
    refine ⟨[], w :: ws, by rw [hsplit], cut_cons.2 ⟨.nil, fun _ => by decide, hcut⟩, ?_⟩
    intro c hc
    have hsep : Separable [c] := separable_of_notMem fun h =>
      hc _ (mem_singleton.1 h).symm rfl
    exact cut_cons.2 ⟨.singleton c, fun _ => hsep, hcut⟩
  | case3 c rest _ hnil ih =>
    obtain ⟨w, ws, hsplit, -⟩ := ih
    rw [hnil] at hsplit
    cases hsplit
  | case4 c rest hc word words hsplit ih =>
    obtain ⟨w, ws, hsplit', -, hcut⟩ := ih
    rw [hsplit] at hsplit'
    obtain ⟨rfl, rfl⟩ := List.cons.inj hsplit'
    have hfirst := hcut c hc
    refine ⟨c :: word, words, rfl, hfirst, fun b hb => ?_⟩
    obtain ⟨hchain, hsep, hwords⟩ := cut_cons.1 hfirst
    have hapart : Apart b c := fun hb' hc' => hb rest hb' (by rw [hc'])
    refine cut_cons.2 ⟨isChain_cons_cons.2 ⟨hapart, hchain⟩, fun hne => ?_, hwords⟩
    exact (separable_iff_isChain _).2
      (isChain_cons_cons.2 ⟨hapart, (separable_iff_isChain _).1 (hsep hne)⟩)

theorem cut_splitWords (text : Word) : Cut (splitWords text) := by
  obtain ⟨w, ws, hsplit, hcut, -⟩ := exists_splitWords text
  rwa [hsplit]

theorem toList_joinWords_cons (word next : String) (words : List String) :
    (joinWords (word :: next :: words)).toList =
      word.toList ++ (separator.toList ++ (joinWords (next :: words)).toList) := by
  simp [joinWords]

/-- **Words that a symbol is cut into are found again.** Cutting a symbol gives the words that were
joined. -/
theorem splitWords_joinWords_of_cut : {words : List String} → words ≠ [] →
    Cut (words.map String.toList) → splitWords (joinWords words).toList = words.map String.toList
  | [_], _, h => splitWords_of_isChain (cut_cons.1 h).1
  | word :: next :: words, _, h => by
      obtain ⟨-, hword, hwords⟩ := cut_cons.1 h
      have ih := splitWords_joinWords_of_cut (cons_ne_nil next words) hwords
      rw [toList_joinWords_cons, splitWords_append (hword (cons_ne_nil _ _)), ih]
      rfl

/-- Separable words are found again. -/
theorem splitWords_joinWords {words : List String} (hne : words ≠ [])
    (h : ∀ word ∈ words, Separable word.toList) :
    splitWords (joinWords words).toList = words.map String.toList :=
  splitWords_joinWords_of_cut hne (cut_of_separable (forall_mem_map.2 h))

/-- The base of an instance is the first word of its symbol, whatever the arguments are. -/
theorem head?_splitWords_ofInstance {base : String} (h : Separable base.toList) (args : List Ty) :
    (splitWords (ofInstance base args).toList).head? = some base.toList := by
  rw [ofInstance]
  cases Ty.wordsList args with
  | nil => rw [joinWords, splitWords_of_isChain h.isChain, head?_cons]
  | cons next words => rw [toList_joinWords_cons, splitWords_append h, head?_cons]

/-- Instances with one symbol have one base. -/
theorem base_eq_of_ofInstance_eq {base base' : String} {args args' : List Ty}
    (h : Separable base.toList) (h' : Separable base'.toList)
    (heq : ofInstance base args = ofInstance base' args') : base = base' := by
  have hhead := head?_splitWords_ofInstance h args
  rw [heq, head?_splitWords_ofInstance h' args'] at hhead
  exact (String.toList_inj.1 (Option.some.inj hhead)).symm

end Monomorph.Symbol
