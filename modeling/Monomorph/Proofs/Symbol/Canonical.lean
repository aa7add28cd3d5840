import Monomorph.Proofs.Symbol.RoundTrip

/-!
# Symbols in canonical form

A type has more than one spelling: a count may be zero or start with zeros, and sizes have
aliases. Names may also start or end with an underscore, and those of behaviors and classes may be
empty. Whatever a text spells, if it is read as a type, then the symbol of the type is read as the
same type. Reading replaces words by others or drops them, and this makes no new separator: a word
that ends in an underscore is the last one, and it stays the last.

## Main results

* `Symbol.reread_of_readTyWithin`, `Symbol.decode?_symbol_of_decode?`.
-/

namespace Monomorph.Symbol

open List

variable {words rest used : List Word} {w w' core word : Word} {ts : List Ty} {limit : Nat} {t : Ty}

/-! ### Words in the place of others -/

/-- Wherever the first word makes no separator, the second makes none. -/
def Fits (w w' : Word) : Prop :=
  ∀ before after, (before ++ (w ++ after)).IsChain Apart → (before ++ (w' ++ after)).IsChain Apart

theorem Fits.refl (w : Word) : Fits w w := fun _ _ h => h

theorem Fits.append_left (h : Fits w w') (start : Word) : Fits (start ++ w) (start ++ w') := by
  intro before after hchain
  have hfits := h (before ++ start) after
  simp only [append_assoc] at hfits hchain ⊢
  exact hfits hchain

theorem Fits.append_right (h : Fits w w') (rest : Word) : Fits (w ++ rest) (w' ++ rest) := by
  intro before after hchain
  rw [append_assoc] at hchain ⊢
  exact h before (rest ++ after) hchain

/-- A word that starts with a letter and is separable fits everywhere. -/
theorem fits_of_starts (hstart : Starts w') (hsep : Separable w') : Fits w w' := by
  intro before after hchain
  refine hchain.left_of_append.append ?_ fun x _ y hy _ hy' => hstart.head?_ne ?_
  · refine hsep.isChain.append hchain.right_of_append.right_of_append fun x hx y _ hx' => ?_
    exact absurd (hx' ▸ hx) hsep.noTrail
  · obtain ⟨c, rest, rfl⟩ := exists_cons_of_ne_nil hstart.ne_nil
    simpa [hy'] using hy

/-- Wherever the first words are those of a symbol, the second are. -/
def Respells (ws ws' : List Word) : Prop :=
  ∀ before after, Cut (before ++ (ws ++ after)) → Cut (before ++ (ws' ++ after))

theorem Respells.refl (ws : List Word) : Respells ws ws := fun _ _ h => h

theorem Respells.append {ws ws' vs vs' : List Word} (hw : Respells ws ws') (hv : Respells vs vs') :
    Respells (ws ++ vs) (ws' ++ vs') := by
  intro before after hcut
  have hfirst := hw before (vs ++ after)
  have hsecond := hv (before ++ ws') after
  simp only [append_assoc] at hfirst hsecond hcut ⊢
  exact hsecond (hfirst hcut)

/-- A word can be dropped. -/
theorem respells_nil (w : Word) : Respells [w] [] := by
  intro before after hcut
  have hsub : (before ++ ([] ++ after)).Sublist (before ++ ([w] ++ after)) :=
    (List.Sublist.refl before).append ((nil_sublist [w]).append (List.Sublist.refl after))
  exact ⟨fun v hv => hcut.chain v (hsub.subset hv), hcut.separable.sublist hsub⟩

/-- A word can be replaced by one that is as good in front of a separator and at the end. -/
theorem respells_singleton (hchain : w.IsChain Apart → w'.IsChain Apart)
    (hsep : Separable w → Separable w') : Respells [w] [w'] := by
  rintro before after ⟨hchains, hseps⟩
  simp only [forall_mem_append, forall_mem_singleton] at hchains
  simp only [pairwise_append, pairwise_singleton, mem_append, mem_singleton] at hseps
  refine ⟨?_, ?_⟩
  · simp only [forall_mem_append, forall_mem_singleton]
    exact ⟨hchains.1, hchain hchains.2.1, hchains.2.2⟩
  · simp only [pairwise_append, pairwise_singleton, mem_append, mem_singleton]
    obtain ⟨hbefore, ⟨-, hafter, hword⟩, hcross⟩ := hseps
    refine ⟨hbefore, ⟨trivial, hafter, ?_⟩, fun v hv _ _ => hcross v hv w (.inl rfl)⟩
    rintro v rfl u hu
    exact hsep (hword w rfl u hu)

theorem Fits.respells (h : Fits w w') : Respells [w] [w'] := by
  refine respells_singleton (fun hchain => ?_) fun hsep => ?_
  · simpa using h [] [] (by simpa using hchain)
  · rw [separable_iff_isChain] at hsep ⊢
    exact h [] ['_'] hsep

/-- A count can be replaced by a numeral. -/
theorem respells_numeral (w : Word) (n : Nat) : Respells [w] [(toString n).toList] :=
  respells_singleton (fun _ => (separable_numeral n).isChain) fun _ => separable_numeral n

/-! ### Marks and heads -/

theorem fits_of_readArrayMark? {rest : Word} {length : UInt64}
    (h : readArrayMark? w = some (length, rest)) : Fits w ((arrayMark length).toList ++ rest) := by
  simp only [readArrayMark?, Option.bind_eq_bind, Option.bind_eq_some_iff] at h
  obtain ⟨tail, htail, n, -, h⟩ := h
  split at h
  next inner hinner =>
    cases h
    have hw : w = ("arr".toList ++ tail.takeWhile Char.isDigit) ++ '_' :: rest := by
      rw [← append_eq_of_isPrefixOf?_eq_some htail, ← hinner, append_assoc,
        takeWhile_append_dropWhile]
    have htext : (arrayMark (UInt64.ofNat n)).toList ++ rest =
        ("arr" ++ toString (UInt64.ofNat n).toNat).toList ++ '_' :: rest := by
      simp [arrayMark]
    rw [hw, htext]
    refine (fits_of_starts ?_ (separable_of_notMem ?_)).append_right _
    · rw [String.toList_append]
      exact Starts.append (by decide) _
    · rw [String.toList_append, toList_numeral, mem_append, not_or]
      exact ⟨by decide, Nat.underscore_not_in_toDigits⟩
  · cases h

/-- A mark that is read can be written instead. -/
theorem fits_of_readMark? {rest : Word} {m : Mark} (h : readMark? w = some (m, rest)) :
    Fits w (m.text.toList ++ rest) := by
  rw [readMark?, Option.or_eq_some_iff] at h
  obtain h | ⟨-, h⟩ := h
  · obtain ⟨entry, hentry, hfound⟩ := exists_of_findSome?_eq_some h
    obtain ⟨tail, htail, heq⟩ := Option.map_eq_some_iff.1 hfound
    cases heq
    have htext : ∀ entry ∈ fixedMarks, entry.1 = entry.2.text := by decide
    rw [← append_eq_of_isPrefixOf?_eq_some htail, htext entry hentry]
    exact .refl _
  · obtain ⟨⟨length, tail⟩, htail, heq⟩ := Option.map_eq_some_iff.1 h
    cases heq
    exact fits_of_readArrayMark? htail

/-- A word with marks in front. -/
def marked (marks : List Mark) (word : String) : String :=
  marks.foldr (fun m w => m.text ++ w) word

/-- The marks of a word can be written in front of what takes the place of the rest, and the rest
starts with no mark. -/
theorem of_readMarksWithin {marks : List Mark} (hlimit : w.length ≤ limit)
    (h : readMarksWithin limit w = (marks, core)) :
    readMark? core = none ∧
      ∀ word : String, Fits core word.toList → Fits w (marked marks word).toList := by
  induction limit generalizing w marks with
  | zero =>
    cases h
    rw [length_eq_zero_iff.1 (Nat.le_zero.1 hlimit)]
    exact ⟨rfl, fun _ hword => hword⟩
  | succ limit ih =>
    rw [readMarksWithin] at h
    cases hmark : readMark? w with
    | none =>
      rw [hmark] at h
      cases h
      exact ⟨hmark, fun _ hword => hword⟩
    | some found =>
      obtain ⟨m, rest⟩ := found
      rw [hmark] at h
      obtain ⟨rfl, hcore⟩ := Prod.mk.inj h
      have hshorter := length_lt_of_readMark? hmark
      obtain ⟨hnone, hfits⟩ := ih (w := rest) (by omega) (Prod.ext rfl hcore)
      refine ⟨hnone, fun word hword before after hchain => ?_⟩
      rw [marked, foldr_cons, String.toList_append]
      exact (hfits word hword).append_left _ before after
        (fits_of_readMark? hmark before after hchain)

/-- The word of a head. -/
def Head.text : Head → String
  | dyn behavior => dynMark ++ behavior
  | classRef name => classMark ++ name
  | tuple => tupleHead
  | func => funcHead
  | closure => closureHead
  | prim kind => kind.name
  | plain name => name

/-- A word that starts no number is no count. -/
theorem readCount?_of_isIdentifier (h : isIdentifier w = true) : readCount? w = none := by
  cases w with
  | nil => cases h
  | cons c rest =>
    have hdigit : c.isDigit = false := by
      obtain hc | hc := Bool.or_eq_true_iff.1 (Bool.and_eq_true_iff.1 h).1
      · exact isDigit_eq_false_of_isAlpha hc
      · rw [of_decide_eq_true hc]
        rfl
    simp [readCount?, Decimal.read64?, hdigit]

theorem of_isPrefixOf? {mark : String} (hstart : Starts mark.toList) {rest : Word}
    (h : mark.toList.isPrefixOf? core = some rest) :
    Fits core (mark ++ String.ofList rest).toList ∧
      readCount? (mark ++ String.ofList rest).toList = none := by
  rw [String.toList_append, String.toList_ofList]
  refine ⟨?_, (hstart.append rest).readCount?_eq⟩
  rw [append_eq_of_isPrefixOf?_eq_some h]
  exact .refl core

/-- A head that is read can be written instead, and is then read again. -/
theorem reads_of_readHead? {head : Head} (hmark : readMark? core = none)
    (h : readHead? core = some head) :
    Reads head.text head ∧ Fits core head.text.toList ∧ readCount? head.text.toList = none := by
  have hread := h
  have hcore : ∀ {word : String}, String.ofList core = word → Fits core word.toList := by
    rintro word rfl
    rw [String.toList_ofList]
    exact .refl core
  simp only [readHead?] at h
  split at h
  next rest hrest =>
    cases h
    exact ⟨reads_dyn _, of_isPrefixOf? (by decide) hrest⟩
  · split at h
    next rest hrest =>
      cases h
      exact ⟨reads_classRef _, of_isPrefixOf? (by decide) hrest⟩
    · split at h
      · cases h
        exact ⟨reads_tuple, hcore ‹_›, by decide⟩
      · split at h
        · cases h
          exact ⟨reads_func, hcore ‹_›, by decide⟩
        · split at h
          · cases h
            exact ⟨reads_closure, hcore ‹_›, by decide⟩
          · split at h
            · cases h
              exact ⟨reads_prim _, fits_of_starts (first_prim _).starts (first_prim _).separable,
                (first_prim _).starts.readCount?_eq⟩
            · obtain ⟨hidentifier, hplain⟩ := Option.ite_none_right_eq_some.1 h
              cases hplain
              refine ⟨⟨?_, ?_⟩, hcore rfl, ?_⟩ <;> rw [Head.text, String.toList_ofList]
              · exact readMarks_eq_nil hmark
              · exact hread
              · exact readCount?_of_isIdentifier hidentifier

/-! ### Types -/

/-- Words that were read as types: the types are read back from words that can take the place of
those. -/
structure Reread (used : List Word) (ts : List Ty) : Prop where
  legible : ∀ t ∈ ts, Legible t
  unqualified : Ty.unqualifiedList ts = ts
  /-- Their words can take the place of those that were read. -/
  respells : Respells used (spell (Ty.wordsList ts))

theorem Reread.append {more : List Word} {us : List Ty} (h : Reread used ts) (h' : Reread more us) :
    Reread (used ++ more) (ts ++ us) where
  legible := forall_mem_append.2 ⟨h.legible, h'.legible⟩
  unqualified := by
    have hts := h.unqualified
    have hus := h'.unqualified
    rw [Ty.unqualifiedList_eq_map] at hts hus ⊢
    rw [map_append, hts, hus]
  respells := by
    have hwords : Ty.wordsList (ts ++ us) = Ty.wordsList ts ++ Ty.wordsList us := by
      simp only [Ty.wordsList_eq_flatMap, flatMap_append]
    rw [hwords, spell_append]
    exact h.respells.append h'.respells

theorem reread_singleton :
    Reread used [t] ↔ Legible t ∧ t.unqualified = t ∧ Respells used (spell t.words) := by
  have hwords : Ty.wordsList [t] = t.words := append_nil _
  constructor
  · rintro ⟨hlegible, hunqualified, hrespells⟩
    exact ⟨hlegible t mem_cons_self, (List.cons.inj hunqualified).1, hwords ▸ hrespells⟩
  · rintro ⟨hlegible, hunqualified, hrespells⟩
    exact ⟨forall_mem_singleton.2 hlegible, congrArg (· :: []) hunqualified,
      hwords.symm ▸ hrespells⟩

/-- A reader of single types gives back only types that are read back. -/
def Rereads (readOne : List Word → Option (Ty × List Word)) : Prop :=
  ∀ words t rest, readOne words = some (t, rest) → ∃ used, words = used ++ rest ∧ Reread used [t]

section

variable {readOne : List Word → Option (Ty × List Word)} (hone : Rereads readOne)

include hone

theorem reread_of_readMany {count : Nat} (h : readMany readOne count words = some (ts, rest)) :
    ts.length = count ∧ ∃ used, words = used ++ rest ∧ Reread used ts := by
  induction count generalizing words ts with
  | zero =>
    cases h
    exact ⟨rfl, [], rfl, forall_mem_nil _, rfl, .refl _⟩
  | succ count ih =>
    simp only [readMany, Option.bind_eq_bind, Option.bind_eq_some_iff, Prod.exists] at h
    obtain ⟨t, mid, hfirst, us, rest', hrest, h⟩ := h
    cases h
    obtain ⟨used, rfl, ht⟩ := hone _ _ _ hfirst
    obtain ⟨rfl, more, rfl, hus⟩ := ih hrest
    exact ⟨rfl, used ++ more, (append_assoc ..).symm, ht.append hus⟩

/-- Arguments after a name: the count is written as a numeral, or dropped if there are none. -/
theorem reread_of_readCounted (h : readCounted readOne words = some (ts, rest)) :
    ts.length < Decimal.wordCount ∧ (∀ t ∈ ts, Legible t) ∧ Ty.unqualifiedList ts = ts ∧
      ∃ used, words = used ++ rest ∧ Respells used (spell (Ty.countedWords ts)) := by
  have hnone : ([] : List Ty).length < Decimal.wordCount := by decide
  cases words with
  | nil =>
    cases h
    exact ⟨hnone, forall_mem_nil _, rfl, [], rfl, .refl _⟩
  | cons word words =>
    rw [readCounted] at h
    cases hcount : readCount? word with
    | none =>
      rw [hcount] at h
      cases h
      exact ⟨hnone, forall_mem_nil _, rfl, [], rfl, .refl _⟩
    | some count =>
      rw [hcount] at h
      obtain ⟨rfl, used, rfl, hts⟩ := reread_of_readMany hone h
      refine ⟨Decimal.lt_wordCount_of_read64? hcount, hts.legible, hts.unqualified, word :: used,
        rfl, ?_⟩
      cases ts with
      | nil => exact (respells_nil word).append hts.respells
      | cons t ts =>
        rw [Ty.countedWords_cons]
        exact (respells_numeral word _).append hts.respells

theorem reread_of_readSized (h : readAfterHead.readSized readOne words = some (ts, rest)) :
    ts.length < Decimal.wordCount ∧ (∀ t ∈ ts, Legible t) ∧ Ty.unqualifiedList ts = ts ∧
      ∃ used, words = used ++ rest ∧
        Respells used (spell (toString ts.length :: Ty.wordsList ts)) := by
  cases words with
  | nil => cases h
  | cons word words =>
    simp only [readAfterHead.readSized, Option.bind_eq_bind, Option.bind_eq_some_iff] at h
    obtain ⟨count, hcount, h⟩ := h
    obtain ⟨rfl, used, rfl, hts⟩ := reread_of_readMany hone h
    exact ⟨Decimal.lt_wordCount_of_read64? hcount, hts.legible, hts.unqualified, word :: used, rfl,
      (respells_numeral word _).append hts.respells⟩

/-- The parameters and the result of a function-like type. -/
theorem reread_of_signature {mid : List Word} {params : List Ty} {ret : Ty}
    (hparams : readAfterHead.readSized readOne words = some (params, mid))
    (hret : readOne mid = some (ret, rest)) :
    params.length < Decimal.wordCount ∧ (∀ t ∈ params, Legible t) ∧
      Ty.unqualifiedList params = params ∧ Legible ret ∧ ret.unqualified = ret ∧
      ∃ used, words = used ++ rest ∧
        Respells used (spell (toString params.length :: (Ty.wordsList params ++ ret.words))) := by
  obtain ⟨hcount, hlegible, hunqualified, used, rfl, hrespells⟩ := reread_of_readSized hone hparams
  obtain ⟨more, rfl, hreread⟩ := hone _ _ _ hret
  obtain ⟨hretLegible, hretUnqualified, hretRespells⟩ := reread_singleton.1 hreread
  refine ⟨hcount, hlegible, hunqualified, hretLegible, hretUnqualified,
    used ++ more, (append_assoc ..).symm, ?_⟩
  rw [← cons_append, spell_append]
  exact hrespells.append hretRespells

/-- What follows a head is read as a type that is read back after the word of the head. Only after a
plain name would it be written otherwise at the outermost position. -/
theorem reread_of_readAfterHead {head : Head} (hhead : Reads head.text head) {t : Ty}
    (h : readAfterHead readOne head words = some (t, rest)) :
    ReadsBack t ∧ t.unqualified = t ∧ (t.symbol = joinWords t.words ∨ ∃ name, head = .plain name) ∧
      ∃ used tail, words = used ++ rest ∧ t.words = head.text :: tail ∧
        Respells used (spell tail) := by
  cases head with
  | classRef name =>
    cases h
    exact ⟨readsBack_classRef name, rfl, .inl rfl, [], [], rfl, rfl, .refl _⟩
  | prim kind =>
    cases h
    exact ⟨readsBack_prim kind, rfl, .inl rfl, [], [], rfl, rfl, .refl _⟩
  | dyn behavior =>
    simp only [readAfterHead, Option.bind_eq_bind, Option.bind_eq_some_iff, Prod.exists] at h
    obtain ⟨args, rest', hargs, h⟩ := h
    cases h
    obtain ⟨hcount, hlegible, hunqualified, used, rfl, hrespells⟩ :=
      reread_of_readCounted hone hargs
    exact ⟨readsBack_dyn hcount hlegible,
      by rw [Ty.unqualified, hunqualified], .inl rfl, used, _, rfl, rfl, hrespells⟩
  | plain name =>
    simp only [readAfterHead, Option.bind_eq_bind, Option.bind_eq_some_iff, Prod.exists] at h
    obtain ⟨args, rest', hargs, h⟩ := h
    cases h
    obtain ⟨hcount, hlegible, hunqualified, used, rfl, hrespells⟩ :=
      reread_of_readCounted hone hargs
    exact ⟨readsBack_named hhead hcount hlegible,
      by rw [Ty.ofName, Ty.unqualified, hunqualified], .inr ⟨name, rfl⟩, used, _, rfl, rfl,
      hrespells⟩
  | tuple =>
    simp only [readAfterHead, Option.bind_eq_bind, Option.bind_eq_some_iff, Prod.exists] at h
    obtain ⟨elems, rest', helems, h⟩ := h
    cases h
    obtain ⟨hcount, hlegible, hunqualified, used, rfl, hrespells⟩ := reread_of_readSized hone helems
    exact ⟨readsBack_tuple hcount hlegible,
      by rw [Ty.unqualified, hunqualified], .inl rfl, used, _, rfl, rfl, hrespells⟩
  | func | closure =>
    simp only [readAfterHead, Option.bind_eq_bind, Option.bind_eq_some_iff, Prod.exists] at h
    obtain ⟨params, mid, hparams, ret, rest', hret, h⟩ := h
    cases h
    obtain ⟨hcount, hback, hunqualified, hlegible, hretUnqualified, used, rfl, hrespells⟩ :=
      reread_of_signature hone hparams hret
    obtain ⟨hfunc, hclosure⟩ := readsBack_signature hcount hback hlegible
    exact ⟨by assumption, by rw [Ty.unqualified, hunqualified, hretUnqualified], .inl rfl, used, _,
      rfl, rfl, hrespells⟩

end

/-- Marks in front of a type that is read back. -/
theorem readsBack_foldr_apply {word : String} {tail : List String} (hwords : t.words = word :: tail)
    (hback : ReadsBack t) (hunqualified : t.unqualified = t) (marks : List Mark) :
    ReadsBack (marks.foldr Mark.apply t) ∧
      (marks.foldr Mark.apply t).unqualified = marks.foldr Mark.apply t ∧
        (marks.foldr Mark.apply t).words = marked marks word :: tail := by
  induction marks with
  | nil => exact ⟨hback, hunqualified, hwords⟩
  | cons m marks ih =>
    obtain ⟨hback, hunqualified, hwords⟩ := ih
    rw [foldr_cons, unqualified_apply, hunqualified, words_apply, hwords]
    exact ⟨hback.mark m, rfl, rfl⟩

theorem readCount?_marked {word : String} (h : readCount? word.toList = none) (marks : List Mark) :
    readCount? (marked marks word).toList = none := by
  cases marks with
  | nil => exact h
  | cons m marks =>
    rw [marked, foldr_cons, String.toList_append]
    exact ((mark_text m).1.append _).readCount?_eq

/-- A type that is read is read back from words that can take the place of its own. At the outermost
position it is written in the same way, unless it is a plain name without marks. -/
theorem reread_of_readTyWithin (hone : Rereads (readTyWithin limit))
    (h : readTyWithin (limit + 1) (word :: words) = some (t, rest)) :
    ∃ used head tail, words = used ++ rest ∧ Reread (word :: used) [t] ∧
      readHead? (readMarks word).2 = some head ∧ Reads head.text head ∧
      t.words = marked (readMarks word).1 head.text :: tail ∧
      (t.symbol = joinWords t.words ∨ (readMarks word).1 = [] ∧ ∃ name, head = .plain name) := by
  simp only [readTyWithin, Option.bind_eq_bind, Option.bind_eq_some_iff, Prod.exists] at h
  obtain ⟨head, hhead, inner, rest', hafter, h⟩ := h
  cases h
  have hmarks : readMarksWithin word.length word = ((readMarks word).1, (readMarks word).2) := rfl
  obtain ⟨hnone, hmarked⟩ := of_readMarksWithin le_rfl hmarks
  obtain ⟨hreads, hfits, hcount⟩ := reads_of_readHead? hnone hhead
  obtain ⟨hback, hunqualified, hsymbol, used, tail, rfl, hwords, hrespells⟩ :=
    reread_of_readAfterHead hone hreads hafter
  obtain ⟨hback', hunqualified', hwords'⟩ :=
    readsBack_foldr_apply hwords hback hunqualified (readMarks word).1
  refine ⟨used, head, tail, rfl, reread_singleton.2 ⟨⟨?_, hback'⟩, hunqualified', ?_⟩, hhead,
    hreads, hwords', ?_⟩
  · rw [hwords']
    exact readCount?_marked hcount _
  · rw [hwords']
    exact (hmarked _ hfits).respells.append hrespells
  · cases hfirst : (readMarks word).1 with
    | nil => exact hsymbol.imp_right fun hplain => ⟨rfl, hplain⟩
    | cons m marks =>
      cases m <;> exact .inl rfl

theorem rereads_readTyWithin (limit : Nat) : Rereads (readTyWithin limit) := by
  induction limit with
  | zero =>
    rintro words t rest ⟨⟩
  | succ limit ih =>
    rintro (_ | ⟨word, words⟩) t rest h
    · cases h
    · obtain ⟨used, -, -, rfl, hreread, -⟩ := reread_of_readTyWithin ih h
      exact ⟨word :: used, rfl, hreread⟩

theorem reread_of_readAllWithin (h : readAllWithin limit words = some ts) : Reread words ts := by
  induction limit generalizing words ts with
  | zero =>
    cases words <;> cases h
    exact ⟨forall_mem_nil _, rfl, .refl _⟩
  | succ limit ih =>
    cases words with
    | nil =>
      cases h
      exact ⟨forall_mem_nil _, rfl, .refl _⟩
    | cons word words =>
      simp only [readAllWithin, Option.bind_eq_bind, Option.bind_eq_some_iff, Prod.exists] at h
      obtain ⟨t, rest, hfirst, us, hrest, h⟩ := h
      cases h
      obtain ⟨used, hused, ht⟩ := rereads_readTyWithin _ _ _ _ hfirst
      rw [hused]
      exact ht.append (ih hrest)

/-! ### Whole symbols -/

theorem Respells.cut {ws ws' : List Word} (h : Respells ws ws') (hcut : Cut ws) : Cut ws' := by
  simpa using h [] [] (by simpa using hcut)

theorem decode?_symbol_of_readAll (hcut : Cut (word :: words))
    (hmarks : readMarks word = ([], core)) {name : String}
    (hhead : readHead? word = some (.plain name)) {args : List Ty}
    (hargs : readAll words = some args) :
    decode? (Ty.ofName name args).symbol = some (.ofName name args) := by
  obtain rfl := readMarksWithin_snd hmarks
  obtain ⟨hreads, hfits, -⟩ := reads_of_readHead? (of_readMarksWithin le_rfl hmarks).1 hhead
  obtain ⟨hlegible, hunqualified, hrespells⟩ := reread_of_readAllWithin hargs
  have hread := decode?_ofInstance_of_legible hreads hlegible
    ((hfits.respells.append hrespells).cut hcut)
  rwa [hunqualified] at hread

theorem decode?_symbol_of_readTy (hcut : Cut (word :: words)) (hnested : IsNested word)
    (h : readTy (word :: words) = some (t, [])) : decode? t.symbol = some t := by
  obtain ⟨used, head, tail, hused, hreread, hhead, hreads, hwords, hsymbol⟩ :=
    reread_of_readTyWithin (rereads_readTyWithin words.length) h
  rw [append_nil] at hused
  subst hused
  obtain ⟨hlegible, hunqualified, hrespells⟩ := reread_singleton.1 hreread
  -- A plain name without marks would not have been read as a nested type.
  have hplain (name : String) (hnone : (readMarks word).1 = []) : head ≠ .plain name := by
    rintro rfl
    have hmarks : readMarks word = ([], (readMarks word).2) := Prod.ext hnone rfl
    have hcore := readMarksWithin_snd hmarks
    rw [hcore] at hmarks hhead
    exact hnested name hmarks hhead
  have hsymbol : t.symbol = joinWords t.words := by
    obtain hsymbol | ⟨hnone, name, hname⟩ := hsymbol
    · exact hsymbol
    · exact absurd hname (hplain name hnone)
  have hfirst : IsNested (marked (readMarks word).1 head.text).toList := by
    cases hmarks : (readMarks word).1 with
    | nil => exact hreads.isNested fun name => hplain name hmarks
    | cons m marks => exact isNested_mark m _
  rw [hsymbol, decode?_of_legible hlegible (hrespells.cut hcut) hwords hfirst, hunqualified]

/-- The symbol of a type that was read is read as the same type: to read a text and to write what
was read is idempotent on all texts that are read. -/
theorem decode?_symbol_of_decode? {s : String} {t : Ty} (h : decode? s = some t) :
    decode? t.symbol = some t ∧ (decode? t.symbol).map Ty.symbol = (decode? s).map Ty.symbol := by
  suffices hread : decode? t.symbol = some t by rw [hread, h]; exact ⟨rfl, rfl⟩
  have hcut := cut_splitWords s.toList
  rw [decode?] at h
  cases hsplit : splitWords s.toList with
  | nil =>
    rw [hsplit] at h
    cases h
  | cons word words =>
    rw [hsplit] at h hcut
    simp only at h
    split at h
    · next hmarks hhead =>
      rw [Option.map_eq_some_iff] at h
      obtain ⟨args, hargs, rfl⟩ := h
      exact decode?_symbol_of_readAll hcut hmarks hhead hargs
    · next hnested =>
      split at h
      · next hread =>
        cases h
        exact decode?_symbol_of_readTy hcut (fun name => hnested word name) hread
      · cases h

/-- A text with a count of zero, numerals that start with zero, the alias of a size, names that
start with an underscore and an empty name of a behavior. -/
theorem decode?_symbol_of_decode?_loose :
    ∃ t, decode? "_Map__tuple__03__List__0__arr07_Isize___Key__ref_dyn_" = some t ∧
      t.symbol = "_Map__tuple__3__List__arr7_I64___Key__ref_dyn_" ∧ decode? t.symbol = some t := by
  have hread : decode? "_Map__tuple__03__List__0__arr07_Isize___Key__ref_dyn_" =
      some (.ofName "_Map" [.tuple [.ofName "List" [], .array (.prim .i64) 7, .ofName "_Key" []],
        .ref false (.dyn "" [])]) := by
    decide +kernel
  exact ⟨_, hread, by decide +kernel, (decode?_symbol_of_decode? hread).1⟩

end Monomorph.Symbol
