import Monomorph.Proofs.Symbol.Writable
import Monomorph.Proofs.Ty.Names
import Monomorph.Proofs.Ty.Qualifiers

/-!
# Symbols tell types apart

Two types whose names are clean have the same words only if they are equal up to module qualifiers.
No bound on the lengths of their lists is needed, because nothing is read back: the words of the two
types are compared one by one. The first word decides the marks and the head of a type, and a count
never looks like the first word of a type.
-/

namespace Monomorph

open List Monomorph.Symbol

namespace Ty

/-- Words that do not start with a count: there is no word, or the first starts with a letter. -/
def Lettered (words : List String) : Prop := ∀ word ∈ words.head?, Starts word.toList

theorem lettered_nil : Lettered [] := nofun

theorem Spelled.lettered {W : String → Prop} {words : List String} (h : Spelled First W words)
    (rest : List String) : Lettered (words ++ rest) := by
  obtain ⟨word, more, rfl, hword⟩ := h.first
  rintro _ ⟨⟩
  exact hword.starts

theorem lettered_wordsList {ts : List Ty} (h : ∀ name ∈ namesList ts, IsClean name)
    {rest : List String} (hrest : Lettered rest) : Lettered (wordsList ts ++ rest) := by
  cases ts with
  | nil => exact hrest
  | cons t ts =>
    rw [wordsList, append_assoc]
    exact (spelled_of_clean t (forall_mem_append.1 h).1).lettered _

theorem not_starts_numeral (n : Nat) : ¬ Starts (toString n).toList := by
  rw [toList_numeral]
  cases hdigits : Nat.toDigits 10 n with
  | nil => exact absurd hdigits Nat.toDigits_ne_nil
  | cons c digits =>
    intro h
    have hdigit : c.isDigit = true :=
      Nat.isDigit_of_mem_toDigits (by decide) (by decide) (hdigits ▸ mem_cons_self)
    rw [isDigit_eq_false_of_isAlpha h] at hdigit
    cases hdigit

/-! ### First words -/

/-- The head of a type without marks. -/
def head? : Ty → Option Head
  | .prim kind => some (.prim kind)
  | .named _ name _ => some (.plain name)
  | .dyn behavior _ => some (.dyn behavior)
  | .classRef name => some (.classRef name)
  | .tuple _ => some .tuple
  | .func .. => some .func
  | .closure .. => some .closure
  | .ref .. | .ptr _ | .slice _ | .array .. => none

/-- A type has marks, or its first word reads as its head. -/
theorem mark_or_head (t : Ty) (h : ∀ name ∈ t.names, IsClean name) :
    (∃ (m : Mark) (u : Ty), t = m.apply u) ∨
      ∃ word rest head, t.words = word :: rest ∧ t.head? = some head ∧ Reads word head := by
  cases t with
  | prim kind => exact .inr ⟨_, _, _, rfl, rfl, reads_prim kind⟩
  | named qualifier name args =>
    exact .inr ⟨_, _, _, rfl, rfl, (forall_mem_cons.1 h).1.reads⟩
  | dyn behavior args => exact .inr ⟨_, _, _, rfl, rfl, reads_dyn behavior⟩
  | classRef name => exact .inr ⟨_, _, _, rfl, rfl, reads_classRef name⟩
  | tuple elems => exact .inr ⟨_, _, _, rfl, rfl, reads_tuple⟩
  | func params ret => exact .inr ⟨_, _, _, rfl, rfl, reads_func⟩
  | closure params ret => exact .inr ⟨_, _, _, rfl, rfl, reads_closure⟩
  | ref mutable u => exact .inl ⟨.ref mutable, u, rfl⟩
  | ptr u => exact .inl ⟨.ptr, u, rfl⟩
  | slice u => exact .inl ⟨.slice, u, rfl⟩
  | array u length => exact .inl ⟨.array length, u, rfl⟩

theorem names_apply (m : Mark) (t : Ty) : (m.apply t).names = t.names := by
  cases m <;> rfl

variable {t t' ret : Ty} {rest rest' more : List String} {word : String} {args params : List Ty}

/-- The words of a marked type, when the words of its element are known. -/
theorem words_apply_cons (m : Mark) (h : t.words = word :: more) :
    (m.apply t).words = (m.text ++ word) :: more := by
  rw [words_apply, h]
  rfl

/-- Types with the same first word have the same first mark. -/
theorem mark_eq {m : Mark} (h : ∀ name ∈ t.names, IsClean name)
    (h' : ∀ name ∈ t'.names, IsClean name)
    (heq : (m.apply t).words ++ rest = t'.words ++ rest') :
    ∃ u, t' = m.apply u ∧ t.words ++ rest = u.words ++ rest' := by
  obtain ⟨word, more, hwords, -⟩ := (spelled_of_clean t h).first
  rw [words_apply_cons m hwords, cons_append] at heq
  obtain ⟨m', u, rfl⟩ | ⟨word', more', head, hwords', -, hreads⟩ := mark_or_head t' h'
  · rw [names_apply] at h'
    obtain ⟨word', more', hwords', -⟩ := (spelled_of_clean u h').first
    rw [words_apply_cons m' hwords', cons_append, List.cons.injEq] at heq
    have hmarks := congrArg (fun w : String => readMarks w.toList) heq.1
    simp only [String.toList_append, readMarks_append, Prod.mk.injEq, List.cons.injEq] at hmarks
    obtain rfl := hmarks.1.1
    refine ⟨u, rfl, ?_⟩
    have hword : word = word' := by
      have htext := congrArg String.toList heq.1
      rw [String.toList_append, String.toList_append] at htext
      exact String.toList_inj.1 (append_cancel_left htext)
    rw [hwords, hwords', cons_append, cons_append, hword, heq.2]
  · rw [hwords', cons_append, List.cons.injEq] at heq
    have hmarks := hreads.marks
    rw [← heq.1, String.toList_append, readMarks_append] at hmarks
    cases hmarks

/-! ### Types are told apart -/

/-- The words of a type tell it apart from every other type, whatever follows. -/
def Identified (t : Ty) : Prop :=
  ∀ ⦃t' : Ty⦄ ⦃rest rest' : List String⦄, (∀ name ∈ t'.names, IsClean name) → Lettered rest →
    Lettered rest' → t.words ++ rest = t'.words ++ rest' →
      t.unqualified = t'.unqualified ∧ rest = rest'

/-- The words of several types tell them apart from every list of as many types. -/
def IdentifiedAll (ts : List Ty) : Prop :=
  ∀ ⦃ts' : List Ty⦄ ⦃rest rest' : List String⦄, (∀ name ∈ namesList ts', IsClean name) →
    ts.length = ts'.length → Lettered rest → Lettered rest' →
      wordsList ts ++ rest = wordsList ts' ++ rest' →
        unqualifiedList ts = unqualifiedList ts' ∧ rest = rest'

theorem identifiedAll_nil : IdentifiedAll [] := by
  intro ts' rest rest' _ hlength _ _ heq
  obtain rfl := length_eq_zero_iff.1 hlength.symm
  exact ⟨rfl, heq⟩

theorem IdentifiedAll.cons {ts : List Ty} (hts : ∀ name ∈ namesList ts, IsClean name)
    (ht : Identified t) (h : IdentifiedAll ts) : IdentifiedAll (t :: ts) := by
  intro ts' rest rest' hclean hlength hrest hrest' heq
  cases ts' with
  | nil => cases hlength
  | cons t' ts' =>
    obtain ⟨ht', hts'⟩ := forall_mem_append.1 hclean
    rw [wordsList, wordsList, append_assoc, append_assoc] at heq
    obtain ⟨hunqualified, heq⟩ :=
      ht ht' (lettered_wordsList hts hrest) (lettered_wordsList hts' hrest') heq
    obtain ⟨hall, hrests⟩ := h hts' (Nat.succ.inj hlength) hrest hrest' heq
    exact ⟨by rw [unqualifiedList, unqualifiedList, hunqualified, hall], hrests⟩

/-- A count and its types are told apart, also from no count at all. -/
theorem IdentifiedAll.counted {ts ts' : List Ty} (h : IdentifiedAll ts)
    (hts' : ∀ name ∈ namesList ts', IsClean name) (hrest : Lettered rest) (hrest' : Lettered rest')
    (heq : countedWords ts ++ rest = countedWords ts' ++ rest') :
    unqualifiedList ts = unqualifiedList ts' ∧ rest = rest' := by
  cases ts with
  | nil =>
    cases ts' with
    | nil => exact ⟨rfl, heq⟩
    | cons t' ts' =>
      rw [countedWords_cons, cons_append] at heq
      have hhead := congrArg List.head? heq
      exact absurd (hrest _ hhead) (not_starts_numeral _)
  | cons t ts =>
    cases ts' with
    | nil =>
      rw [countedWords_cons, cons_append] at heq
      have hhead := congrArg List.head? heq
      exact absurd (hrest' _ hhead.symm) (not_starts_numeral _)
    | cons t' ts' =>
      rw [countedWords_cons, countedWords_cons, cons_append, cons_append, List.cons.injEq] at heq
      exact h hts' (numeral_injective heq.1) hrest hrest' heq.2

theorem Identified.mark (m : Mark) (hclean : ∀ name ∈ t.names, IsClean name) (ht : Identified t) :
    Identified (m.apply t) := by
  intro t' rest rest' hclean' hrest hrest' heq
  obtain ⟨u, rfl, hwords⟩ := mark_eq hclean hclean' heq
  rw [names_apply] at hclean'
  obtain ⟨hunqualified, hrests⟩ := ht hclean' hrest hrest' hwords
  refine ⟨?_, hrests⟩
  cases m <;> simp only [Mark.apply, unqualified, hunqualified]

/-- A type whose first word is unmarked is told apart if what follows tells it apart from the types
with the same head. -/
theorem Identified.of_head {head : Head} (hwords : t.words = word :: more)
    (hreads : Reads word head)
    (h : ∀ ⦃t' : Ty⦄ ⦃rest rest' : List String⦄, t'.head? = some head →
      (∀ name ∈ t'.names, IsClean name) → Lettered rest → Lettered rest' →
        more ++ rest = t'.words.tail ++ rest' → t.unqualified = t'.unqualified ∧ rest = rest') :
    Identified t := by
  intro t' rest rest' hclean' hrest hrest' heq
  rw [hwords] at heq
  obtain ⟨m', u, rfl⟩ | ⟨word', more', head', hwords', hhead', hreads'⟩ := mark_or_head t' hclean'
  · rw [names_apply] at hclean'
    obtain ⟨word', more', hwords', -⟩ := (spelled_of_clean u hclean').first
    rw [words_apply_cons m' hwords', cons_append, cons_append, List.cons.injEq] at heq
    have hmarks := hreads.marks
    rw [heq.1, String.toList_append, readMarks_append] at hmarks
    cases hmarks
  · rw [hwords', cons_append, cons_append, List.cons.injEq] at heq
    obtain ⟨rfl, heq⟩ := heq
    refine h ?_ hclean' hrest hrest' (by rwa [hwords'])
    rw [hhead', ← hreads'.head, hreads.head]

theorem identified_prim (kind : Primitive) : Identified (.prim kind) := by
  refine .of_head rfl (reads_prim kind) fun t' _ _ hhead _ _ _ heq => ?_
  cases t' <;> cases hhead
  exact ⟨rfl, heq⟩

theorem identified_classRef (name : String) : Identified (.classRef name) := by
  refine .of_head rfl (reads_classRef name) fun t' _ _ hhead _ _ _ heq => ?_
  cases t' <;> cases hhead
  exact ⟨rfl, heq⟩

theorem identified_named {qualifier name : String} (hname : IsClean name)
    (hargs : IdentifiedAll args) : Identified (.named qualifier name args) := by
  refine .of_head rfl hname.reads fun t' _ _ hhead hclean' hrest hrest' heq => ?_
  cases t' <;> cases hhead
  obtain ⟨hunqualified, hrests⟩ := hargs.counted (forall_mem_cons.1 hclean').2 hrest hrest' heq
  exact ⟨by rw [unqualified, unqualified, hunqualified], hrests⟩

theorem identified_dyn {behavior : String} (hargs : IdentifiedAll args) :
    Identified (.dyn behavior args) := by
  refine .of_head rfl (reads_dyn behavior) fun t' _ _ hhead hclean' hrest hrest' heq => ?_
  cases t' <;> cases hhead
  obtain ⟨hunqualified, hrests⟩ := hargs.counted (forall_mem_cons.1 hclean').2 hrest hrest' heq
  exact ⟨by rw [unqualified, unqualified, hunqualified], hrests⟩

theorem identified_tuple {elems : List Ty} (helems : IdentifiedAll elems) :
    Identified (.tuple elems) := by
  refine .of_head rfl reads_tuple fun t' _ _ hhead hclean' hrest hrest' heq => ?_
  cases t' <;> cases hhead
  obtain ⟨hcount, heq⟩ := List.cons.inj heq
  obtain ⟨hunqualified, hrests⟩ := helems hclean' (numeral_injective hcount) hrest hrest' heq
  exact ⟨by rw [unqualified, unqualified, hunqualified], hrests⟩

/-- Function and closure types have parameters and a result. -/
theorem identified_signature (hparams : IdentifiedAll params) (hret : Identified ret)
    (hclean : ∀ name ∈ ret.names, IsClean name) :
    Identified (.func params ret) ∧ Identified (.closure params ret) := by
  refine ⟨.of_head rfl reads_func ?_, .of_head rfl reads_closure ?_⟩
  all_goals
    intro t' rest rest' hhead hclean' hrest hrest' heq
    cases t' <;> cases hhead
    obtain ⟨hparams', hret'⟩ := forall_mem_append.1 hclean'
    rw [words, tail_cons, cons_append, cons_append, List.cons.injEq, append_assoc,
      append_assoc] at heq
    obtain ⟨hcount, heq⟩ := heq
    obtain ⟨hunqualified, heq⟩ := hparams hparams' (numeral_injective hcount)
      ((spelled_of_clean ret hclean).lettered _) ((spelled_of_clean _ hret').lettered _) heq
    obtain ⟨hrets, hrests⟩ := hret hret' hrest hrest' heq
    exact ⟨by rw [unqualified, unqualified, hunqualified, hrets], hrests⟩

mutual

/-- The words of a type with clean names tell it apart. -/
theorem identified : (t : Ty) → (∀ name ∈ t.names, IsClean name) → Identified t
  | .prim kind, _ => identified_prim kind
  | .classRef name, _ => identified_classRef name
  | .named _ _ args, h => by
      obtain ⟨hname, hargs⟩ := forall_mem_cons.1 h
      exact identified_named hname (identifiedAll args hargs)
  | .dyn _ args, h => identified_dyn (identifiedAll args (forall_mem_cons.1 h).2)
  | .ref mutable t, h => (identified t h).mark (.ref mutable) h
  | .ptr t, h => (identified t h).mark .ptr h
  | .slice t, h => (identified t h).mark .slice h
  | .array t length, h => (identified t h).mark (.array length) h
  | .tuple elems, h => identified_tuple (identifiedAll elems h)
  | .func params ret, h => by
      obtain ⟨hparams, hret⟩ := forall_mem_append.1 h
      exact (identified_signature (identifiedAll params hparams) (identified ret hret) hret).1
  | .closure params ret, h => by
      obtain ⟨hparams, hret⟩ := forall_mem_append.1 h
      exact (identified_signature (identifiedAll params hparams) (identified ret hret) hret).2

theorem identifiedAll : (ts : List Ty) → (∀ name ∈ namesList ts, IsClean name) → IdentifiedAll ts
  | [], _ => identifiedAll_nil
  | t :: ts, h => by
      obtain ⟨ht, hts⟩ := forall_mem_append.1 h
      exact .cons hts (identified t ht) (identifiedAll ts hts)

end

/-- The words of several types tell how many there are, since every type has a word. -/
theorem unqualifiedList_eq_of_wordsList_eq {ts ts' : List Ty}
    (h : ∀ name ∈ namesList ts, IsClean name) (h' : ∀ name ∈ namesList ts', IsClean name)
    (heq : wordsList ts = wordsList ts') : unqualifiedList ts = unqualifiedList ts' := by
  induction ts generalizing ts' with
  | nil =>
    cases ts' with
    | nil => rfl
    | cons t' ts' =>
      obtain ⟨word, more, hwords, -⟩ := (spelled_of_clean t' (forall_mem_append.1 h').1).first
      rw [wordsList, wordsList, hwords] at heq
      cases heq
  | cons t ts ih =>
    obtain ⟨ht, hts⟩ := forall_mem_append.1 h
    cases ts' with
    | nil =>
      obtain ⟨word, more, hwords, -⟩ := (spelled_of_clean t ht).first
      rw [wordsList, wordsList, hwords] at heq
      cases heq
    | cons t' ts' =>
      obtain ⟨ht', hts'⟩ := forall_mem_append.1 h'
      rw [wordsList, wordsList, ← append_nil (wordsList ts), ← append_nil (wordsList ts')] at heq
      obtain ⟨hunqualified, heq⟩ := identified t ht ht' (lettered_wordsList hts lettered_nil)
        (lettered_wordsList hts' lettered_nil) heq
      rw [append_nil, append_nil] at heq
      rw [unqualifiedList, unqualifiedList, hunqualified, ih hts hts' heq]

end Ty

namespace Symbol

/-- Instances with one symbol have one base, and arguments that are equal up to qualifiers. -/
theorem key_eq_of_symbol_eq {base base' : String} {args args' : List Ty}
    (hbase : Separable base.toList) (hbase' : Separable base'.toList)
    (hargs : ∀ name ∈ Ty.namesList args, IsClean name)
    (hargs' : ∀ name ∈ Ty.namesList args', IsClean name)
    (heq : ofInstance base args = ofInstance base' args') :
    base = base' ∧ Ty.unqualifiedList args = Ty.unqualifiedList args' := by
  have hsplit := splitWords_joinWords (cons_ne_nil base (Ty.wordsList args))
    (forall_mem_cons.2 ⟨hbase, Ty.wording_isClean.wordsList args hargs⟩)
  have hsplit' := splitWords_joinWords (cons_ne_nil base' (Ty.wordsList args'))
    (forall_mem_cons.2 ⟨hbase', Ty.wording_isClean.wordsList args' hargs'⟩)
  rw [ofInstance, ofInstance] at heq
  rw [heq, hsplit'] at hsplit
  have hwords := map_injective_iff.2 (fun _ _ => String.toList_inj.1) hsplit
  obtain ⟨rfl, hlist⟩ := List.cons.inj hwords
  exact ⟨rfl, Ty.unqualifiedList_eq_of_wordsList_eq hargs hargs' hlist.symm⟩

end Symbol

/-! ### Clean vocabularies -/

/-- The clean names of types and behaviors. -/
def Vocabulary.clean : Vocabulary := ⟨IsClean, IsClean⟩

instance : Vocabulary.clean.IsDecidable :=
  inferInstanceAs (Vocabulary.IsDecidable ⟨IsClean, IsClean⟩)

namespace Ty

variable {P : String → Prop}

mutual

/-- The names in a type are of the kind that types and behaviors have. -/
theorem of_mem_names : (t : Ty) → t.Over ⟨P, P⟩ → ∀ name ∈ t.names, P name
  | .prim _, _ => nofun
  | .named _ _ args, h | .dyn _ args, h =>
    forall_mem_cons.2 ⟨h.1, of_mem_namesList args h.2⟩
  | .classRef _, h => forall_mem_singleton.2 h
  | .ref _ inner, h | .ptr inner, h | .slice inner, h | .array inner _, h =>
    of_mem_names inner h
  | .tuple elems, h => of_mem_namesList elems h
  | .func params ret, h | .closure params ret, h =>
    forall_mem_append.2 ⟨of_mem_namesList params h.1, of_mem_names ret h.2⟩

theorem of_mem_namesList : (ts : List Ty) → OverList ⟨P, P⟩ ts → ∀ name ∈ namesList ts, P name
  | [], _ => nofun
  | t :: ts, h => forall_mem_append.2 ⟨of_mem_names t h.1, of_mem_namesList ts h.2⟩

end

end Ty

/-- Instances over clean names with one symbol have one base, and arguments that are equal up to
qualifiers. -/
theorem Symbol.key_eq_of_over_clean {base base' : String} {args args' : List Ty}
    (hbase : Separable base.toList) (hbase' : Separable base'.toList)
    (hargs : ∀ t ∈ args, t.Over .clean) (hargs' : ∀ t ∈ args', t.Over .clean)
    (heq : ofInstance base args = ofInstance base' args') :
    base = base' ∧ args.map Ty.unqualified = args'.map Ty.unqualified := by
  rw [← Ty.unqualifiedList_eq_map, ← Ty.unqualifiedList_eq_map]
  exact key_eq_of_symbol_eq hbase hbase' (Ty.of_mem_namesList args (Ty.overList_iff.2 hargs))
    (Ty.of_mem_namesList args' (Ty.overList_iff.2 hargs')) heq

end Monomorph
