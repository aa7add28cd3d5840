import Monomorph.Proofs.Symbol.Clean

/-!
# Types that symbols can write

A symbol writes a type faithfully if every name in it is clean and every list of types in it can
be counted. Counts are 64-bit numerals, so such a list has to be shorter than `2 ^ 64`, as lists in
memory are. The words of such a type can be joined and cut apart again: each is separable, and the
first starts with a letter, so it is no count.
-/

namespace Monomorph

open List Monomorph.Symbol

namespace Ty

mutual

/-- The names of nominal types, behaviors and classes in a type. -/
def names : Ty → List String
  | .prim _ => []
  | .named _ name args | .dyn name args => name :: namesList args
  | .classRef name => [name]
  | .ref _ inner | .ptr inner | .slice inner | .array inner _ => inner.names
  | .tuple elems => namesList elems
  | .func params ret | .closure params ret => namesList params ++ ret.names

/-- The names in several types. -/
def namesList : List Ty → List String
  | [] => []
  | t :: ts => t.names ++ namesList ts

end

mutual

/-- The lengths of the lists of types in a type. -/
def widths : Ty → List Nat
  | .prim _ | .classRef _ => []
  | .named _ _ args | .dyn _ args | .tuple args => args.length :: widthsList args
  | .ref _ inner | .ptr inner | .slice inner | .array inner _ => inner.widths
  | .func params ret | .closure params ret => params.length :: (widthsList params ++ ret.widths)

/-- The lengths of the lists of types in several types. -/
def widthsList : List Ty → List Nat
  | [] => []
  | t :: ts => t.widths ++ widthsList ts

end

/-- A type that symbols can write: its names are clean and its lists can be counted. -/
structure Writable (t : Ty) : Prop where
  clean : ∀ name ∈ t.names, IsClean name
  /-- All lists of types can be counted in 64 bits. -/
  counted : ∀ width ∈ t.widths, width < Decimal.wordCount

theorem writable_iff (t : Ty) :
    t.Writable ↔ (∀ name ∈ t.names, IsClean name) ∧ ∀ width ∈ t.widths, width < Decimal.wordCount :=
  ⟨fun h => ⟨h.1, h.2⟩, fun h => ⟨h.1, h.2⟩⟩

instance : DecidablePred Writable := fun t => decidable_of_iff _ (writable_iff t).symm

theorem forall_writable_iff (ts : List Ty) :
    (∀ t ∈ ts, t.Writable) ↔ (∀ name ∈ namesList ts, IsClean name) ∧
      ∀ width ∈ widthsList ts, width < Decimal.wordCount := by
  induction ts with
  | nil => simp [namesList, widthsList]
  | cons t ts ih =>
      simp only [forall_mem_cons, ih, writable_iff t, namesList, widthsList, forall_mem_append]
      tauto

@[simp] theorem writable_named (qualifier name : String) (args : List Ty) :
    (Ty.named qualifier name args).Writable ↔
      IsClean name ∧ args.length < Decimal.wordCount ∧ ∀ t ∈ args, t.Writable := by
  simp only [writable_iff (.named ..), names, widths, forall_mem_cons, forall_writable_iff]
  tauto

@[simp] theorem writable_dyn (behavior : String) (args : List Ty) :
    (Ty.dyn behavior args).Writable ↔
      IsClean behavior ∧ args.length < Decimal.wordCount ∧ ∀ t ∈ args, t.Writable := by
  rw [← writable_named "" behavior args, writable_iff, writable_iff]
  rfl

@[simp] theorem writable_tuple (elems : List Ty) : (Ty.tuple elems).Writable ↔
      elems.length < Decimal.wordCount ∧ ∀ t ∈ elems, t.Writable := by
  simp only [writable_iff (.tuple _), names, widths, forall_mem_cons, forall_writable_iff]
  tauto

@[simp] theorem writable_func (params : List Ty) (ret : Ty) : (Ty.func params ret).Writable ↔
      params.length < Decimal.wordCount ∧ (∀ t ∈ params, t.Writable) ∧ ret.Writable := by
  simp only [writable_iff (.func ..), writable_iff ret, names, widths, forall_mem_cons,
    forall_mem_append, forall_writable_iff]
  tauto

@[simp] theorem writable_closure (params : List Ty) (ret : Ty) : (Ty.closure params ret).Writable ↔
      params.length < Decimal.wordCount ∧ (∀ t ∈ params, t.Writable) ∧ ret.Writable := by
  rw [← writable_func params ret, writable_iff, writable_iff]
  rfl

@[simp] theorem writable_classRef (name : String) : (Ty.classRef name).Writable ↔ IsClean name := by
  simp [writable_iff, names, widths]

end Ty

/-! ### Words of marked types -/

namespace Symbol

@[simp] theorem words_apply (m : Mark) (t : Ty) : (m.apply t).words = markFirst m.text t.words := by
  cases m <;> rfl

@[simp] theorem writable_apply (m : Mark) (t : Ty) : (m.apply t).Writable ↔ t.Writable := by
  rw [Ty.writable_iff, Ty.writable_iff]
  cases m <;> rfl

/-- The text of a mark starts with a letter, and its only underscore is its end. -/
theorem mark_text (m : Mark) : Starts m.text.toList ∧ m.text.toList.IsChain Apart := by
  cases m with
  | ptr | slice => decide
  | ref mutable => cases mutable <;> decide
  | array length =>
      have hnumeral := (separable_iff_isChain _).1 (separable_numeral length.toNat)
      have htext : (Mark.array length).text.toList =
          "arr".toList ++ ((toString length.toNat).toList ++ ['_']) := by
        simp [Mark.text, arrayMark]
      rw [htext]
      refine ⟨rfl, List.IsChain.append (by decide) hnumeral fun x hx _ _ hx' => ?_⟩
      subst hx'
      exact absurd hx (by decide)

/-- A word that a type can start with. -/
structure First (word : String) : Prop where
  starts : Starts word.toList
  separable : Separable word.toList

instance : DecidablePred First := fun word =>
  decidable_of_iff (Starts word.toList ∧ Separable word.toList)
    ⟨fun h => ⟨h.1, h.2⟩, fun h => ⟨h.1, h.2⟩⟩

/-- A start whose only underscore is its end can be put in front. -/
theorem First.append {start word : String} (h : First word) (hstart : Starts start.toList)
    (hchain : start.toList.IsChain Apart) : First (start ++ word) where
  starts := by
    rw [String.toList_append]
    exact hstart.append _
  separable := by
    rw [String.toList_append]
    exact h.separable.mark hchain h.starts.ne_nil h.starts.head?_ne

theorem IsClean.first {name : String} (h : IsClean name) : First name := ⟨h.starts, h.separable⟩

theorem first_prim (kind : Primitive) : First kind.name := by
  cases kind <;> decide

end Symbol

/-! ### Words can be cut apart -/

namespace Ty

variable {N F W : String → Prop}

/-- What is known of the words of types if `N` is known of their names: `F` of the first word, and
`W` of all. -/
structure Wording (N F W : String → Prop) : Prop where
  first {word : String} : F word → W word
  count (n : Nat) : W (toString n)
  prim (kind : Primitive) : F kind.name
  head : ∀ word ∈ [tupleHead, funcHead, closureHead], F word
  name {name : String} : N name → F name
  start {name : String} : N name → ∀ start ∈ [dynMark, classMark], F (start ++ name)
  mark (m : Mark) {word : String} : F word → F (m.text ++ word)

/-- The words of a type: one that a type can start with, and then others. -/
structure Spelled (F W : String → Prop) (words : List String) : Prop where
  first : ∃ word rest, words = word :: rest ∧ F word
  all : ∀ word ∈ words, W word

namespace Wording

variable (hw : Wording N F W)

include hw

theorem cons {word : String} {rest : List String} (h : F word) (hrest : ∀ w ∈ rest, W w) :
    Spelled F W (word :: rest) where
  first := ⟨word, rest, rfl, h⟩
  all := forall_mem_cons.2 ⟨hw.first h, hrest⟩

theorem headed {word : String} {rest : List String}
    (h : word ∈ [tupleHead, funcHead, closureHead]) (n : Nat) (hrest : ∀ w ∈ rest, W w) :
    Spelled F W (word :: toString n :: rest) :=
  hw.cons (hw.head word h) (forall_mem_cons.2 ⟨hw.count n, hrest⟩)

theorem markFirst (m : Mark) {words : List String} (h : Spelled F W words) :
    Spelled F W (markFirst m.text words) := by
  obtain ⟨word, rest, rfl, hword⟩ := h.first
  exact hw.cons (hw.mark m hword) (forall_mem_cons.1 h.all).2

set_option linter.unusedSectionVars false in
mutual

theorem words : (t : Ty) → (∀ name ∈ t.names, N name) → Spelled F W t.words
  | .prim kind, _ => hw.cons (hw.prim kind) (forall_mem_nil _)
  | .named _ _ args, h =>
      have h := forall_mem_cons.1 h
      hw.cons (hw.name h.1) (countedWords args h.2)
  | .dyn _ args, h =>
      have h := forall_mem_cons.1 h
      hw.cons (hw.start h.1 dynMark (by decide)) (countedWords args h.2)
  | .classRef _, h =>
      hw.cons (hw.start (forall_mem_singleton.1 h) classMark (by decide)) (forall_mem_nil _)
  | .ref mutable t, h => hw.markFirst (.ref mutable) (words t h)
  | .ptr t, h => hw.markFirst .ptr (words t h)
  | .slice t, h => hw.markFirst .slice (words t h)
  | .array t length, h => hw.markFirst (.array length) (words t h)
  | .tuple elems, h => hw.headed (by decide) _ (wordsList elems h)
  | .func params ret, h | .closure params ret, h =>
      have h := forall_mem_append.1 h
      hw.headed (by decide) _ (forall_mem_append.2 ⟨wordsList params h.1, (words ret h.2).all⟩)

theorem wordsList : (ts : List Ty) → (∀ name ∈ namesList ts, N name) →
    ∀ word ∈ Ty.wordsList ts, W word
  | [], _ => forall_mem_nil _
  | t :: ts, h =>
      have h := forall_mem_append.1 h
      forall_mem_append.2 ⟨(words t h.1).all, wordsList ts h.2⟩

theorem countedWords : (ts : List Ty) → (∀ name ∈ namesList ts, N name) →
    ∀ word ∈ Ty.countedWords ts, W word
  | [], _ => forall_mem_nil _
  | t :: ts, h =>
      have h := forall_mem_append.1 h
      forall_mem_cons.2 ⟨hw.count _, forall_mem_append.2 ⟨(words t h.1).all, wordsList ts h.2⟩⟩

end

end Wording

/-- Clean names make words that can be cut apart, and a first word that is no count. -/
theorem wording_isClean : Wording IsClean First fun word => Separable word.toList where
  first h := h.separable
  count := separable_numeral
  prim := first_prim
  head := by decide
  name := IsClean.first
  start h := forall_mem_cons.2 ⟨h.first.append (by decide) (by decide),
    forall_mem_singleton.2 (h.first.append (by decide) (by decide))⟩
  mark m _ h := h.append (mark_text m).1 (mark_text m).2

theorem spelled_of_clean (t : Ty) (h : ∀ name ∈ t.names, IsClean name) :
    Spelled First (fun word => Separable word.toList) t.words :=
  wording_isClean.words t h

theorem spelled_words (t : Ty) (h : t.Writable) :
    Spelled First (fun word => Separable word.toList) t.words :=
  spelled_of_clean t h.clean

theorem separable_wordsList (ts : List Ty) (h : ∀ t ∈ ts, t.Writable) :
    ∀ word ∈ wordsList ts, Separable word.toList :=
  wording_isClean.wordsList ts ((forall_writable_iff ts).1 h).1

end Ty

end Monomorph
