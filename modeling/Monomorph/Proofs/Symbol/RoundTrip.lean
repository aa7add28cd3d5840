import Monomorph.Proofs.Symbol.Identity

/-!
# Symbols are read back

A symbol is written in two modes: a nested type carries the count of its arguments, the outermost
nominal type does not. Reading inverts both, up to module qualifiers, which symbols leave out. The
words of a type are read in front of any further words that do not start with a count, so that a
type can be followed by its siblings or by nothing.

## Main results

* `Symbol.legible_of_writable`, `Symbol.decode?_symbol`, `Symbol.ofInstance_identifies_key`.
-/

namespace Monomorph.Symbol

open List

variable {args ts : List Ty} {words : List String} {word name : String} {t : Ty} {rest : List Word}
  {head : Head}

/-- The words of a type, character by character. -/
def spell (words : List String) : List Word := words.map String.toList

@[simp] theorem spell_cons (word : String) (words : List String) :
    spell (word :: words) = word.toList :: spell words := rfl

@[simp] theorem spell_append (words more : List String) :
    spell (words ++ more) = spell words ++ spell more := map_append

@[simp] theorem length_spell (words : List String) : (spell words).length = words.length :=
  length_map _

/-- Words that do not start with a count. -/
def Uncounted (words : List Word) : Prop := words.head?.bind readCount? = none

theorem uncounted_nil : Uncounted [] := rfl

theorem Uncounted.of_spelled {W : String → Prop} (h : Ty.Spelled First W words) :
    Uncounted (spell words) := by
  obtain ⟨word, more, rfl, hword⟩ := h.first
  exact hword.starts.readCount?_eq

/-- Every type has a first word. -/
theorem exists_words_eq_cons (t : Ty) : ∃ word words, t.words = word :: words := by
  have hmarked : ∀ mark words, ∃ word words', markFirst mark words = word :: words' := by
    rintro mark (_ | ⟨word, words⟩) <;> exact ⟨_, _, rfl⟩
  cases t with
  | ref | ptr | slice | array => exact hmarked _ _
  | _ => exact ⟨_, _, rfl⟩

theorem Uncounted.append (h : Uncounted (spell t.words)) (rest : List Word) :
    Uncounted (spell t.words ++ rest) := by
  obtain ⟨word, words, hwords⟩ := exists_words_eq_cons t
  rw [hwords] at h ⊢
  exact h

theorem uncounted_wordsList (h : ∀ t ∈ ts, Uncounted (spell t.words)) (hrest : Uncounted rest) :
    Uncounted (spell (Ty.wordsList ts) ++ rest) := by
  cases ts with
  | nil => exact hrest
  | cons t ts =>
      rw [Ty.wordsList, spell_append, append_assoc]
      exact (h t mem_cons_self).append _

@[simp] theorem unqualified_apply (m : Mark) (t : Ty) :
    (m.apply t).unqualified = m.apply t.unqualified := by
  cases m <;> rfl

/-! ### Reading one word -/

section

variable (readOne : List Word → Option (Ty × List Word)) {n : Nat}

theorem readCounted_of_uncounted {words : List Word} (h : Uncounted words) :
    readCounted readOne words = some ([], words) := by
  cases words with
  | nil => rfl
  | cons word words =>
      have hword : readCount? word = none := h
      rw [readCounted, hword]

theorem readCounted_numeral (h : n < Decimal.wordCount) (words : List Word) :
    readCounted readOne ((toString n).toList :: words) = readMany readOne n words := by
  rw [readCounted, readCount?_numeral h]

theorem readSized_numeral (h : n < Decimal.wordCount) (words : List Word) :
    readAfterHead.readSized readOne ((toString n).toList :: words) = readMany readOne n words := by
  rw [readAfterHead.readSized, readCount?_numeral h]
  rfl

end

/-- A word without marks leaves the rest to its head. -/
theorem readTyWithin_of_reads (h : Reads word head) (limit : Nat) (words : List Word) :
    readTyWithin (limit + 1) (word.toList :: words) =
      readAfterHead (readTyWithin limit) head words := by
  simp only [readTyWithin, h.marks, h.head, Option.bind_eq_bind, Option.bind_some, foldr_nil]
  exact Option.bind_fun_some _

/-- A mark wraps what is read without it. -/
theorem readTyWithin_mark (m : Mark) (limit : Nat) (word : Word) (words : List Word) :
    readTyWithin (limit + 1) ((m.text.toList ++ word) :: words) =
      (readTyWithin (limit + 1) (word :: words)).map fun found => (m.apply found.1, found.2) := by
  simp only [readTyWithin, readMarks_append, foldr_cons, Option.bind_eq_bind]
  cases readHead? (readMarks word).2 with
  | none => rfl
  | some head =>
      simp only [Option.bind_some]
      cases readAfterHead (readTyWithin limit) head words <;> rfl

/-! ### Reading a type -/

/-- The words of a type are read as the type without qualifiers, in front of any words that do not
start with a count. -/
def ReadsBack (t : Ty) : Prop :=
  ∀ limit rest, t.words.length ≤ limit → Uncounted rest →
    readTyWithin limit (spell t.words ++ rest) = some (t.unqualified, rest)

/-- The words of several types are read as these types. -/
def ReadsBackAll (ts : List Ty) : Prop :=
  ∀ limit rest, (Ty.wordsList ts).length ≤ limit → Uncounted rest →
    readMany (readTyWithin limit) ts.length (spell (Ty.wordsList ts) ++ rest) =
      some (Ty.unqualifiedList ts, rest)

/-- A type whose words are read back and do not start with a count. -/
structure Legible (t : Ty) : Prop where
  uncounted : Uncounted (spell t.words)
  readsBack : ReadsBack t

theorem readsBackAll_of_legible (h : ∀ t ∈ ts, Legible t) : ReadsBackAll ts := by
  induction ts with
  | nil => exact fun _ _ _ _ => rfl
  | cons t ts ih =>
      obtain ⟨ht, hts⟩ := forall_mem_cons.1 h
      intro limit rest hlimit hrest
      rw [Ty.wordsList, length_append] at hlimit
      have hfirst := ht.readsBack limit (spell (Ty.wordsList ts) ++ rest) (by omega)
        (uncounted_wordsList (fun u hu => (hts u hu).uncounted) hrest)
      have hothers := ih hts limit rest (by omega) hrest
      simp only [Ty.wordsList, spell_append, append_assoc, length_cons, readMany, hfirst,
        hothers, Ty.unqualifiedList, Option.bind_eq_bind, Option.bind_some, Option.pure_def]

/-- A type whose first word is unmarked is read back if what follows its head is. -/
private theorem ReadsBack.of_head {head : Head} (hwords : t.words = word :: words)
    (hword : Reads word head) (h : ∀ limit rest, words.length ≤ limit → Uncounted rest →
      readAfterHead (readTyWithin limit) head (spell words ++ rest) = some (t.unqualified, rest)) :
    ReadsBack t := by
  intro limit rest hlimit hrest
  rw [hwords, length_cons] at hlimit
  obtain ⟨limit, rfl⟩ := Nat.exists_eq_add_of_le' (Nat.le_of_add_left_le hlimit)
  rw [hwords, spell_cons, cons_append, readTyWithin_of_reads hword]
  exact h limit rest (by omega) hrest

/-- Counted arguments are read back. -/
private theorem readCounted_countedWords (hargs : ∀ t ∈ args, Legible t)
    (hcount : args.length < Decimal.wordCount) {limit : Nat} {rest : List Word}
    (hlimit : (Ty.countedWords args).length ≤ limit) (hrest : Uncounted rest) :
    readCounted (readTyWithin limit) (spell (Ty.countedWords args) ++ rest) =
      some (Ty.unqualifiedList args, rest) := by
  cases args with
  | nil => exact readCounted_of_uncounted _ hrest
  | cons t ts =>
      rw [Ty.countedWords_cons, length_cons] at hlimit
      rw [Ty.countedWords_cons, spell_cons, cons_append, readCounted_numeral _ hcount]
      exact readsBackAll_of_legible hargs limit rest (by omega) hrest

theorem ReadsBack.mark (m : Mark) (ht : ReadsBack t) : ReadsBack (m.apply t) := by
  intro limit rest hlimit hrest
  obtain ⟨word, words, hwords⟩ := exists_words_eq_cons t
  rw [words_apply, hwords, markFirst, length_cons] at hlimit
  obtain ⟨limit, rfl⟩ := Nat.exists_eq_add_of_le' (Nat.le_of_add_left_le hlimit)
  have hinner := ht (limit + 1) rest (by rw [hwords, length_cons]; omega) hrest
  rw [hwords, spell_cons, cons_append] at hinner
  rw [words_apply, hwords, markFirst, spell_cons, String.toList_append, cons_append,
    readTyWithin_mark, hinner, unqualified_apply]
  rfl

theorem readsBack_prim (kind : Primitive) : ReadsBack (.prim kind) :=
  .of_head rfl (reads_prim kind) fun _ _ _ _ => rfl

theorem readsBack_classRef (name : String) : ReadsBack (.classRef name) :=
  .of_head rfl (reads_classRef name) fun _ _ _ _ => rfl

theorem readsBack_named {qualifier : String} (hname : Reads name (.plain name))
    (hcount : args.length < Decimal.wordCount) (hargs : ∀ t ∈ args, Legible t) :
    ReadsBack (.named qualifier name args) := by
  refine .of_head rfl hname fun limit rest hlimit hrest => ?_
  rw [readAfterHead, readCounted_countedWords hargs hcount hlimit hrest]
  rfl

theorem readsBack_dyn {behavior : String} (hcount : args.length < Decimal.wordCount)
    (hargs : ∀ t ∈ args, Legible t) : ReadsBack (.dyn behavior args) := by
  refine .of_head rfl (reads_dyn behavior) fun limit rest hlimit hrest => ?_
  rw [readAfterHead, readCounted_countedWords hargs hcount hlimit hrest]
  rfl

theorem readsBack_tuple {elems : List Ty} (hcount : elems.length < Decimal.wordCount)
    (helems : ∀ t ∈ elems, Legible t) : ReadsBack (.tuple elems) := by
  refine .of_head rfl reads_tuple fun limit rest hlimit hrest => ?_
  rw [length_cons] at hlimit
  rw [readAfterHead, spell_cons, cons_append, readSized_numeral _ hcount,
    readsBackAll_of_legible helems limit rest (by omega) hrest]
  rfl

/-- The parameters of a function-like type are read back in front of its result. -/
private theorem readSized_params {params : List Ty} {ret : Ty}
    (hcount : params.length < Decimal.wordCount) (hparams : ∀ t ∈ params, Legible t)
    (hret : Legible ret) {limit : Nat}
    (hlimit : (Ty.wordsList params).length ≤ limit)
    (rest : List Word) :
    readAfterHead.readSized (readTyWithin limit)
        (spell (toString params.length :: (Ty.wordsList params ++ ret.words)) ++ rest) =
      some (Ty.unqualifiedList params, spell ret.words ++ rest) := by
  rw [spell_cons, spell_append, cons_append, append_assoc, readSized_numeral _ hcount,
    readsBackAll_of_legible hparams limit _ hlimit (hret.uncounted.append rest)]

theorem readsBack_signature {params : List Ty} {ret : Ty}
    (hcount : params.length < Decimal.wordCount) (hparams : ∀ t ∈ params, Legible t)
    (hret : Legible ret) :
    ReadsBack (.func params ret) ∧ ReadsBack (.closure params ret) := by
  refine ⟨.of_head rfl reads_func ?_, .of_head rfl reads_closure ?_⟩
  all_goals
    intro limit rest hlimit hrest
    rw [length_cons, length_append] at hlimit
    have hlist : (Ty.wordsList params).length ≤ limit := by omega
    simp only [readAfterHead, readSized_params hcount hparams hret hlist,
      hret.readsBack limit rest (by omega) hrest, Option.bind_eq_bind, Option.bind_some,
      Option.pure_def, Ty.unqualified]

mutual

theorem readsBack_of_writable : (t : Ty) → t.Writable → ReadsBack t
  | .prim kind, _ => readsBack_prim kind
  | .classRef name, _ => readsBack_classRef name
  | .named _ _ args, h => by
      rw [Ty.writable_named] at h
      exact readsBack_named h.1.reads h.2.1 (legible_of_writableList args h.2.2)
  | .dyn _ args, h => by
      rw [Ty.writable_dyn] at h
      exact readsBack_dyn h.2.1 (legible_of_writableList args h.2.2)
  | .ref mutable t, h =>
      (readsBack_of_writable t ((writable_apply (.ref mutable) t).1 h)).mark (.ref mutable)
  | .ptr t, h => (readsBack_of_writable t ((writable_apply .ptr t).1 h)).mark .ptr
  | .slice t, h => (readsBack_of_writable t ((writable_apply .slice t).1 h)).mark .slice
  | .array t length, h =>
      (readsBack_of_writable t ((writable_apply (.array length) t).1 h)).mark (.array length)
  | .tuple elems, h => by
      rw [Ty.writable_tuple] at h
      exact readsBack_tuple h.1 (legible_of_writableList elems h.2)
  | .func params ret, h => by
      rw [Ty.writable_func] at h
      exact (readsBack_signature h.1 (legible_of_writableList params h.2.1)
        ⟨.of_spelled (Ty.spelled_words ret h.2.2), readsBack_of_writable ret h.2.2⟩).1
  | .closure params ret, h => by
      rw [Ty.writable_closure] at h
      exact (readsBack_signature h.1 (legible_of_writableList params h.2.1)
        ⟨.of_spelled (Ty.spelled_words ret h.2.2), readsBack_of_writable ret h.2.2⟩).2

/-- **The words of writable types are read back**, whatever comes after them. -/
theorem legible_of_writableList : (ts : List Ty) → (∀ t ∈ ts, t.Writable) → ∀ t ∈ ts, Legible t
  | [], _ => forall_mem_nil _
  | t :: ts, h => by
      rw [forall_mem_cons] at h
      exact forall_mem_cons.2 ⟨⟨.of_spelled (Ty.spelled_words t h.1),
        readsBack_of_writable t h.1⟩, legible_of_writableList ts h.2⟩

end

theorem legible_of_writable (h : t.Writable) : Legible t :=
  ⟨.of_spelled (Ty.spelled_words t h), readsBack_of_writable t h⟩

/-! ### Reading to the end -/

theorem readTy_words (h : Legible t) (hrest : Uncounted rest) :
    readTy (spell t.words ++ rest) = some (t.unqualified, rest) := by
  refine h.readsBack _ rest ?_ hrest
  rw [length_append, length_spell]
  omega

/-- Types are read until no word is left. -/
private theorem readAllWithin_wordsList : (ts : List Ty) → (∀ t ∈ ts, Legible t) →
    (limit : Nat) → (Ty.wordsList ts).length ≤ limit →
      readAllWithin limit (spell (Ty.wordsList ts)) = some (Ty.unqualifiedList ts)
  | [], _, _, _ => by rw [readAllWithin.eq_def]; rfl
  | t :: ts, h, limit, hlimit => by
      rw [forall_mem_cons] at h
      obtain ⟨word, words, hwords⟩ := exists_words_eq_cons t
      have htail := uncounted_wordsList (fun u hu => (h.2 u hu).uncounted) uncounted_nil
      rw [append_nil] at htail
      have ht := readTy_words h.1 htail
      rw [Ty.wordsList, length_append, hwords, length_cons] at hlimit
      obtain ⟨limit, rfl⟩ := Nat.exists_eq_add_of_le' (Nat.le_of_add_left_le (by omega :
        words.length + (Ty.wordsList ts).length + 1 ≤ limit))
      have hothers := readAllWithin_wordsList ts h.2 limit (by omega)
      rw [hwords, spell_cons, cons_append] at ht
      rw [Ty.wordsList, spell_append, hwords, spell_cons, cons_append, readAllWithin, ht]
      simp only [hothers, Option.bind_eq_bind, Option.bind_some, Option.pure_def,
        Ty.unqualifiedList]

theorem readAll_wordsList (h : ∀ t ∈ ts, Legible t) :
    readAll (spell (Ty.wordsList ts)) = some (Ty.unqualifiedList ts) :=
  readAllWithin_wordsList ts h _ (by rw [length_spell])

/-! ### Whole symbols -/

/-- A word that does not start an outermost nominal type: it has marks or another head. -/
def IsNested (word : Word) : Prop :=
  ∀ name, readMarks word = ([], word) → readHead? word ≠ some (.plain name)

theorem Reads.isNested (h : Reads word head) (hhead : ∀ name, head ≠ .plain name) :
    IsNested word.toList := by
  intro name _ hplain
  rw [h.head] at hplain
  exact hhead name (Option.some.inj hplain)

theorem isNested_mark (m : Mark) (word : String) : IsNested (m.text ++ word).toList := by
  intro name hmarks
  rw [String.toList_append, readMarks_append] at hmarks
  exact absurd (congrArg Prod.fst hmarks) (cons_ne_nil _ _)

theorem readMarksWithin_snd {core : Word} : {limit : Nat} → {word : Word} →
    readMarksWithin limit word = ([], core) → core = word
  | 0, word, h => (congrArg Prod.snd h).symm
  | limit + 1, word, h => by
      rw [readMarksWithin] at h
      split at h
      · exact (congrArg Prod.snd h).symm
      · exact absurd (congrArg Prod.fst h) (cons_ne_nil _ _)

/-- A symbol that starts no outermost nominal type is read as a nested type. -/
theorem decode?_of_legible (h : Legible t) (hcut : Cut (spell t.words))
    (hwords : t.words = word :: words) (hnested : IsNested word.toList) :
    decode? (joinWords t.words) = some t.unqualified := by
  have hsplit := splitWords_joinWords_of_cut (by simp [hwords]) hcut
  have hread := readTy_words h uncounted_nil
  rw [append_nil, hwords, spell_cons] at hread
  rw [hwords] at hsplit
  rw [decode?, hwords, hsplit, map_cons]
  dsimp only
  split
  next core name hmarks hhead =>
    rw [readMarksWithin_snd hmarks] at hmarks
    exact absurd hhead (hnested name hmarks)
  · rw [show words.map String.toList = spell words from rfl, hread]

private theorem decode?_of_isNested (h : t.Writable) (hwords : t.words = word :: words)
    (hnested : IsNested word.toList) : decode? (joinWords t.words) = some t.unqualified :=
  decode?_of_legible (legible_of_writable h)
    (cut_of_separable (forall_mem_map.2 (Ty.spelled_words t h).all)) hwords hnested

/-- The symbol of an outermost nominal type gives all its further words to the arguments. -/
theorem decode?_ofInstance_of_legible (hname : Reads name (.plain name))
    (hargs : ∀ t ∈ args, Legible t) (hcut : Cut (spell (name :: Ty.wordsList args))) :
    decode? (ofInstance name args) = some (.ofName name (Ty.unqualifiedList args)) := by
  have hsplit := splitWords_joinWords_of_cut (cons_ne_nil name (Ty.wordsList args)) hcut
  rw [decode?, ofInstance, hsplit, map_cons]
  simp only [hname.marks, hname.head]
  rw [show (Ty.wordsList args).map String.toList = spell (Ty.wordsList args) from rfl,
    readAll_wordsList hargs]
  rfl

private theorem decode?_ofInstance {name : String} (hname : IsClean name)
    (hargs : ∀ t ∈ args, t.Writable) :
    decode? (ofInstance name args) = some (.ofName name (Ty.unqualifiedList args)) :=
  decode?_ofInstance_of_legible hname.reads (legible_of_writableList args hargs)
    (cut_of_separable (forall_mem_map.2
      (forall_mem_cons.2 ⟨hname.separable, Ty.separable_wordsList args hargs⟩)))

theorem decode?_of_writable (h : t.Writable) : decode? t.symbol = some t.unqualified := by
  have marked (m : Mark) (inner : Ty) (hinner : (m.apply inner).Writable) :
      decode? (joinWords (m.apply inner).words) = some (m.apply inner).unqualified := by
    obtain ⟨word, words, hwords, -⟩ :=
      (Ty.spelled_words inner ((writable_apply m inner).1 hinner)).first
    have hmarked : (m.apply inner).words = (m.text ++ word) :: words := by
      rw [words_apply, hwords, markFirst]
    exact decode?_of_isNested hinner hmarked (isNested_mark m word)
  cases t with
  | named qualifier name args =>
      rw [Ty.writable_named] at h
      exact decode?_ofInstance h.1 h.2.2
  | prim kind => exact decode?_of_isNested h rfl ((reads_prim kind).isNested (by simp))
  | classRef name => exact decode?_of_isNested h rfl ((reads_classRef name).isNested (by simp))
  | dyn behavior args => exact decode?_of_isNested h rfl ((reads_dyn behavior).isNested (by simp))
  | tuple elems => exact decode?_of_isNested h rfl (reads_tuple.isNested (by simp))
  | func params ret => exact decode?_of_isNested h rfl (reads_func.isNested (by simp))
  | closure params ret => exact decode?_of_isNested h rfl (reads_closure.isNested (by simp))
  | ref mutable inner => exact marked (.ref mutable) inner h
  | ptr inner => exact marked .ptr inner h
  | slice elem => exact marked .slice elem h
  | array elem length => exact marked (.array length) elem h

/-- Types with one symbol are equal up to qualifiers. -/
theorem unqualified_eq_of_symbol_eq {t' : Ty} (h : t.Writable) (h' : t'.Writable)
    (heq : t.symbol = t'.symbol) : t.unqualified = t'.unqualified := by
  have hread := decode?_of_writable h
  rw [heq, decode?_of_writable h'] at hread
  exact (Option.some.inj hread).symm

/-- **Symbols of types are read back.** The symbol of a type whose names are clean reads as the
type with its qualifiers erased, which agrees with it. -/
theorem decode?_symbol (t : Ty) (h : t.Writable) :
    decode? t.symbol = some t.unqualified ∧ t.unqualified.agrees t = true :=
  ⟨decode?_of_writable h, t.unqualified_agrees⟩

/-- A type with qualifiers, marks in a row, counted lists of several lengths and a class name. -/
def deepType : Ty :=
  .named "lib" "Map"
    [.ref true (.ptr (.array (.named "lib::core" "Pair" [.prim .i32, .tuple []]) 4)),
    .closure [.dyn "Show" [.slice (.prim .u8)], .classRef "Node"] (.func [] (.named "m" "T" []))]

theorem decode?_symbol_deepType :
    deepType.Writable ∧ decode? deepType.symbol = some deepType.unqualified ∧
      deepType.unqualified.agrees deepType = true :=
  have h : deepType.Writable := by decide
  ⟨h, decode?_symbol deepType h⟩

/-! ### Instances -/

mutual

/-- Symbols do not show qualifiers. -/
theorem words_unqualified : (t : Ty) → t.unqualified.words = t.words
  | .prim _ | .classRef _ => rfl
  | .named _ _ args | .dyn _ args => by
      simp only [Ty.unqualified, Ty.words, countedWords_unqualifiedList args]
  | .ref _ t | .ptr t | .slice t | .array t _ => by
      simp only [Ty.unqualified, Ty.words, words_unqualified t]
  | .tuple elems => by
      simp only [Ty.unqualified, Ty.words, wordsList_unqualifiedList elems,
        Ty.length_unqualifiedList]
  | .func params ret | .closure params ret => by
      simp only [Ty.unqualified, Ty.words, wordsList_unqualifiedList params, words_unqualified ret,
        Ty.length_unqualifiedList]

theorem wordsList_unqualifiedList : (ts : List Ty) →
    Ty.wordsList (Ty.unqualifiedList ts) = Ty.wordsList ts
  | [] => rfl
  | t :: ts => by
      simp only [Ty.unqualifiedList, Ty.wordsList, words_unqualified t,
        wordsList_unqualifiedList ts]

theorem countedWords_unqualifiedList : (ts : List Ty) →
    Ty.countedWords (Ty.unqualifiedList ts) = Ty.countedWords ts
  | [] => rfl
  | t :: ts => by
      simp only [Ty.unqualifiedList, Ty.countedWords, words_unqualified t,
        wordsList_unqualifiedList ts, Ty.length_unqualifiedList]

end

/-- A base and arguments that name an instance: the base can be cut off, and the arguments can be
written. -/
structure IsKey (base : String) (args : List Ty) : Prop where
  base : Separable base.toList
  args : ∀ t ∈ args, t.Writable

private theorem decodeInstance?_ofInstance {base : String} (h : IsKey base args) :
    decodeInstance? (ofInstance base args) = some (base, Ty.unqualifiedList args) := by
  have hsplit := splitWords_joinWords (cons_ne_nil base (Ty.wordsList args))
    (forall_mem_cons.2 ⟨h.base, Ty.separable_wordsList args h.args⟩)
  rw [decodeInstance?, ofInstance, hsplit, map_cons]
  dsimp only
  rw [show (Ty.wordsList args).map String.toList = spell (Ty.wordsList args) from rfl,
    readAll_wordsList (legible_of_writableList args h.args), Option.map_some, String.ofList_toList]

theorem key_eq_of_ofInstance_eq {base base' : String} {args' : List Ty} (h : IsKey base args)
    (h' : IsKey base' args') (heq : ofInstance base args = ofInstance base' args') :
    base = base' ∧ Ty.unqualifiedList args = Ty.unqualifiedList args' :=
  key_eq_of_symbol_eq h.base h'.base ((Ty.forall_writable_iff args).1 h.args).1
    ((Ty.forall_writable_iff args').1 h'.args).1 heq

/-- **Instance symbols identify their keys.** The symbol of an instance gives back its base and its
arguments with their qualifiers erased, so two instances have one symbol exactly if they have one
base and as many arguments, which agree pairwise. -/
theorem ofInstance_identifies_key {base : String} {args : List Ty} (h : IsKey base args) :
    decodeInstance? (ofInstance base args) = some (base, Ty.unqualifiedList args) ∧
      ∀ base' args', IsKey base' args' →
        (ofInstance base args = ofInstance base' args' ↔
          base = base' ∧ List.Forall₂ (fun a b => a.agrees b = true) args args') := by
  refine ⟨decodeInstance?_ofInstance h, fun base' args' h' => ?_⟩
  rw [← Ty.unqualifiedList_eq_iff]
  refine ⟨key_eq_of_ofInstance_eq h h', ?_⟩
  rintro ⟨rfl, hargs⟩
  rw [ofInstance, ofInstance, ← wordsList_unqualifiedList args, hargs,
    wordsList_unqualifiedList args']

/-- Two keys that differ in a qualifier, with a base that is no clean name, share their symbol. -/
theorem ofInstance_identifies_key_qualifiers :
    IsKey "_tuple" [.named "lib" "Pair" [.prim .i32, .tuple []]] ∧
      IsKey "_tuple" [.named "" "Pair" [.prim .i32, .tuple []]] ∧
      decodeInstance? (ofInstance "_tuple" [.named "lib" "Pair" [.prim .i32, .tuple []]]) =
        some ("_tuple", [.named "" "Pair" [.prim .i32, .tuple []]]) ∧
      ofInstance "_tuple" [.named "lib" "Pair" [.prim .i32, .tuple []]] =
        ofInstance "_tuple" [.named "" "Pair" [.prim .i32, .tuple []]] :=
  have h : IsKey "_tuple" [.named "lib" "Pair" [.prim .i32, .tuple []]] :=
    ⟨by decide, by decide⟩
  have h' : IsKey "_tuple" [.named "" "Pair" [.prim .i32, .tuple []]] := ⟨by decide, by decide⟩
  ⟨h, h', (ofInstance_identifies_key h).1,
    ((ofInstance_identifies_key h).2 _ _ h').2 ⟨rfl, .cons (by decide) .nil⟩⟩

end Monomorph.Symbol
