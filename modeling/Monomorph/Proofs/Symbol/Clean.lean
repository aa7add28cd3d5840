import Monomorph.Proofs.Symbol.Words

/-!
# Clean names

A symbol shows a name as it is, so a name must not look like anything else that a word can say: a
mark in front of an element, a head word, a built-in kind, a count, or the end of the word. Clean
names are the names for which none of this happens. What reading makes of the first word of a type
is settled here: a clean name reads as itself, and a mark in front of a word is taken off alone.
-/

namespace Monomorph.Symbol

open List

/-! ### Names -/

/-- Texts that no clean name starts with. -/
def reservedStarts : List String :=
  [ptrMark, refMark false, refMark true, sliceMark, dynMark, classMark]

/-- Words that no clean name is: the head words, the built-in kinds and the size aliases. -/
def reservedWords : List String :=
  [tupleHead, funcHead, closureHead] ++ Primitive.all.map Primitive.name ++ ["Usize", "Isize"]

/-- Whether a word is `arr`, one or more digits, an underscore and a rest. -/
def looksLikeArray (w : Word) : Bool :=
  match "arr".toList.isPrefixOf? w with
  | none => false
  | some rest =>
      !(rest.takeWhile Char.isDigit).isEmpty && (rest.dropWhile Char.isDigit).head? = some '_'

/-- A name that a symbol shows without ambiguity. -/
structure IsClean (name : String) : Prop where
  identifier : isIdentifier name.toList = true
  letter : name.toList.head?.any Char.isAlpha = true
  separable : Separable name.toList
  unmarked : ∀ start ∈ reservedStarts, ¬ start.toList <+: name.toList
  notArray : looksLikeArray name.toList = false
  notReserved : name ∉ reservedWords

instance : DecidablePred IsClean := fun name =>
  decidable_of_iff
    (isIdentifier name.toList = true ∧ name.toList.head?.any Char.isAlpha = true ∧
      Separable name.toList ∧ (∀ start ∈ reservedStarts, ¬ start.toList <+: name.toList) ∧
      looksLikeArray name.toList = false ∧ name ∉ reservedWords)
    ⟨fun ⟨h₁, h₂, h₃, h₄, h₅, h₆⟩ => ⟨h₁, h₂, h₃, h₄, h₅, h₆⟩,
      fun ⟨h₁, h₂, h₃, h₄, h₅, h₆⟩ => ⟨h₁, h₂, h₃, h₄, h₅, h₆⟩⟩

example : IsClean "List" ∧ IsClean "arr_of" ∧ ¬ IsClean "arr4_T" ∧ ¬ IsClean "a__b" := by decide

/-! ### Letters, digits and underscores -/

/-- A word whose first character is a letter. -/
def Starts (w : Word) : Prop := w.head?.any Char.isAlpha = true

instance : DecidablePred Starts := fun w =>
  inferInstanceAs (Decidable (w.head?.any Char.isAlpha = true))

theorem isDigit_eq_false_of_isAlpha {c : Char} (h : c.isAlpha = true) : c.isDigit = false := by
  delta Char.isAlpha Char.isUpper Char.isLower at h
  delta Char.isDigit
  simp only [Bool.or_eq_true, Bool.and_eq_true, decide_eq_true_eq, UInt32.le_iff_toNat_le,
    ge_iff_le, Bool.and_eq_false_iff, decide_eq_false_iff_not] at h ⊢
  have hA : 'A'.val.toNat = 65 := rfl
  have ha : 'a'.val.toNat = 97 := rfl
  have h9 : '9'.val.toNat = 57 := rfl
  omega

theorem Starts.append {w : Word} (h : Starts w) (rest : Word) : Starts (w ++ rest) := by
  cases w with
  | nil => simp [Starts] at h
  | cons c w => exact h

theorem Starts.ne_nil {w : Word} (h : Starts w) : w ≠ [] := by
  rintro rfl
  simp [Starts] at h

theorem Starts.head?_ne {w : Word} (h : Starts w) : w.head? ≠ some '_' := by
  intro hw
  rw [Starts, hw] at h
  exact absurd h (by decide)

/-- A word that starts with a letter is no count. -/
theorem Starts.readCount?_eq {w : Word} (h : Starts w) : readCount? w = none := by
  cases w with
  | nil => rfl
  | cons c w =>
      have hc : c.isDigit = false := isDigit_eq_false_of_isAlpha h
      simp [readCount?, Decimal.read64?, hc]

/-! ### Numerals -/

theorem toList_numeral (n : Nat) : (toString n).toList = Nat.toDigits 10 n := by
  rw [Nat.toString_eq_ofList_toDigits, String.toList_ofList]

theorem numeral_injective {m n : Nat} (h : toString m = toString n) : m = n := by
  have hdigits := congrArg (fun w : String => Nat.ofDigitChars 10 w.toList 0) h
  simpa [toList_numeral] using hdigits

private theorem isDigit_of_mem_numeral {n : Nat} : ∀ c ∈ Nat.toDigits 10 n, c.isDigit = true :=
  fun _ => Nat.isDigit_of_mem_toDigits (by decide) (by decide)

/-- Numerals below `2 ^ 64` are read back. -/
theorem read64?_numeral {n : Nat} (h : n < Decimal.wordCount) :
    Decimal.read64? (Nat.toDigits 10 n) = some n := by
  have hvalue : Decimal.value (Nat.toDigits 10 n) = n := Nat.ofDigitChars_ten_toDigits
  have hdigits : (Nat.toDigits 10 n).all Char.isDigit = true :=
    all_eq_true.2 isDigit_of_mem_numeral
  simp [Decimal.read64?, hvalue, hdigits, h, Nat.toDigits_ne_nil]

/-- Counts are read back. -/
theorem readCount?_numeral {n : Nat} (h : n < Decimal.wordCount) :
    readCount? (toString n).toList = some n := by
  rw [toList_numeral, readCount?, read64?_numeral h]

theorem separable_numeral (n : Nat) : Separable (toString n).toList := by
  rw [toList_numeral]
  exact separable_of_notMem Nat.underscore_not_in_toDigits

/-! ### Marks -/

/-- The text of a mark. -/
def Mark.text : Mark → String
  | .ptr => ptrMark
  | .ref mutable => refMark mutable
  | .slice => sliceMark
  | .array length => arrayMark length

private theorem isPrefixOf?_append (m w : Word) : m.isPrefixOf? (m ++ w) = some w :=
  isPrefixOf?_eq_some_iff_append_eq.2 rfl

private theorem isPrefixOf?_eq_none {m w : Word} (h : ¬ m <+: w) : m.isPrefixOf? w = none :=
  Option.eq_none_iff_forall_ne_some.2 fun rest hrest =>
    h ⟨rest, append_eq_of_isPrefixOf?_eq_some hrest⟩

private theorem readArrayMark?_eq_none {w : Word} (h : looksLikeArray w = false) :
    readArrayMark? w = none := by
  simp only [looksLikeArray] at h
  cases hw : "arr".toList.isPrefixOf? w with
  | none => rw [readArrayMark?, hw, Option.bind_eq_bind, Option.bind_none]
  | some rest =>
      simp only [hw, Bool.and_eq_false_iff, Bool.not_eq_false', List.isEmpty_iff,
        decide_eq_false_iff_not] at h
      simp only [readArrayMark?, hw, Option.bind_eq_bind, Option.bind_some]
      rcases h with h | h
      · simp [h, Decimal.read64?]
      · cases Decimal.read64? (rest.takeWhile Char.isDigit) with
        | none => rfl
        | some length =>
            split
            next heq =>
              rw [heq] at h
              exact absurd rfl h
            · rfl

/-- A word that starts with no mark. -/
theorem readMark?_eq_none {w : Word} (hfixed : ∀ entry ∈ fixedMarks, ¬ entry.1.toList <+: w)
    (harray : looksLikeArray w = false) : readMark? w = none := by
  have hnone : (fixedMarks.findSome? fun entry =>
      (entry.1.toList.isPrefixOf? w).map fun rest => (entry.2, rest)) = none := by
    rw [findSome?_eq_none_iff]
    intro entry hentry
    rw [isPrefixOf?_eq_none (hfixed entry hentry), Option.map_none]
  rw [readMark?, hnone, readArrayMark?_eq_none harray]
  rfl

private theorem toList_arrayMark (length : UInt64) : (arrayMark length).toList =
      "arr".toList ++ (Nat.toDigits 10 length.toNat ++ ['_']) := by
  simp [arrayMark]

private theorem readArrayMark?_text (length : UInt64) (w : Word) :
    readArrayMark? ((arrayMark length).toList ++ w) = some (length, w) := by
  have hlt : length.toNat < Decimal.wordCount := length.toNat_lt
  rw [toList_arrayMark, append_assoc, append_assoc]
  simp only [readArrayMark?, isPrefixOf?_append, Option.bind_eq_bind, Option.bind_some]
  rw [takeWhile_append_of_pos isDigit_of_mem_numeral,
    dropWhile_append_of_pos isDigit_of_mem_numeral]
  simp [read64?_numeral hlt]

/-- The text of a mark is read as that mark, and only that mark is taken off. -/
theorem readMark?_text (m : Mark) (w : Word) : readMark? (m.text.toList ++ w) = some (m, w) := by
  cases m with
  | ptr => rfl
  | ref mutable => cases mutable <;> rfl
  | slice => rfl
  | array length =>
      have hnone : (fixedMarks.findSome? fun entry =>
          (entry.1.toList.isPrefixOf? ((arrayMark length).toList ++ w)).map
            fun rest => (entry.2, rest)) = none := by
        rw [toList_arrayMark]
        rfl
      rw [readMark?, Mark.text, hnone, readArrayMark?_text]
      rfl

private theorem length_lt_of_readArrayMark? {w rest : Word} {length : UInt64}
    (h : readArrayMark? w = some (length, rest)) : rest.length < w.length := by
  simp only [readArrayMark?, Option.bind_eq_bind, Option.bind_eq_some_iff] at h
  obtain ⟨tail, htail, n, -, h⟩ := h
  have hw := congrArg List.length (append_eq_of_isPrefixOf?_eq_some htail)
  rw [length_append] at hw
  split at h
  next inner hinner =>
    cases h
    have hdrop := (dropWhile_sublist (l := tail) Char.isDigit).length_le
    rw [hinner, length_cons] at hdrop
    omega
  · cases h

/-- Taking off a mark leaves a shorter word. -/
theorem length_lt_of_readMark? {w rest : Word} {m : Mark} (h : readMark? w = some (m, rest)) :
    rest.length < w.length := by
  rw [readMark?, Option.or_eq_some_iff] at h
  rcases h with h | ⟨-, h⟩
  · obtain ⟨entry, hentry, hfound⟩ := exists_of_findSome?_eq_some h
    obtain ⟨tail, htail, heq⟩ := Option.map_eq_some_iff.1 hfound
    cases heq
    have hw := congrArg List.length (append_eq_of_isPrefixOf?_eq_some htail)
    rw [length_append] at hw
    have hpos : ∀ entry ∈ fixedMarks, 0 < entry.1.toList.length := by decide
    have := hpos entry hentry
    omega
  · obtain ⟨⟨length, tail⟩, htail, heq⟩ := Option.map_eq_some_iff.1 h
    cases heq
    exact length_lt_of_readArrayMark? htail

/-- The length of a word is enough of a limit for its marks. -/
private theorem readMarksWithin_of_le : (limit : Nat) → (w : Word) → w.length ≤ limit →
    readMarksWithin limit w = readMarks w
  | 0, w, h => by rw [readMarks, Nat.le_zero.1 h]
  | limit + 1, w, h => by
      cases w with
      | nil => rfl
      | cons c w =>
          rw [readMarks, length_cons, readMarksWithin, readMarksWithin]
          cases hm : readMark? (c :: w) with
          | none => rfl
          | some found =>
              have hlt := length_lt_of_readMark? hm
              rw [length_cons] at h hlt
              have hleft := readMarksWithin_of_le limit found.2 (by omega)
              have hright := readMarksWithin_of_le w.length found.2 (by omega)
              simp only [hleft, hright]
termination_by _ w => w.length

theorem readMarks_eq_nil {w : Word} (h : readMark? w = none) : readMarks w = ([], w) := by
  rw [readMarks]
  cases w with
  | nil => rfl
  | cons c w => rw [length_cons, readMarksWithin, h]

/-- **Marks are read one by one.** The mark in front is read first, and then those of the rest. -/
theorem readMarks_append (m : Mark) (w : Word) :
    readMarks (m.text.toList ++ w) = (m :: (readMarks w).1, (readMarks w).2) := by
  have hm := readMark?_text m w
  have hlt := length_lt_of_readMark? hm
  obtain ⟨limit, hlimit⟩ := Nat.exists_eq_add_of_lt hlt
  rw [readMarks, hlimit, readMarksWithin, hm]
  simp only [readMarksWithin_of_le (w.length + limit) w (by omega)]

/-! ### Heads -/

/-- A word without marks reads as a head. -/
structure Reads (word : String) (head : Head) : Prop where
  marks : readMarks word.toList = ([], word.toList)
  head : readHead? word.toList = some head

theorem reads_tuple : Reads tupleHead .tuple := ⟨by decide, by decide⟩

theorem reads_func : Reads funcHead .func := ⟨by decide, by decide⟩

theorem reads_closure : Reads closureHead .closure := ⟨by decide, by decide⟩

theorem reads_prim (kind : Primitive) : Reads kind.name (.prim kind) := by
  cases kind <;> exact ⟨by decide, by decide⟩

theorem reads_dyn (behavior : String) : Reads (dynMark ++ behavior) (.dyn behavior) where
  marks := by
    rw [String.toList_append]
    exact readMarks_eq_nil rfl
  head := by
    rw [String.toList_append, readHead?, isPrefixOf?_append]
    simp only [String.ofList_toList]

theorem reads_classRef (name : String) : Reads (classMark ++ name) (.classRef name) where
  marks := by
    rw [String.toList_append]
    exact readMarks_eq_nil rfl
  head := by
    have hdyn : dynMark.toList.isPrefixOf? (classMark.toList ++ name.toList) = none := rfl
    rw [String.toList_append, readHead?, hdyn, isPrefixOf?_append]
    simp only [String.ofList_toList]

namespace IsClean

variable {name : String}

theorem starts (h : IsClean name) : Starts name.toList := h.letter

theorem ofName?_eq_none (h : IsClean name) : Primitive.ofName? name = none := by
  have hname := h.notReserved
  simp only [reservedWords, mem_append, mem_cons, not_mem_nil, or_false,
    not_or, mem_map, not_exists, not_and] at hname
  rw [Primitive.ofName?, if_neg hname.2.1, if_neg hname.2.2, find?_eq_none]
  intro kind hkind
  simpa using hname.1.2 kind hkind

/-- A clean name reads as itself. -/
theorem reads (h : IsClean name) : Reads name (.plain name) where
  marks := by
    refine readMarks_eq_nil (readMark?_eq_none (fun entry hentry => ?_) h.notArray)
    have hmem : ∀ entry ∈ fixedMarks, entry.1 ∈ reservedStarts := by decide
    exact h.unmarked entry.1 (hmem entry hentry)
  head := by
    have hdyn := isPrefixOf?_eq_none (h.unmarked dynMark (by decide))
    have hclass := isPrefixOf?_eq_none (h.unmarked classMark (by decide))
    have hword : ∀ word ∈ reservedWords, name ≠ word := fun word hword hname =>
      h.notReserved (hname ▸ hword)
    rw [readHead?, hdyn, hclass]
    simp only [String.ofList_toList, hword tupleHead (by decide), hword funcHead (by decide),
      hword closureHead (by decide), h.ofName?_eq_none, h.identifier, if_true, if_false]

end IsClean

end Monomorph.Symbol
