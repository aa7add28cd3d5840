import Monomorph.Proofs.Instance.Runs
import Monomorph.Proofs.Symbol.Identity
import Monomorph.Proofs.Symbol.RoundTrip

/-!
# Symbols of methods

The symbol of a method is the owner's instance and the method's, joined by one underscore. One
underscore may also stand inside a name and behind a mark, so the joint is found again only if
nothing before it looks like a joint: the owner and the names in its arguments have no underscore,
and none of the names in its arguments is spelled like a mark. Nothing is asked of the method. For
such keys symbols tell methods apart, and a worklist drops a request only if it is a repeated one.

## Main results

* `Symbol.Closed.ne_append`, `Symbol.attach_append_injective`, `Symbol.IsMethodKey.symbol_eq_iff`,
  `Worklist.require_drops_only_repeats`.
-/

namespace Monomorph

open List

namespace Symbol

/-! ### Words that end at an underscore -/

/-- A word that one underscore turns into a mark. -/
def IsMarkWord (w : Word) : Prop :=
  (∃ start ∈ reservedStarts, start.toList = w ++ ['_']) ∨ looksLikeArray (w ++ ['_']) = true

instance : DecidablePred IsMarkWord := fun w =>
  inferInstanceAs (Decidable ((∃ start ∈ reservedStarts, start.toList = w ++ ['_']) ∨
    looksLikeArray (w ++ ['_']) = true))

/-- A text without underscores that is not spelled like a mark either. -/
structure IsSolid (w : Word) : Prop where
  unbroken : '_' ∉ w
  notMark : ¬ IsMarkWord w

instance : DecidablePred IsSolid := fun w =>
  decidable_of_iff ('_' ∉ w ∧ ¬ IsMarkWord w) ⟨fun h => ⟨h.1, h.2⟩, fun h => ⟨h.1, h.2⟩⟩

/-- A word whose underscores all stand behind marks. -/
inductive Closed : Word → Prop
  /-- A solid text. -/
  | solid {w} (h : IsSolid w) : Closed w
  /-- A mark in front of a closed word. -/
  | mark {s w} (hs : '_' ∉ s) (hmark : IsMarkWord s) (hw : Closed w) :
      Closed (s ++ '_' :: w)

/-- Texts without underscores that are followed by one underscore in the same text are equal. -/
theorem eq_of_unbroken {s s' x x' : Word} (hs : '_' ∉ s) (hs' : '_' ∉ s')
    (heq : s ++ '_' :: x = s' ++ '_' :: x') : s = s' ∧ x = x' := by
  induction s generalizing s' with
  | nil =>
    cases s' with
    | nil => exact ⟨rfl, (List.cons.inj heq).2⟩
    | cons c s' => exact absurd ((List.cons.inj heq).1 ▸ mem_cons_self) hs'
  | cons c s ih =>
    cases s' with
    | nil => exact absurd ((List.cons.inj heq).1 ▸ mem_cons_self) hs
    | cons c' s' =>
      obtain ⟨rfl, htail⟩ := List.cons.inj heq
      obtain ⟨rfl, hrest⟩ :=
        ih (fun h => hs (mem_cons_of_mem _ h)) (fun h => hs' (mem_cons_of_mem _ h)) htail
      exact ⟨rfl, hrest⟩

/-- A closed word and an underscore do not start a closed word. -/
theorem Closed.ne_append {w w' : Word} (h : Closed w) (h' : Closed w') (x : Word) :
    w' ≠ w ++ '_' :: x := by
  induction h generalizing w' with
  | solid hw =>
    intro heq
    cases h' with
    | solid hw' => exact hw'.unbroken (by rw [heq]; simp)
    | mark hs hmark _ =>
      obtain ⟨rfl, -⟩ := eq_of_unbroken hs hw.unbroken heq
      exact hw.notMark hmark
  | mark hs _ _ ih =>
    intro heq
    cases h' with
    | solid hw' => exact hw'.unbroken (by rw [heq]; simp)
    | mark hs' _ hw' =>
      rw [append_assoc, cons_append] at heq
      exact ih hw' (eq_of_unbroken hs' hs heq).2

/-! ### Closed words of types -/

theorem looksLikeArray_numeral (n : Nat) :
    looksLikeArray ("arr".toList ++ Nat.toDigits 10 n ++ ['_']) = true := by
  have hdigits : ∀ c ∈ Nat.toDigits 10 n, c.isDigit = true :=
    fun _ => Nat.isDigit_of_mem_toDigits (by decide) (by decide)
  have hrest : "arr".toList.isPrefixOf? ("arr".toList ++ (Nat.toDigits 10 n ++ ['_'])) =
      some (Nat.toDigits 10 n ++ ['_']) := isPrefixOf?_eq_some_iff_append_eq.2 rfl
  rw [looksLikeArray, append_assoc, hrest]
  simp only [takeWhile_append_of_pos hdigits, dropWhile_append_of_pos hdigits]
  simp [Nat.toDigits_ne_nil]

/-- The text of a mark is a word that one underscore turns into a mark, and that underscore. -/
theorem exists_text_eq (m : Mark) : ∃ s, m.text.toList = s ++ ['_'] ∧ '_' ∉ s ∧ IsMarkWord s := by
  cases m with
  | ptr => exact ⟨"ptr".toList, rfl, by decide, by decide⟩
  | ref mutable =>
    cases mutable with
    | false => exact ⟨"ref".toList, rfl, by decide, by decide⟩
    | true => exact ⟨"mutref".toList, rfl, by decide, by decide⟩
  | slice => exact ⟨"slice".toList, rfl, by decide, by decide⟩
  | array length =>
    refine ⟨"arr".toList ++ Nat.toDigits 10 length.toNat, by simp [Mark.text, arrayMark], ?_,
      .inr (looksLikeArray_numeral _)⟩
    rw [mem_append, not_or]
    exact ⟨by decide, Nat.underscore_not_in_toDigits⟩

/-- A word that one underscore turns into a mark starts with a letter. -/
theorem IsMarkWord.starts {w : Word} (h : IsMarkWord w) : Starts w := by
  obtain ⟨start, hstart, heq⟩ | h := h
  · have hall : ∀ start ∈ reservedStarts, Starts start.toList.dropLast := by decide
    have := hall start hstart
    rwa [heq, dropLast_concat] at this
  · rw [looksLikeArray] at h
    split at h
    · cases h
    next rest hrest =>
      have htext := append_eq_of_isPrefixOf?_eq_some hrest
      cases w with
      | nil => cases htext
      | cons c w =>
        obtain ⟨rfl, -⟩ := List.cons.inj htext
        rfl

theorem isSolid_numeral (n : Nat) : IsSolid (toString n).toList where
  unbroken := by
    rw [toList_numeral]
    exact Nat.underscore_not_in_toDigits
  notMark h := Ty.not_starts_numeral n h.starts

theorem isSolid_prim (kind : Primitive) : IsSolid kind.name.toList := by
  cases kind <;> decide

theorem Closed.append {start word : String} {s : Word} (h : Closed word.toList)
    (htext : start.toList = s ++ ['_']) (hs : '_' ∉ s) (hmark : IsMarkWord s) :
    Closed (start ++ word).toList := by
  rw [String.toList_append, htext, append_assoc]
  exact .mark hs hmark h

/-- Solid names make closed words. -/
theorem wording_isSolid : Ty.Wording (fun name => IsSolid name.toList)
    (fun word => Closed word.toList) fun word => Closed word.toList where
  first := id
  count n := .solid (isSolid_numeral n)
  prim kind := .solid (isSolid_prim kind)
  head word h := .solid
    ((by decide : ∀ head ∈ [tupleHead, funcHead, closureHead], IsSolid head.toList) word h)
  name := .solid
  start h := forall_mem_cons.2
    ⟨.append (.solid h) (s := "dyn".toList) rfl (by decide) (by decide), forall_mem_singleton.2
      (.append (.solid h) (s := "class".toList) rfl (by decide) (by decide))⟩
  mark m _ h := by
    obtain ⟨s, htext, hs, hmark⟩ := exists_text_eq m
    exact h.append htext hs hmark

/-! ### The joint -/

/-- Words with a text joined to the last of them by one underscore. -/
def attach : List String → String → List String
  | [], text => [text]
  | [word], text => [word ++ "_" ++ text]
  | word :: words, text => word :: attach words text

theorem attach_cons_cons (word next : String) (words : List String) (text : String) :
    attach (word :: next :: words) text = word :: attach (next :: words) text := rfl

theorem attach_ne_nil (words : List String) (text : String) : attach words text ≠ [] := by
  cases words with
  | nil => exact cons_ne_nil _ _
  | cons word words => cases words <;> exact cons_ne_nil _ _

/-- Two words of which neither starts with the other and an underscore. -/
def Unjoined (w w' : Word) : Prop := ∀ x, w' ≠ w ++ '_' :: x ∧ w ≠ w' ++ '_' :: x

theorem Closed.unjoined {w w' : Word} (h : Closed w) (h' : Closed w') : Unjoined w w' :=
  fun x => ⟨h.ne_append h' x, h'.ne_append h x⟩

theorem unjoined_of_unbroken {w w' : Word} (h : '_' ∉ w) (h' : '_' ∉ w') : Unjoined w w' := by
  refine fun x => ⟨?_, ?_⟩
  · rintro rfl
    simp at h'
  · rintro rfl
    simp at h

/-- The joints of two texts are at the same place, since neither word runs beyond it. -/
theorem Unjoined.eq_of_append {w w' x x' : Word} (h : Unjoined w w')
    (heq : w ++ '_' :: x = w' ++ '_' :: x') : w = w' ∧ x = x' := by
  obtain ⟨r, hw, hx⟩ | ⟨r, hw, hx⟩ := append_eq_append_iff.1 heq
  · cases r with
    | nil => exact ⟨by rw [hw, append_nil], (List.cons.inj hx).2⟩
    | cons c r =>
      obtain ⟨rfl, -⟩ := List.cons.inj hx
      exact absurd hw (h r).1
  · cases r with
    | nil => exact ⟨by rw [hw, append_nil], (List.cons.inj hx).2.symm⟩
    | cons c r =>
      obtain ⟨rfl, -⟩ := List.cons.inj hx
      exact absurd hw (h r).2

theorem toList_joint (word text : String) :
    (word ++ "_" ++ text).toList = word.toList ++ '_' :: text.toList := by
  simp

/-- The joint is found again: words that are pairwise unjoined, the text joined to the last of them
and the words that follow can all be read off. -/
theorem attach_append_injective {words words' rest rest' : List String} {text text' : String}
    (hne : words ≠ []) (hne' : words' ≠ [])
    (h : ∀ pair ∈ words.zip words', Unjoined pair.1.toList pair.2.toList)
    (heq : attach words text ++ rest = attach words' text' ++ rest') :
    words = words' ∧ text = text' ∧ rest = rest' := by
  induction words generalizing words' with
  | nil => exact absurd rfl hne
  | cons word words ih =>
    cases words' with
    | nil => exact absurd rfl hne'
    | cons word' words' =>
      obtain ⟨hword, hwords⟩ := forall_mem_cons.1 h
      cases words with
      | nil =>
        cases words' with
        | nil =>
          obtain ⟨hjoint, hrest⟩ := List.cons.inj heq
          have hlist := congrArg String.toList hjoint
          rw [toList_joint, toList_joint] at hlist
          obtain ⟨hw, htext⟩ := hword.eq_of_append hlist
          exact ⟨congrArg (fun w => [w]) (String.toList_inj.1 hw), String.toList_inj.1 htext, hrest⟩
        | cons next' words' =>
          -- The text would be joined to a word that is not the last one on the other side.
          have hjoint := (List.cons.inj heq).1
          exact absurd (by rw [← hjoint, toList_joint]) (hword text.toList).1
      | cons next words =>
        cases words' with
        | nil =>
          have hjoint := (List.cons.inj heq).1
          exact absurd (by rw [hjoint, toList_joint]) (hword text'.toList).2
        | cons next' words' =>
          obtain ⟨rfl, hrest⟩ := List.cons.inj heq
          obtain ⟨htail, htext, hrests⟩ :=
            ih (cons_ne_nil _ _) (cons_ne_nil _ _) hwords hrest
          exact ⟨by rw [htail], htext, hrests⟩

/-- Words with a text attached are separable if the words and the text are. -/
theorem separable_attach {words : List String} {text : String} (htext : First text)
    (h : ∀ word ∈ words, Separable word.toList) :
    ∀ word ∈ attach words text, Separable word.toList := by
  induction words with
  | nil => exact forall_mem_singleton.2 htext.separable
  | cons word words ih =>
    obtain ⟨hword, hwords⟩ := forall_mem_cons.1 h
    cases words with
    | nil =>
      refine forall_mem_singleton.2 ?_
      rw [String.toList_append]
      refine htext.separable.mark ?_ htext.starts.ne_nil htext.starts.head?_ne
      rw [String.toList_append]
      exact (separable_iff_isChain _).1 hword
    | cons next words => exact forall_mem_cons.2 ⟨hword, ih hwords⟩

theorem joinWords_cons {words : List String} (word : String) (hne : words ≠ []) :
    joinWords (word :: words) = word ++ separator ++ joinWords words := by
  cases words with
  | nil => exact absurd rfl hne
  | cons next words => rfl

/-- Joining two lists of words by one underscore attaches the first word of the second. -/
theorem joinWords_attach {words : List String} (hne : words ≠ []) (text : String)
    (rest : List String) :
    joinWords (attach words text ++ rest) = joinWords words ++ "_" ++ joinWords (text :: rest) := by
  induction words with
  | nil => exact absurd rfl hne
  | cons word words ih =>
    cases words with
    | nil =>
      cases rest with
      | nil => rfl
      | cons next rest =>
        have hrest := cons_ne_nil next rest
        rw [joinWords_cons text hrest, attach, singleton_append, joinWords_cons _ hrest]
        simp only [joinWords, String.append_assoc]
    | cons next words =>
      have hrest : attach (next :: words) text ++ rest ≠ [] :=
        append_ne_nil_of_left_ne_nil (attach_ne_nil _ _) _
      have hwords := cons_ne_nil next words
      rw [attach_cons_cons, cons_append, joinWords_cons word hrest, ih hwords,
        joinWords_cons word hwords]
      simp only [String.append_assoc]

/-! ### Keys of methods -/

/-- A method key over clean names whose joint can be found. -/
structure IsMethodKey (owner : String) (ownerArgs : List Ty) (method : String)
    (methodArgs : List Ty) : Prop where
  cleanOwner : IsClean owner
  cleanOwnerArgs : ∀ name ∈ Ty.namesList ownerArgs, IsClean name
  cleanMethod : IsClean method
  cleanMethodArgs : ∀ name ∈ Ty.namesList methodArgs, IsClean name
  unbroken : '_' ∉ owner.toList
  solid : ∀ name ∈ Ty.namesList ownerArgs, IsSolid name.toList

namespace IsMethodKey

variable {owner owner' method method' : String}
variable {ownerArgs ownerArgs' methodArgs methodArgs' : List Ty}
  (h : IsMethodKey owner ownerArgs method methodArgs)

include h

/-- The words of a method symbol. -/
theorem splitWords_ofMethod : splitWords (ofMethod owner ownerArgs method methodArgs).toList =
      (attach (owner :: Ty.wordsList ownerArgs) method ++ Ty.wordsList methodArgs).map
        String.toList := by
  have howner : ∀ word ∈ owner :: Ty.wordsList ownerArgs, Separable word.toList :=
    forall_mem_cons.2
      ⟨h.cleanOwner.separable, Ty.wording_isClean.wordsList ownerArgs h.cleanOwnerArgs⟩
  have hwords := forall_mem_append.2 ⟨separable_attach h.cleanMethod.first howner,
    Ty.wording_isClean.wordsList methodArgs h.cleanMethodArgs⟩
  rw [ofMethod, ofInstance, ofInstance, ← joinWords_attach (cons_ne_nil _ _)]
  exact splitWords_joinWords (append_ne_nil_of_left_ne_nil (attach_ne_nil _ _) _) hwords

/-- Owners with their arguments are unjoined word by word. -/
theorem unjoined (h' : IsMethodKey owner' ownerArgs' method' methodArgs') :
    ∀ pair ∈ (owner :: Ty.wordsList ownerArgs).zip (owner' :: Ty.wordsList ownerArgs'),
      Unjoined pair.1.toList pair.2.toList := by
  refine forall_mem_cons.2 ⟨unjoined_of_unbroken h.unbroken h'.unbroken, ?_⟩
  rintro ⟨word, word'⟩ hpair
  obtain ⟨hword, hword'⟩ := of_mem_zip hpair
  exact (wording_isSolid.wordsList ownerArgs h.solid word hword).unjoined
    (wording_isSolid.wordsList ownerArgs' h'.solid word' hword')

/-- Method symbols identify their keys. -/
theorem symbol_eq_iff (h' : IsMethodKey owner' ownerArgs' method' methodArgs') :
    ofMethod owner ownerArgs method methodArgs = ofMethod owner' ownerArgs' method' methodArgs' ↔
      owner = owner' ∧ List.Forall₂ (fun a b => a.agrees b = true) ownerArgs ownerArgs' ∧
        method = method' ∧ List.Forall₂ (fun a b => a.agrees b = true) methodArgs methodArgs' := by
  rw [← Ty.unqualifiedList_eq_iff, ← Ty.unqualifiedList_eq_iff]
  constructor
  · intro heq
    have hsplit := h.splitWords_ofMethod
    rw [heq, h'.splitWords_ofMethod] at hsplit
    have hwords := map_injective_iff.2 (fun _ _ => String.toList_inj.1) hsplit.symm
    obtain ⟨howner, hmethod, hrest⟩ := attach_append_injective (cons_ne_nil _ _)
      (cons_ne_nil _ _) (h.unjoined h') hwords
    obtain ⟨hname, hargs⟩ := List.cons.inj howner
    exact ⟨hname, Ty.unqualifiedList_eq_of_wordsList_eq h.cleanOwnerArgs h'.cleanOwnerArgs hargs,
      hmethod, Ty.unqualifiedList_eq_of_wordsList_eq h.cleanMethodArgs h'.cleanMethodArgs hrest⟩
  · rintro ⟨rfl, howner, rfl, hmethod⟩
    simp only [ofMethod, ofInstance]
    rw [← wordsList_unqualifiedList ownerArgs, howner, wordsList_unqualifiedList ownerArgs',
      ← wordsList_unqualifiedList methodArgs, hmethod, wordsList_unqualifiedList methodArgs']

end IsMethodKey

end Symbol

/-! ### Requests for methods -/

namespace Worklist

open Monomorph.Symbol

/-- The operations of a run, as its history has them. -/
theorem map_fst_run (w : Worklist) (ops : List Operation) : (w.run ops).1.map Prod.fst = ops := by
  induction ops generalizing w with
  | nil => rfl
  | cons op ops ih => exact congrArg (op :: ·) (ih _)

/-- A request changes nothing exactly if its kind and symbol are known. -/
theorem require_eq_self_iff (w : Worklist) (item : WorkItem) :
    (w.require item).2 = w ↔ w.isGenerated item.kind item.symbol = true := by
  rw [isGenerated_iff]
  constructor
  · intro h
    by_contra hitem
    rw [require_of_notMem hitem] at h
    have hqueue := congrArg (List.length ∘ queue) h
    simp at hqueue
  · exact require_of_mem

/-- An operation that asks for methods by keys whose joint can be found, and for methods only as
such. -/
def Operation.IsKeyed : Operation → Prop
  | plain kind _ _ => kind ≠ .method
  | method owner ownerArgs name args => IsMethodKey owner ownerArgs name args
  | defer .. | round => True

/-- An item of the method kind was requested as a method. -/
theorem Operation.IsKeyed.eq_method {op : Operation} (h : op.IsKeyed) {item : WorkItem}
    (hitem : op.item? = some item) (hkind : item.kind = .method) :
    ∃ owner ownerArgs name args, op = .method owner ownerArgs name args ∧
      IsMethodKey owner ownerArgs name args ∧ item = .ofMethod owner ownerArgs name args := by
  cases op with
  | plain kind base args =>
    cases hitem
    exact absurd hkind h
  | method owner ownerArgs name args =>
    cases hitem
    exact ⟨owner, ownerArgs, name, args, rfl, h, rfl⟩
  | defer | round => cases hitem

/-- **Distinct methods get distinct symbols.** Two keys whose joints can be found have one symbol
exactly if they have one owner and one method, with arguments that agree pairwise. So after any run
that asks for methods by such keys, a request for a method is dropped exactly if the same method was
requested before. -/
theorem require_drops_only_repeats {owner method : String} {ownerArgs methodArgs : List Ty}
    (h : IsMethodKey owner ownerArgs method methodArgs) :
    (∀ owner' ownerArgs' method' methodArgs', IsMethodKey owner' ownerArgs' method' methodArgs' →
      (ofMethod owner ownerArgs method methodArgs =
          ofMethod owner' ownerArgs' method' methodArgs' ↔
        owner = owner' ∧ List.Forall₂ (fun a b => a.agrees b = true) ownerArgs ownerArgs' ∧
          method = method' ∧
          List.Forall₂ (fun a b => a.agrees b = true) methodArgs methodArgs')) ∧
    ∀ maxRounds ops, (∀ op ∈ ops, op.IsKeyed) →
      (((run { maxRounds } ops).2.require (.ofMethod owner ownerArgs method methodArgs)).2 =
          (run { maxRounds } ops).2 ↔
        ∃ ownerArgs' methodArgs', .method owner ownerArgs' method methodArgs' ∈ ops ∧
          List.Forall₂ (fun a b => a.agrees b = true) ownerArgs ownerArgs' ∧
          List.Forall₂ (fun a b => a.agrees b = true) methodArgs methodArgs') := by
  refine ⟨fun _ _ _ _ h' => h.symbol_eq_iff h', fun maxRounds ops hops => ?_⟩
  have hfollows := (follows_nil maxRounds).run ops
  rw [List.nil_append] at hfollows
  rw [require_eq_self_iff, hfollows.isGenerated_iff]
  constructor
  · rintro ⟨op, item, hevent, hitem, hkind⟩
    have hop : op ∈ ops := map_fst_run { maxRounds } ops ▸ List.mem_map_of_mem hevent
    obtain ⟨owner', ownerArgs', method', methodArgs', rfl, h', rfl⟩ :=
      (hops op hop).eq_method hitem hkind
    have hsymbol := Answer.symbol.inj (hfollows.answered _ _ _ hevent hitem)
    obtain ⟨rfl, hargs, rfl, hmethodArgs⟩ := (h.symbol_eq_iff h').1 hsymbol
    exact ⟨ownerArgs', methodArgs', hop, hargs, hmethodArgs⟩
  · rintro ⟨ownerArgs', methodArgs', hop, hargs, hmethodArgs⟩
    have hsymbol := (h.symbol_eq_iff (hops _ hop)).2 ⟨rfl, hargs, rfl, hmethodArgs⟩
    obtain ⟨⟨op, answer⟩, hevent, rfl⟩ :=
      List.mem_map.1 ((map_fst_run { maxRounds } ops).symm ▸ hop)
    have hanswer := hfollows.answered _ _ _ hevent rfl
    refine ⟨.method owner ownerArgs' method methodArgs',
      .ofMethod owner ownerArgs' method methodArgs', ?_, rfl, rfl⟩
    rw [show (WorkItem.ofMethod owner ownerArgs method methodArgs).symbol = _ from hsymbol]
    exact hanswer ▸ hevent

/-- A request is dropped although the earlier one qualifies an argument, and another method of the
same owner is told apart; underscores in the method do no harm. -/
theorem require_drops_only_repeats_mapAll :
    let shelf : Ty := .ptr (.named "" "Shelf" [.prim .i32])
    let libShelf : Ty := .ptr (.named "lib" "Shelf" [.prim .i32])
    let ops : List Operation := [.method "Cell" [libShelf] "map_all" [.named "" "By_key" []],
      .round, .plain .func "Cell" [shelf]]
    IsMethodKey "Cell" [shelf] "map_all" [.named "" "By_key" []] ∧
      IsMethodKey "Cell" [] "Shelf_map_all" [] ∧ (∀ op ∈ ops, op.IsKeyed) ∧
      ofMethod "Cell" [shelf] "map_all" [.named "" "By_key" []] ≠
        ofMethod "Cell" [] "Shelf_map_all" [] ∧
      ((run { maxRounds := 5 } ops).2.require
          (.ofMethod "Cell" [shelf] "map_all" [.named "" "By_key" []])).2 =
        (run { maxRounds := 5 } ops).2 := by
  have h : IsMethodKey "Cell" [.ptr (.named "" "Shelf" [.prim .i32])] "map_all"
      [.named "" "By_key" []] := by constructor <;> decide
  have h' : IsMethodKey "Cell" [] "Shelf_map_all" [] := by constructor <;> decide
  have hlib : IsMethodKey "Cell" [.ptr (.named "lib" "Shelf" [.prim .i32])] "map_all"
      [.named "" "By_key" []] := by constructor <;> decide
  have hops : ∀ op ∈ [Operation.method "Cell" [.ptr (.named "lib" "Shelf" [.prim .i32])] "map_all"
      [.named "" "By_key" []], .round, .plain .func "Cell"
      [.ptr (.named "" "Shelf" [.prim .i32])]], op.IsKeyed := by
    simp only [List.forall_mem_cons]
    exact ⟨hlib, trivial, (by decide : InstanceKind.func ≠ .method), List.forall_mem_nil _⟩
  refine ⟨h, h', hops, ?_, ?_⟩
  · intro heq
    have hkeys := ((require_drops_only_repeats h).1 _ _ _ _ h').1 heq
    exact absurd hkeys.2.2.1 (by decide)
  · exact ((require_drops_only_repeats h).2 5 _ hops).2
      ⟨_, _, List.mem_cons_self, .cons (by decide) .nil, .cons (by decide) .nil⟩

/-- Two clean keys with different owners and methods have one symbol, because an underscore in a
name looks like the joint, and the request for the second method is dropped. -/
theorem require_drops_other_method :
    (IsClean "A_b" ∧ IsClean "c" ∧ IsClean "A" ∧ IsClean "b_c") ∧
      ofMethod "A_b" [] "c" [] = ofMethod "A" [] "b_c" [] ∧
      ((run { maxRounds := 5 } [.method "A_b" [] "c" []]).2.require (.ofMethod "A" [] "b_c" [])).2 =
        (run { maxRounds := 5 } [.method "A_b" [] "c" []]).2 := by
  decide

end Worklist

end Monomorph
