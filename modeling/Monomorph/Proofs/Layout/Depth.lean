import Mathlib.Data.Set.Card
import Mathlib.Data.Set.Finite.Lattice
import Monomorph.Proofs.Layout.Memo

/-!
# How deep queries go

A query goes one definition deeper whenever it unfolds a nominal type that it neither knows nor is
unfolding already. Each such type has a symbol that no type around it has. So if the types inside
some type have only finitely many symbols between them, then the query for its extent goes at most
as deep as there are symbols, also where types contain themselves or each other. A generic type that
contains an instance of itself with a larger argument has infinitely many types inside, and the
query for its extent goes deeper than any bound.

## Main results

* `Layout.extentWith_induction`, `Layout.meets_nominal`, `Layout.extentOf_returns`,
  `Layout.extentOf_growing`.
-/

namespace Monomorph.Layout

open List

variable {p : Program} {n : Nat} {t t' u v : Ty} {keys : List String} {ts : List Ty}

/-! ### Types inside others -/

/-- Whether queries unfold a type and remember its extent: nominal types, but not wrappers. -/
def isRemembered (t : Ty) : Bool :=
  match t.declared? with
  | some (name, args) => !isWrapped name args
  | none => false

theorem isRemembered_of_declared? {name : String} {args : List Ty}
    (h : t.declared? = some (name, args)) : isRemembered t = !isWrapped name args := by
  rw [isRemembered, h]

/-- One type is another or lies inside it, up to qualifiers. -/
def Within (p : Program) (u t : Ty) : Prop :=
  Relation.ReflTransGen (Part p) u.unqualified t.unqualified

theorem Within.refl (t : Ty) : Within p t t := Relation.ReflTransGen.refl

theorem Within.trans (h : Within p v u) (h' : Within p u t) : Within p v t :=
  Relation.ReflTransGen.trans h h'

theorem within_of_mem (h : u ∈ (shape p t).parts) : Within p u t := .single (part_of_mem h)

theorem symbol_unqualified (t : Ty) : t.unqualified.symbol = t.symbol := by
  cases t with
  | named _ name args =>
    simp only [Ty.unqualified, Ty.symbol, Symbol.ofInstance, Symbol.wordsList_unqualifiedList]
  | prim | ref | ptr | func | closure | tuple | array | slice | dyn | classRef =>
    exact congrArg Symbol.joinWords (Symbol.words_unqualified _)

theorem symbol_eq_of_unqualified_eq (h : t.unqualified = t'.unqualified) :
    t.symbol = t'.symbol := by
  rw [← symbol_unqualified t, h, symbol_unqualified]

theorem isRemembered_unqualified (t : Ty) : isRemembered t.unqualified = isRemembered t := by
  cases t with
  | named _ name args =>
    exact congrArg Bool.not (isWrapped_congr (Ty.unqualifiedList_unqualifiedList args) name)
  | prim | ref | ptr | func | closure | tuple | array | slice | dyn | classRef => rfl

/-- The symbols of the types inside a type that queries unfold. -/
def symbolsWithin (p : Program) (t : Ty) : Set String :=
  {key | ∃ u, Within p u t ∧ isRemembered u = true ∧ u.symbol = key}

theorem symbolsWithin_subset (h : Within p u t) : symbolsWithin p u ⊆ symbolsWithin p t := by
  rintro key ⟨v, hv, hremembered, rfl⟩
  exact ⟨v, hv.trans h, hremembered, rfl⟩

section

variable (hparts : ∀ w ∈ ts, ∀ u ∈ (shape p w).parts, u.unqualified ∈ ts.map Ty.unqualified)

include hparts

/-- A list that has the parts of its types has all types inside them. -/
theorem mem_of_reflTransGen_part {s : Ty} (h : Relation.ReflTransGen (Part p) s t)
    (ht : t ∈ ts.map Ty.unqualified) : s ∈ ts.map Ty.unqualified := by
  induction h using Relation.ReflTransGen.head_induction_on with
  | refl => exact ht
  | head hpart _ ih =>
    obtain ⟨part, hpart, rfl⟩ := hpart
    obtain ⟨w, hw, rfl⟩ := mem_map.1 ih
    obtain ⟨u, hu, heq⟩ := exists_mem_parts (Ty.unqualified_unqualified w).symm hpart
    rw [← heq]
    exact hparts w hw u hu

theorem symbolsWithin_subset_of_mem (ht : t ∈ ts) :
    symbolsWithin p t ⊆ (((ts.filter isRemembered).map Ty.symbol).toFinset : Set String) := by
  rintro key ⟨u, hu, hremembered, rfl⟩
  obtain ⟨w, hw, heq⟩ := mem_map.1
    (mem_of_reflTransGen_part hparts hu (mem_map_of_mem ht))
  rw [← isRemembered_unqualified, ← heq, isRemembered_unqualified] at hremembered
  rw [← symbol_eq_of_unqualified_eq heq, coe_toFinset]
  exact mem_map_of_mem (mem_filter.2 ⟨hw, hremembered⟩)

theorem finite_symbolsWithin (ht : t ∈ ts) : (symbolsWithin p t).Finite :=
  (Finset.finite_toSet _).subset (symbolsWithin_subset_of_mem hparts ht)

theorem ncard_symbolsWithin_le (ht : t ∈ ts) :
    (symbolsWithin p t).ncard ≤ (ts.filter isRemembered).length := by
  refine (Set.ncard_le_ncard (symbolsWithin_subset_of_mem hparts ht)).trans ?_
  rw [Set.ncard_coe_finset]
  exact (toFinset_card_le _).trans (length_map _).le

end

/-- A type has finitely many types inside if going to what lies inside it comes to an end. -/
theorem finite_symbolsWithin_of_acc (h : Acc (Part p) t.unqualified) :
    (symbolsWithin p t).Finite := by
  generalize hs : t.unqualified = s at h
  induction h generalizing t with
  | intro s _ ih =>
    subst hs
    have hparts := Set.Finite.biUnion (shape p t).parts.finite_toSet fun u hu =>
      ih _ (part_of_mem hu) (t := u) rfl
    refine (hparts.insert t.symbol).subset ?_
    rintro key ⟨v, hv, hremembered, rfl⟩
    obtain heq | ⟨mid, hmid, part, hpart, rfl⟩ := Relation.ReflTransGen.cases_tail hv
    · exact .inl (symbol_eq_of_unqualified_eq heq.symm)
    · obtain ⟨u, hu, heq⟩ := exists_mem_parts (Ty.unqualified_unqualified t).symm hpart
      rw [← heq] at hmid
      exact .inr (Set.mem_biUnion hu ⟨v, hmid, hremembered, rfl⟩)

/-! ### Queries case by case -/

variable {deep wide : Prop} {Q : Extent → Prop} {name : String} {args : List Ty}
  {symbols : Set String}

section

variable {nominal : Ty → String → List Ty → Query Extent} {M : Ty → Query Extent → Prop}
  (hnominal : ∀ t name args, t.declared? = some (name, args) → M t (nominal t name args))
  (hshape : ∀ t, t.declared? = none →
    (∀ u ∈ (shape p t).parts, M u (u.extentWith nominal)) →
      M t ((shape p t).extentWith (Ty.extentWith nominal)))

include hnominal hshape

set_option linter.unusedSectionVars false in
mutual

/-- What holds of queries for nominal types, and goes from the parts of a shape to the shape, holds
of all queries for extents. -/
theorem extentWith_induction :
    (t : Ty) → M t (t.extentWith nominal)
  | .named qualifier name args => by
      rw [Ty.extentWith]
      exact hnominal _ name args rfl
  | .classRef name => by
      rw [Ty.extentWith]
      exact hnominal _ name [] rfl
  | .tuple elems => by
      rw [extentWith_eq (p := p) nominal rfl]
      exact hshape _ rfl (extentsWith_induction elems)
  | .array elem length => by
      rw [extentWith_eq (p := p) nominal rfl]
      exact hshape _ rfl
        (forall_mem_singleton.2 (extentWith_induction elem))
  | .prim _ | .ref .. | .ptr _ | .func .. | .closure .. | .slice _ | .dyn .. => by
      rw [extentWith_eq (p := p) nominal rfl]
      exact hshape _ rfl (forall_mem_nil _)

theorem extentsWith_induction :
    (ts : List Ty) → ∀ t ∈ ts, M t (t.extentWith nominal)
  | [] => forall_mem_nil _
  | t :: ts => forall_mem_cons.2 ⟨extentWith_induction t,
      extentsWith_induction ts⟩

end

end

theorem meets_nominal_of_isWrapped {I : Memo → Prop} (h : isWrapped name args = true)
    (hpointer : Q .pointer) : Meets deep wide I (nominal p n t name args) Q := by
  intro memo hmemo
  rw [run_nominal, if_pos h]
  exact ⟨hmemo, hpointer⟩

/-- What the query for a nominal type that is no wrapper does: it answers with what it knows, or
with a pointer while the type is being unfolded, or unfolds the type. -/
theorem meets_nominal (hdeclared : t.declared? = some (name, args))
    (hwrapped : isWrapped name args = false) {I : List String → Memo → Prop}
    (hknown : ∀ memo e, I keys memo → memo.known.lookup t.symbol = some e → Q e)
    (hunfolding : ∀ memo, I keys memo → t.symbol ∈ memo.unfolding → Q .pointer)
    (hdeep : ∀ memo, I keys memo → t.symbol ∉ memo.unfolding → n = 0 → deep)
    (hstart : ∀ memo, I keys memo → memo.known.lookup t.symbol = none →
      t.symbol ∉ memo.unfolding →
        I (t.symbol :: keys) { memo with unfolding := t.symbol :: memo.unfolding })
    (hshape : ∀ k memo, n = k + 1 → I keys memo → t.symbol ∉ memo.unfolding →
      Meets deep wide (I (t.symbol :: keys)) ((shape p t).extentWith (extentOf p k)) Q)
    (hend : ∀ k memo last e, I keys memo → memo.known.lookup t.symbol = none →
      t.symbol ∉ memo.unfolding →
      ((shape p t).extentWith (extentOf p k)).run
        { memo with unfolding := t.symbol :: memo.unfolding } = .ok (e, last) →
      I (t.symbol :: keys) last → Q e →
        I keys { known := (t.symbol, e) :: last.known,
                 unfolding := last.unfolding.erase t.symbol }) :
    Meets deep wide (I keys) (nominal p n t name args) Q := by
  intro memo hmemo
  rw [run_nominal, if_neg (Bool.eq_false_iff.1 hwrapped)]
  cases hlookup : memo.known.lookup t.symbol with
  | some e => exact ⟨hmemo, hknown memo e hmemo hlookup⟩
  | none =>
    dsimp only
    by_cases hmem : t.symbol ∈ memo.unfolding
    · rw [if_pos (contains_iff_mem.2 hmem)]
      exact ⟨hmemo, hunfolding memo hmemo hmem⟩
    · rw [if_neg fun h => hmem (contains_iff_mem.1 h)]
      cases n with
      | zero => exact hdeep memo hmemo hmem rfl
      | succ n =>
        have hdefinition : definitionExtentWith p (Ty.extentWith (nominal p n)) name args =
            (shape p t).extentWith (extentOf p n) := by
          rw [shape_of_declared? hdeclared, nominalShape_of_not_isWrapped hwrapped]
          exact definitionExtentWith_eq name args
        have hinner := hshape n memo rfl hmemo hmem _ (hstart memo hmemo hlookup hmem)
        dsimp only
        rw [hdefinition]
        split at hinner
        next e last hrun =>
          rw [hrun]
          exact ⟨hend n memo last e hmemo hlookup hmem hrun hinner.1 hinner.2, hinner.2⟩
        next hrun =>
          rw [hrun]
          exact hinner
        next hrun =>
          rw [hrun]
          exact hinner
        · exact hinner.elim

/-! ### Depth -/

theorem ncard_diff_cons_lt (hfinite : symbols.Finite) {key : String} (hkey : key ∈ symbols)
    (hnew : key ∉ keys) :
    (symbols \ {k | k ∈ key :: keys}).ncard < (symbols \ {k | k ∈ keys}).ncard := by
  refine Set.ncard_lt_ncard ⟨fun k hk => ⟨hk.1, fun hmem => hk.2 (mem_cons_of_mem _ hmem)⟩,
    fun hsubset => ?_⟩ hfinite.sdiff
  exact (hsubset ⟨hkey, hnew⟩).2 mem_cons_self

/-- A query may go as deep as there are symbols of types that are not being unfolded. -/
theorem meets_extentOf (hfinite : symbols.Finite) (ht : symbolsWithin p t ⊆ symbols)
    (hdepth : (symbols \ {key | key ∈ keys}).ncard ≤ n) :
    Meets False True (fun memo => memo.unfolding = keys) (extentOf p n t) fun _ => True := by
  induction n using Nat.strong_induction_on generalizing t keys with
  | h n ih =>
    refine extentWith_induction (p := p) (M := fun t m => symbolsWithin p t ⊆ symbols →
      Meets False True (fun memo => memo.unfolding = keys) m fun _ => True)
      (fun t name args hdeclared ht => ?_) (fun t _ hparts ht => ?_) t ht
    · by_cases hwrapped : isWrapped name args = true
      · exact meets_nominal_of_isWrapped hwrapped trivial
      · have hkey : t.symbol ∈ symbols := by
          refine ht ⟨t, .refl t, ?_, rfl⟩
          rw [isRemembered_of_declared? hdeclared, Bool.eq_false_iff.2 hwrapped]
          rfl
        refine meets_nominal (I := fun keys memo => memo.unfolding = keys) hdeclared
          (Bool.eq_false_iff.2 hwrapped) (fun _ _ _ _ => trivial) (fun _ _ _ => trivial) ?_
          (fun _ hmemo _ _ => congrArg _ hmemo) ?_ ?_
        · rintro memo rfl hnew rfl
          exact absurd (ncard_diff_cons_lt hfinite hkey hnew) (Nat.not_lt.2
            (hdepth.trans (Nat.zero_le _)))
        · rintro k memo rfl rfl hnew
          have hlt := ncard_diff_cons_lt hfinite hkey hnew
          exact Shape.meets_any fun u hu => ih k (Nat.lt_succ_self k)
            ((symbolsWithin_subset (within_of_mem hu)).trans ht) (by omega)
        · rintro - memo last e rfl - - - hlast -
          rw [hlast]
          exact erase_cons_head ..
    · exact Shape.meets_any fun u hu =>
        hparts u hu ((symbolsWithin_subset (within_of_mem hu)).trans ht)

/-- If the types inside a type have finitely many symbols between them, then a query for its extent
that may go as deep as there are symbols returns, whatever the memo is: with an extent, or because
a size is too large. -/
theorem extentOf_returns (hfinite : (symbolsWithin p t).Finite) {depth : Nat}
    (hdepth : (symbolsWithin p t).ncard ≤ depth) (memo : Memo) :
    (∃ e memo', (extentOf p depth t).run memo = .ok (e, memo')) ∨
      ∃ operation, (extentOf p depth t).run memo = .error (.overflow operation) := by
  have hmeets := meets_extentOf hfinite subset_rfl
    ((Set.ncard_le_ncard Set.sdiff_subset hfinite).trans hdepth) memo rfl
  split at hmeets
  · rename_i e memo' hrun
    exact .inl ⟨e, memo', hrun⟩
  · rename_i operation hrun
    exact .inr ⟨operation, hrun⟩
  · exact hmeets.elim
  · exact hmeets.elim

/-- Two generic structs that contain each other, and an enum that contains itself beside one of
them. -/
def entwined : Program where
  home := {
    structs := .ofList [
      { name := "Ping", generics := ["A"]
        fields := [
          { name := "pong", ty := .ofName "Pong" [.param "A"] },
          { name := "value", ty := .param "A" }] },
      { name := "Pong", generics := ["A"]
        fields := [{ name := "ping", ty := .ofName "Ping" [.param "A"] }] }]
    enums := .ofList [
      { name := "Row", generics := ["A"]
        variants := [
          { name := "Nil" },
          { name := "Cons"
            payload := [.ofName "Ping" [.param "A"], .ofName "Row" [.param "A"]] }] }] }

theorem extentOf_returns_entwined :
    (symbolsWithin entwined (.ofName "Row" [.prim .i64])).Finite ∧
      (symbolsWithin entwined (.ofName "Row" [.prim .i64])).ncard ≤ 3 ∧
      ∃ memo', (extentOf entwined 3 (.ofName "Row" [.prim .i64])).run {} =
        .ok (⟨32, 8⟩, memo') := by
  let ts : List Ty := [.ofName "Row" [.prim .i64], .ofName "Ping" [.prim .i64],
    .ofName "Pong" [.prim .i64], .prim .i64,
    .tuple [.ofName "Ping" [.prim .i64], .ofName "Row" [.prim .i64]]]
  have hparts : ∀ w ∈ ts, ∀ u ∈ (shape entwined w).parts,
      u.unqualified ∈ ts.map Ty.unqualified := by
    decide +kernel
  have hfinite := finite_symbolsWithin hparts List.mem_cons_self
  have hdepth : (symbolsWithin entwined (.ofName "Row" [.prim .i64])).ncard ≤ 3 :=
    ncard_symbolsWithin_le hparts List.mem_cons_self
  refine ⟨hfinite, hdepth, ?_⟩
  have hanswer : ((extentOf entwined 3 (.ofName "Row" [.prim .i64])).run {}).toOption.map
      Prod.fst = some ⟨32, 8⟩ := by
    decide +kernel
  obtain ⟨e, memo', hrun⟩ | ⟨operation, hrun⟩ := extentOf_returns hfinite hdepth {}
  · rw [hrun] at hanswer
    cases hanswer
    exact ⟨memo', hrun⟩
  · rw [hrun] at hanswer
    cases hanswer

/-! ### Growth -/

/-- A struct that contains an instance of itself with a larger argument. -/
def growing : Program where
  home := {
    structs := .ofList [
      { name := "Grow", generics := ["A"]
        fields := [{ name := "next", ty := .ofName "Grow" [.ptr (.param "A")] }] }] }

/-- Pointers to pointers, a number of times. -/
def pointers : Nat → Ty
  | 0 => .prim .i32
  | k + 1 => .ptr (pointers k)

theorem pointers_injective : Function.Injective fun k => (pointers k).unqualified := by
  intro j k h
  induction j generalizing k with
  | zero =>
    cases k with
    | zero => rfl
    | succ k => cases h
  | succ j ih =>
    cases k with
    | zero => cases h
    | succ k => rw [ih (Ty.ptr.inj h)]

theorem writable_pointers (k : Nat) : (pointers k).Writable := by
  induction k with
  | zero => decide
  | succ k ih => exact (Symbol.writable_apply .ptr (pointers k)).2 ih

theorem symbol_growing_injective :
    Function.Injective fun k => (Ty.ofName "Grow" [pointers k]).symbol := by
  intro j k h
  have hwritable : ∀ k, (Ty.ofName "Grow" [pointers k]).Writable := fun k =>
    (Ty.writable_named ..).2 ⟨by decide, (by decide : 1 < Decimal.wordCount),
      forall_mem_singleton.2 (writable_pointers k)⟩
  have heq := Symbol.unqualified_eq_of_symbol_eq (hwritable j) (hwritable k) h
  simp only [Ty.ofName, Ty.unqualified, Ty.unqualifiedList, Ty.named.injEq, true_and,
    List.cons.injEq, and_true] at heq
  exact pointers_injective heq

theorem shape_growing (k : Nat) :
    shape growing (.ofName "Grow" [pointers k]) = .record [.ofName "Grow" [pointers (k + 1)]] :=
  rfl

theorem meets_extentOf_growing (k : Nat)
    (hkeys : ∀ key ∈ keys, ∃ j < k, key = (Ty.ofName "Grow" [pointers j]).symbol) :
    Meets True False (fun memo => memo = { unfolding := keys })
      (extentOf growing n (.ofName "Grow" [pointers k])) fun _ => False := by
  induction n using Nat.strong_induction_on generalizing k keys with
  | h n ih =>
    have hquery : extentOf growing n (.ofName "Grow" [pointers k]) =
        nominal growing n (.ofName "Grow" [pointers k]) "Grow" [pointers k] := by
      rw [extentOf, Ty.ofName, Ty.extentWith]
    rw [hquery]
    refine meets_nominal (I := fun keys memo => memo = { unfolding := keys }) rfl rfl ?_ ?_
      (fun _ _ _ _ => trivial) ?_ ?_ (fun _ _ _ _ _ _ _ _ _ hfalse => hfalse.elim)
    · rintro memo e rfl hlookup
      cases hlookup
    · rintro memo rfl hmem
      obtain ⟨j, hj, heq⟩ := hkeys _ hmem
      exact Nat.ne_of_gt hj (symbol_growing_injective heq)
    · rintro memo rfl - -
      rfl
    · rintro m memo rfl rfl -
      have hinner := ih m (Nat.lt_succ_self m) (k + 1) (forall_mem_cons.2
        ⟨⟨k, Nat.lt_succ_self k, rfl⟩, fun key hkey =>
          (hkeys key hkey).imp fun _ hj => ⟨hj.1.trans (Nat.lt_succ_self k), hj.2⟩⟩)
      -- the record has one field, whose query does not answer
      rw [shape_growing]
      refine Meets.bind (Q := fun _ => False) ?_ fun _ hfalse => hfalse.elim
      exact hinner.bind fun _ hfalse => hfalse.elim

/-- No depth is enough for a type that contains an instance of itself with a larger argument, even
where all names are clean. -/
theorem extentOf_growing :
    growing.HasCleanTypes ∧ ∀ depth,
      (extentOf growing depth (.ofName "Grow" [.prim .i32])).run {} = .error .tooDeep := by
  refine ⟨by decide +kernel, fun depth => ?_⟩
  have hmeets := meets_extentOf_growing (n := depth) 0 (List.forall_mem_nil _) {} rfl
  split at hmeets
  · exact hmeets.2.elim
  · exact hmeets.elim
  · rename_i hrun
    exact hrun
  · exact hmeets.elim

end Monomorph.Layout
