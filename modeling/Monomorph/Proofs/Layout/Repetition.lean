import Monomorph.Proofs.Layout.Depth

/-!
# Queries that are made again

While no type is being unfolded, a query that answers leaves every nominal type that it unfolded in
the memo, and nothing that the memo knows is forgotten. So the same query, made again at any later
time, finds all that it needs: it gives the same answer, however deep it may go, and changes
nothing. This holds of all types, also of those that symbols do not tell apart.
-/

namespace Monomorph.Layout

open List

variable {α β : Type} {p : Program} {n n' : Nat} {t : Ty} {keys : List String}
  {memo memo' memo'' old : Memo} {extent again : Ty → Query Extent} {key : String} {ts : List Ty}

/-! ### Memos that grow -/

/-- The second memo knows all that the first one knows. -/
def Memo.Grows (memo memo' : Memo) : Prop :=
  ∀ key e, memo.known.lookup key = some e → memo'.known.lookup key = some e

theorem Memo.Grows.refl (memo : Memo) : memo.Grows memo := fun _ _ => id

theorem Memo.Grows.trans (h : memo.Grows memo') (h' : memo'.Grows memo'') : memo.Grows memo'' :=
  fun key e hlookup => h' key e (h key e hlookup)

/-- A memo while certain types are being unfolded, which are not known, and which knows all that
another memo knows. -/
structure Extends (old : Memo) (keys : List String) (memo : Memo) : Prop where
  unfolding : memo.unfolding = keys
  unknown : ∀ key ∈ keys, memo.known.lookup key = none
  grows : old.Grows memo

theorem Extends.refl (h : memo.unfolding = []) : Extends memo [] memo :=
  ⟨h, forall_mem_nil _, .refl memo⟩

theorem Extends.self (h : Extends old keys memo) : Extends memo keys memo :=
  ⟨h.unfolding, h.unknown, .refl memo⟩

theorem Extends.trans (h : Extends memo keys memo') (h' : Extends memo' keys memo'') :
    Extends memo keys memo'' :=
  ⟨h'.unfolding, h'.unknown, h.grows.trans h'.grows⟩

theorem Extends.unfold (h : Extends old keys memo) (hunknown : memo.known.lookup key = none) :
    Extends old (key :: keys) { memo with unfolding := key :: memo.unfolding } :=
  ⟨congrArg _ h.unfolding, forall_mem_cons.2 ⟨hunknown, h.unknown⟩, h.grows⟩

/-- What is known stays known while a new type is unfolded and remembered. -/
theorem Extends.remember (hnew : key ∉ keys) (hunknown : old.known.lookup key = none) {last : Memo}
    (hlast : Extends old (key :: keys) last) (e : Extent) :
    Extends old keys
      { known := (key, e) :: last.known, unfolding := last.unfolding.erase key } where
  unfolding := by
    rw [hlast.unfolding]
    exact erase_cons_head ..
  unknown other hother := by
    have hne : (other == key) = false := beq_false_of_ne fun heq => hnew (heq ▸ hother)
    rw [lookup_cons, hne]
    exact hlast.unknown other (mem_cons_of_mem _ hother)
  grows other e' hlookup := by
    have hne : (other == key) = false := beq_false_of_ne fun heq => by
      rw [heq, hunknown] at hlookup
      cases hlookup
    rw [lookup_cons, hne]
    exact hlast.grows other e' hlookup

/-- Queries for extents forget nothing. -/
theorem keeps_extends (n : Nat) (t : Ty) (old : Memo) (keys : List String) :
    Keeps (Extends old keys) (extentOf p n t) := by
  induction n using Nat.strong_induction_on generalizing t keys with
  | h n ih =>
    refine extentWith_induction (p := p) (M := fun _ m => Keeps (Extends old keys) m)
      (fun t name args hdeclared => ?_) (fun t _ hparts => Shape.keeps hparts) t
    by_cases hwrapped : isWrapped name args = true
    · exact meets_nominal_of_isWrapped hwrapped trivial
    · refine meets_nominal (I := Extends old) hdeclared (Bool.eq_false_iff.2 hwrapped)
        (fun _ _ _ _ => trivial) (fun _ _ _ => trivial) (fun _ _ _ _ => trivial) ?_ ?_ ?_
      · exact fun memo hmemo hlookup _ => hmemo.unfold hlookup
      · rintro k memo rfl - -
        exact Shape.keeps fun u _ => ih k (Nat.lt_succ_self k) u _
      · intro _ memo last e hmemo _ hnew _ hlast _
        rw [hmemo.unfolding] at hnew
        have hunknown : old.known.lookup t.symbol = none := by
          cases hold : old.known.lookup t.symbol with
          | none => rfl
          | some e =>
            cases (hlast.unknown _ mem_cons_self).symm.trans (hlast.grows _ _ hold)
        exact hlast.remember hnew hunknown e

/-! ### Further queries -/

/-- The memos that further queries lead to. -/
inductive Follows (p : Program) (memo : Memo) : Memo → Prop
  | refl : Follows p memo memo
  | extentOf {depth t e memo' last} (hmemo : Follows p memo memo')
      (h : (extentOf p depth t).run memo' = .ok (e, last)) : Follows p memo last
  | payloadWords {depth d args words memo' last} (hmemo : Follows p memo memo')
      (h : (payloadWords p depth d args).run memo' = .ok (words, last)) : Follows p memo last
  | classExtent {depth d args e memo' last} (hmemo : Follows p memo memo')
      (h : (classExtent p depth d args).run memo' = .ok (e, last)) : Follows p memo last

/-- What all queries for extents keep, further queries keep. -/
theorem Follows.invariant {I : Memo → Prop}
    (hkeeps : ∀ depth t, Keeps I (Layout.extentOf p depth t)) (h : Follows p memo memo')
    (hmemo : I memo) : I memo' := by
  induction h with
  | refl => exact hmemo
  | extentOf _ h ih => exact ((hkeeps _ _).of_run_eq_ok ih h).1
  | payloadWords _ h ih =>
    exact ((meets_payloadWordsWith (F := fun _ _ => True)
      fun t _ => hkeeps _ t).of_run_eq_ok ih h).1
  | classExtent _ h ih =>
    rw [Layout.classExtent, classExtentWith_eq] at h
    exact ((Shape.keeps fun t _ => hkeeps _ t).of_run_eq_ok ih h).1

/-- Further queries forget nothing and leave no type unfolded halfway. -/
theorem Follows.extends (h : Follows p memo memo') (hmemo : memo.unfolding = []) :
    Extends memo [] memo' :=
  h.invariant (fun depth t => keeps_extends depth t memo []) (.refl hmemo)

/-- If one of two queries follows the other, some memo knows all that either of them leaves. -/
theorem Extends.exists_grows {memo₁ last₁ memo₂ last₂ : Memo} (h₁ : Extends memo₁ [] last₁)
    (h₂ : Extends memo₂ [] last₂) (h : Follows p last₁ memo₂ ∨ Follows p last₂ memo₁) :
    ∃ later, last₁.Grows later ∧ last₂.Grows later := by
  obtain h | h := h
  · exact ⟨last₂, (h.extends h₁.unfolding).grows.trans h₂.grows, .refl last₂⟩
  · exact ⟨last₁, .refl last₁, (h.extends h₂.unfolding).grows.trans h₁.grows⟩

/-! ### Deeper queries -/

theorem extentOf_of_declared? {name : String} {args : List Ty} (n : Nat)
    (h : t.declared? = some (name, args)) : extentOf p n t = nominal p n t name args := by
  cases t <;> cases h <;> rw [extentOf, Ty.extentWith]

/-- Where the first query answers, the second one does the same. -/
def Covers (m again : Query α) : Prop :=
  ∀ memo out, m.run memo = .ok out → again.run memo = .ok out

theorem lifts_covers : Lifts Covers where
  pure _ _ _ := id
  fails _ _ _ := id
  bind hm hf memo out hrun := by
    obtain ⟨a, mid, hfirst, hrest⟩ := exists_of_run_bind hrun
    rw [StateT.run_bind, hm memo (a, mid) hfirst]
    exact hf a mid out hrest

/-- A query that may go deeper gives the same answers. -/
theorem covers_extentOf (hle : n ≤ n') (t : Ty) : Covers (extentOf p n t) (extentOf p n' t) := by
  induction n using Nat.strong_induction_on generalizing n' t with
  | h n ih =>
    refine extentWith_induction (p := p) (M := fun t m => Covers m (extentOf p n' t))
      (fun t name args hdeclared => ?_) (fun t hdeclared hparts => ?_) t
    · intro memo out hrun
      rw [extentOf_of_declared? n' hdeclared, run_nominal]
      rw [run_nominal] at hrun
      split at hrun
      next hwrapped => rwa [if_pos hwrapped]
      next hwrapped =>
        rw [if_neg hwrapped]
        cases hlookup : memo.known.lookup t.symbol with
        | some found => rwa [hlookup] at hrun
        | none =>
          rw [hlookup] at hrun
          dsimp only at hrun ⊢
          split at hrun
          next hunfolding => rwa [if_pos hunfolding]
          next hunfolding =>
            rw [if_neg hunfolding]
            cases n with
            | zero => cases hrun
            | succ k =>
              obtain ⟨k', rfl⟩ : ∃ k', n' = k' + 1 := ⟨n' - 1, by omega⟩
              have hcovers : Covers (definitionExtentWith p (Ty.extentWith (nominal p k)) name args)
                  (definitionExtentWith p (Ty.extentWith (nominal p k')) name args) := by
                rw [definitionExtentWith_eq, definitionExtentWith_eq]
                exact lifts_covers.shape fun u _ =>
                  ih k (Nat.lt_succ_self k) (Nat.le_of_succ_le_succ hle) u
              dsimp only at hrun ⊢
              split at hrun
              · cases hrun
              next hinner =>
                rw [hcovers _ _ hinner]
                exact hrun
    · rw [extentOf, extentWith_eq (p := p) _ hdeclared]
      exact lifts_covers.shape hparts

theorem covers_classExtent (hle : n ≤ n') (d : ClassDef) (args : List Ty) :
    Covers (classExtent p n d args) (classExtent p n' d args) := by
  rw [classExtent, classExtent, classExtentWith_eq, classExtentWith_eq]
  exact lifts_covers.shape fun t _ => covers_extentOf hle t

theorem covers_payloadWords (hle : n ≤ n') (d : EnumDef) (args : List Ty) :
    Covers (payloadWords p n d args) (payloadWords p n' d args) :=
  lifts_covers.bind (lifts_covers.mapM fun t _ => covers_extentOf hle t) fun _ =>
    lifts_covers.pure _

/-! ### Queries made again -/

/-- Whenever the first query answers while certain types are being unfolded, it forgets nothing, and
the second query gives the same answer on every memo that knows as much and does not change it. -/
def Repeats (keys : List String) (m again : Query α) : Prop :=
  ∀ memo a memo', Extends memo keys memo → m.run memo = .ok (a, memo') →
    Extends memo keys memo' ∧ ∀ later, memo'.Grows later → again.run later = .ok (a, later)

theorem lifts_repeats (keys : List String) : Lifts (Repeats keys) where
  pure a := by
    rintro memo _ _ hmemo ⟨⟩
    exact ⟨hmemo, fun _ _ => rfl⟩
  fails o := by
    rintro memo a memo' - ⟨⟩
  bind hm hf := by
    intro memo b last hmemo hrun
    obtain ⟨a, mid, hfirst, hrest⟩ := exists_of_run_bind hrun
    obtain ⟨hmid, hagain⟩ := hm memo a mid hmemo hfirst
    obtain ⟨hlast, hagain'⟩ := hf a mid b last hmid.self hrest
    refine ⟨hmid.trans hlast, fun later hlater => ?_⟩
    rw [StateT.run_bind, hagain later (hlast.grows.trans hlater)]
    exact hagain' later hlater

/-- The answers to several queries can be had again, each by itself. -/
theorem forall₂_of_run_mapM {es : List Extent} (h : ∀ t ∈ ts, Repeats keys (extent t) (again t))
    (hmemo : Extends memo keys memo) (hrun : (ts.mapM extent).run memo = .ok (es, memo'))
    {later : Memo} (hlater : memo'.Grows later) :
    List.Forall₂ (fun t e => (again t).run later = .ok (e, later)) ts es := by
  induction ts generalizing memo es with
  | nil =>
    cases hrun
    exact .nil
  | cons t ts ih =>
    obtain ⟨ht, hts⟩ := forall_mem_cons.1 h
    rw [mapM_cons] at hrun
    obtain ⟨e, mid, hfirst, hrun⟩ := exists_of_run_bind hrun
    obtain ⟨es, last, hrest, hrun⟩ := exists_of_run_bind hrun
    cases hrun
    obtain ⟨hmid, hagain⟩ := ht memo e mid hmemo hfirst
    have hlast := ((lifts_repeats keys).mapM hts mid es memo' hmid.self hrest).1
    exact .cons (hagain later (hlast.grows.trans hlater)) (ih hts hmid.self hrest)

theorem repeats_nominal {name : String} {args : List Ty}
    (hnew : isWrapped name args = false → t.symbol ∉ keys) :
    Repeats keys (nominal p n t name args) (nominal p n' t name args) := by
  intro memo e last hmemo hrun
  rw [run_nominal] at hrun
  by_cases hwrapped : isWrapped name args = true
  · rw [if_pos hwrapped] at hrun
    cases hrun
    refine ⟨hmemo, fun later _ => ?_⟩
    rw [run_nominal, if_pos hwrapped]
  · have hnew := hnew (Bool.eq_false_iff.2 hwrapped)
    rw [if_neg hwrapped, hmemo.unfolding] at hrun
    -- in all cases the type is known at the end
    suffices hend : Extends memo keys last ∧ last.known.lookup t.symbol = some e by
      refine ⟨hend.1, fun later hlater => ?_⟩
      rw [run_nominal, if_neg hwrapped, hlater _ _ hend.2]
    cases hlookup : memo.known.lookup t.symbol with
    | some found =>
      rw [hlookup] at hrun
      cases hrun
      exact ⟨hmemo, hlookup⟩
    | none =>
      rw [hlookup] at hrun
      dsimp only at hrun
      rw [if_neg fun h => hnew (contains_iff_mem.1 h)] at hrun
      cases n with
      | zero => cases hrun
      | succ n =>
        have hkeeps : Keeps (Extends memo (t.symbol :: keys))
            (definitionExtentWith p (Ty.extentWith (nominal p n)) name args) := by
          rw [definitionExtentWith_eq]
          exact Shape.keeps fun u _ => keeps_extends n u memo (t.symbol :: keys)
        have hstart : Extends memo (t.symbol :: keys) { memo with unfolding := t.symbol :: keys } :=
          ⟨rfl, forall_mem_cons.2 ⟨hlookup, hmemo.unknown⟩, .refl memo⟩
        dsimp only at hrun
        cases hinner : (definitionExtentWith p (Ty.extentWith (nominal p n)) name args).run
            { memo with unfolding := t.symbol :: keys } with
        | error fault =>
          rw [hinner] at hrun
          cases hrun
        | ok result =>
          obtain ⟨e, inner⟩ := result
          rw [hinner] at hrun
          cases hrun
          have hlast := (hkeeps.of_run_eq_ok hstart hinner).1
          exact ⟨hlast.remember hnew hlookup _, lookup_cons_self⟩

/-- A query for the extent of a type repeats, however deep it may go the second time, if none of
the types being unfolded lies inside the type. -/
theorem repeats_extentOf (n n' : Nat) (t : Ty)
    (hkeys : ∀ u, Within p u t → isRemembered u = true → u.symbol ∉ keys) :
    Repeats keys (extentOf p n t) (extentOf p n' t) := by
  refine extentWith_induction (p := p)
    (M := fun t m => (∀ u, Within p u t → isRemembered u = true → u.symbol ∉ keys) →
      Repeats keys m (extentOf p n' t))
    (fun t name args hdeclared hkeys => ?_) (fun t hdeclared hparts hkeys => ?_) t hkeys
  · rw [extentOf_of_declared? n' hdeclared]
    refine repeats_nominal fun hwrapped => hkeys t (.refl t) ?_
    rw [isRemembered_of_declared? hdeclared, hwrapped]
    rfl
  · rw [extentOf, extentWith_eq (p := p) _ hdeclared]
    exact (lifts_repeats keys).shape fun u hu =>
      hparts u hu fun v hv => hkeys v (hv.trans (within_of_mem hu))

theorem repeats_payloadWords (p : Program) (n n' : Nat) (d : EnumDef) (args : List Ty) :
    Repeats [] (payloadWords p n d args) (payloadWords p n' d args) :=
  (lifts_repeats []).bind ((lifts_repeats []).mapM fun t _ =>
    repeats_extentOf n n' t fun _ _ _ => not_mem_nil) fun _ => (lifts_repeats []).pure _

end Monomorph.Layout
