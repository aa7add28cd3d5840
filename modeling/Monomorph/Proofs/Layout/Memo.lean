import Monomorph.Proofs.Layout.Unfolding
import Monomorph.Proofs.Symbol.RoundTrip

/-!
# Queries and their memo

A query for an extent answers and changes the memo, or it overflows, or it goes too deep. What a
query does on every memo of some kind goes from the queries for the parts of a shape to the query
for the shape. The query for a nominal type answers with what the memo knows of its symbol, or with
a pointer while the type is being unfolded, or it unfolds the type.
-/

namespace Monomorph.Layout

open List

variable {α β : Type}

/-! ### Two queries of one form -/

/-- A relation that goes from the parts of queries to queries that are made up of them alike. -/
structure Lifts (R : {α : Type} → Query α → Query α → Prop) : Prop where
  pure {α : Type} (a : α) : R (pure a) (pure a)
  fails {α : Type} (o : Overflow) : R (checked (.error o : Except Overflow α)) (checked (.error o))
  bind {α β : Type} {m m' : Query α} {f f' : α → Query β} :
    R m m' → (∀ a, R (f a) (f' a)) → R (m >>= f) (m' >>= f')

namespace Lifts

variable {R : {α : Type} → Query α → Query α → Prop} {extent again : Ty → Query Extent}
  {ts : List Ty} (hR : Lifts R)

include hR

theorem checked (x : Except Overflow α) : R (checked x) (Layout.checked x) := by
  cases x with
  | ok a => exact hR.pure a
  | error o => exact hR.fails o

theorem mapM (h : ∀ t ∈ ts, R (extent t) (again t)) : R (ts.mapM extent) (ts.mapM again) := by
  induction ts with
  | nil => exact hR.pure []
  | cons t ts ih =>
    obtain ⟨ht, hts⟩ := forall_mem_cons.1 h
    rw [mapM_cons, mapM_cons]
    exact hR.bind ht fun e => hR.bind (ih hts) fun es => hR.pure _

theorem shape {s : Shape} (h : ∀ t ∈ s.parts, R (extent t) (again t)) :
    R (s.extentWith extent) (s.extentWith again) := by
  cases s with
  | leaf e => exact hR.pure e
  | record fields | overlay fields | tagged payloads =>
    exact hR.bind (hR.mapM h) fun _ => hR.checked _
  | array elem length => exact hR.bind (h elem mem_cons_self) fun _ => hR.checked _
  | blocks fields =>
    rw [Shape.extentWith, Shape.extentWith]
    induction fields with
    | nil => exact hR.pure _
    | cons own ancestors ih =>
      obtain ⟨hown, hancestors⟩ := forall_mem_append.1 h
      rw [foldrM_cons, foldrM_cons]
      exact hR.bind (ih hancestors) fun _ => hR.bind (hR.mapM hown) fun _ => hR.checked _

end Lifts

/-! ### What queries do -/

/-- On every memo of some kind, a query gives a memo of that kind and an answer of some kind, or
overflows under one condition, or goes too deep under another. -/
def Meets (deep wide : Prop) (I : Memo → Prop) (m : Query α) (Q : α → Prop) : Prop :=
  ∀ memo, I memo →
    match m.run memo with
    | .ok (a, memo') => I memo' ∧ Q a
    | .error (.overflow _) => wide
    | .error .tooDeep => deep
    | .error (.nonConvergent _) => False

variable {deep deep' wide wide' : Prop} {I : Memo → Prop} {Q R : α → Prop}

theorem meets_pure {a : α} (h : Q a) : Meets deep wide I (pure a : Query α) Q :=
  fun _ hmemo => ⟨hmemo, h⟩

theorem exists_of_run_bind {m : Query α} {f : α → Query β} {memo last : Memo} {b : β}
    (h : (m >>= f).run memo = .ok (b, last)) :
    ∃ a mid, m.run memo = .ok (a, mid) ∧ (f a).run mid = .ok (b, last) := by
  rw [StateT.run_bind] at h
  cases hrun : m.run memo with
  | error fault =>
    rw [hrun] at h
    cases h
  | ok result =>
    rw [hrun] at h
    exact ⟨result.1, result.2, rfl, h⟩

theorem Meets.bind {m : Query α} {f : α → Query β} {R : β → Prop} (hm : Meets deep wide I m Q)
    (hf : ∀ a, Q a → Meets deep wide I (f a) R) : Meets deep wide I (m >>= f) R := by
  intro memo hmemo
  have hm := hm memo hmemo
  rw [StateT.run_bind]
  cases hrun : m.run memo with
  | ok result =>
    obtain ⟨a, memo'⟩ := result
    rw [hrun] at hm
    exact hf a hm.2 memo' hm.1
  | error fault =>
    rw [hrun] at hm
    cases fault <;> exact hm

theorem Meets.mono {m : Query α} (h : Meets deep wide I m Q) (hdeep : deep → deep')
    (hover : wide → wide') (hQ : ∀ a, Q a → R a) : Meets deep' wide' I m R := by
  intro memo hmemo
  have h := h memo hmemo
  split at h
  · exact ⟨h.1, hQ _ h.2⟩
  · exact hover h
  · exact hdeep h
  · exact h

theorem Meets.of_run_eq_ok {m : Query α} (h : Meets deep wide I m Q) {memo memo' : Memo} {a : α}
    (hmemo : I memo) (hrun : m.run memo = .ok (a, memo')) : I memo' ∧ Q a := by
  have h := h memo hmemo
  rwa [hrun] at h

/-- A query that neither overflows nor goes too deep answers. -/
theorem Meets.exists_run {m : Query α} (h : Meets deep False I m Q) (hdeep : ¬ deep) {memo : Memo}
    (hmemo : I memo) : ∃ a memo', m.run memo = .ok (a, memo') ∧ Q a := by
  have h := h memo hmemo
  cases hrun : m.run memo with
  | ok result =>
    rw [hrun] at h
    exact ⟨result.1, result.2, rfl, h.2⟩
  | error fault =>
    rw [hrun] at h
    cases fault with
    | tooDeep => exact absurd h hdeep
    | overflow | nonConvergent => exact h.elim

theorem meets_checked {x : Except Overflow α} (hok : ∀ a, x = .ok a → Q a)
    (herror : (¬ ∃ a, x = .ok a) → wide) : Meets deep wide I (checked x) Q := by
  cases x with
  | ok a => exact meets_pure (hok a rfl)
  | error o => exact fun _ _ => herror nofun

variable {F : Ty → Extent → Prop} {extent : Ty → Query Extent} {ts : List Ty} {s : Shape}

theorem meets_mapM (h : ∀ t ∈ ts, Meets deep wide I (extent t) (F t)) :
    Meets deep wide I (ts.mapM extent) (List.Forall₂ F ts) := by
  induction ts with
  | nil => exact meets_pure .nil
  | cons t ts ih =>
    obtain ⟨ht, hts⟩ := forall_mem_cons.1 h
    rw [mapM_cons]
    exact ht.bind fun e he => (ih hts).bind fun es hes => meets_pure (.cons he hes)

theorem meets_payloadWordsWith {d : EnumDef} {args : List Ty}
    (h : ∀ t ∈ payloads d args, Meets deep wide I (extent t) (F t)) :
    Meets deep wide I (payloadWordsWith extent d args)
      fun words => ∃ es, List.Forall₂ F (payloads d args) es ∧
        words = wordsFor (es.map Extent.size) :=
  (meets_mapM h).bind fun es hes => meets_pure ⟨es, hes, rfl⟩

/-- Whatever it answers, a query keeps the memo of some kind. -/
def Keeps (I : Memo → Prop) (m : Query α) : Prop := Meets True True I m fun _ => True

theorem Meets.keeps {m : Query α} (h : Meets deep wide I m Q) : Keeps I m :=
  h.mono (fun _ => trivial) (fun _ => trivial) fun _ _ => trivial

theorem lifts_meets (deep : Prop) (I : Memo → Prop) :
    Lifts fun m _ => Meets deep True I m fun _ => True where
  pure _ := meets_pure trivial
  fails _ _ _ := trivial
  bind hm hf := hm.bind fun a _ => hf a

/-- A shape goes as deep as its parts do, whatever the answers are. -/
theorem Shape.meets_any (h : ∀ t ∈ s.parts, Meets deep True I (extent t) fun _ => True) :
    Meets deep True I (s.extentWith extent) fun _ => True :=
  @Lifts.shape _ extent extent (lifts_meets deep I) s h

theorem Shape.keeps (h : ∀ t ∈ s.parts, Keeps I (extent t)) : Keeps I (s.extentWith extent) :=
  Shape.meets_any h

/-! ### Nominal types -/

/-- The steps of a query for a nominal type. -/
theorem run_nominal (p : Program) (n : Nat) (t : Ty) (name : String) (args : List Ty)
    (memo : Memo) :
    (nominal p n t name args).run memo =
      if isWrapped name args then .ok (.pointer, memo)
      else
        match memo.known.lookup t.symbol with
        | some e => .ok (e, memo)
        | none =>
            if memo.unfolding.contains t.symbol then .ok (.pointer, memo)
            else
              match n with
              | 0 => .error .tooDeep
              | n + 1 =>
                  match (definitionExtentWith p (Ty.extentWith (nominal p n)) name args).run
                    { memo with unfolding := t.symbol :: memo.unfolding } with
                  | .error fault => .error fault
                  | .ok (e, last) =>
                      .ok (e, { known := (t.symbol, e) :: last.known,
                                unfolding := last.unfolding.erase t.symbol }) := by
  have hget : ∀ {α : Type} (f : Memo → Query α), (get >>= f).run memo = (f memo).run memo :=
    fun _ => rfl
  rw [nominal.eq_def, isWrapped]
  dsimp only
  by_cases hwrapped : ((Wrapper.ofName? name).isSome && decide (args.length = 1)) = true
  · rw [if_pos hwrapped, if_pos hwrapped]
    rfl
  · rw [if_neg hwrapped, if_neg hwrapped, hget]
    cases memo.known.lookup t.symbol with
    | some e => rfl
    | none =>
      dsimp only
      rw [hget]
      by_cases hunfolding : memo.unfolding.contains t.symbol = true
      · rw [if_pos hunfolding, if_pos hunfolding]
        rfl
      · rw [if_neg hunfolding, if_neg hunfolding]
        cases n with
        | zero => rfl
        | succ n =>
          have hmodify : ∀ (f : Memo → Memo) (g : Unit → Query Extent),
              (modify f >>= g).run memo = (g ()).run (f memo) := fun _ _ => rfl
          dsimp only
          rw [hmodify, StateT.run_bind]
          cases StateT.run (definitionExtentWith p (Ty.extentWith (nominal p n)) name args)
            { memo with unfolding := t.symbol :: memo.unfolding } <;> rfl

/-! ### Reachable memos -/

/-- The memos that queries lead to, where all types and definitions that were asked for have clean
names. -/
inductive Reachable (p : Program) : Memo → Prop
  | initial : Reachable p {}
  | extentOf {depth t e memo memo'} (hmemo : Reachable p memo)
      (ht : t.Writable) (h : (extentOf p depth t).run memo = .ok (e, memo')) : Reachable p memo'
  | payloadWords {depth d args words memo memo'} (hmemo : Reachable p memo)
      (hd : ∀ variant ∈ d.variants, (Ty.tuple variant.payload).Writable)
      (hargs : ∀ t ∈ args, t.Writable)
      (h : (payloadWords p depth d args).run memo = .ok (words, memo')) : Reachable p memo'
  | classExtent {depth d args e memo memo'}
      (hmemo : Reachable p memo) (hd : ∀ field ∈ d.fields, field.ty.Writable)
      (hargs : ∀ t ∈ args, t.Writable)
      (h : (classExtent p depth d args).run memo = .ok (e, memo')) : Reachable p memo'

end Monomorph.Layout
