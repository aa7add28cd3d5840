import Monomorph.Proofs.Script.Events

/-!
# One script performed in two ways

Two ways to perform the steps of a script can be compared step by step. If each step gives the same
answer in both and takes related states to related states, or fails in both with the same fault,
then so does every script that asks only for such steps.
-/

namespace Monomorph

namespace Script

variable {Step : Type} {Answer : Step → Type} {α β σ τ : Type}

/-- The result of a script of a single step. -/
theorem run_ask_done (perform : (step : Step) → σ → Except Fault (Answer step × σ)) (step : Step)
    (s : σ) : (Script.ask step .done : Script Answer (Answer step)).run perform s =
      perform step s := by
  rw [run]
  cases perform step s <;> rfl

/-- The result of one script after another. -/
theorem run_bind (perform : (step : Step) → σ → Except Fault (Answer step × σ))
    (m : Script Answer α) (f : α → Script Answer β) (s : σ) :
    (m >>= f).run perform s =
      m.run perform s >>= fun result => (f result.1).run perform result.2 := by
  induction m generalizing s with
  | done a => rfl
  | fail fault => rfl
  | ask step next ih =>
    change (Script.ask step fun answer => next answer >>= f).run perform s = _
    rw [run, run]
    cases perform step s with
    | error fault => rfl
    | ok result => exact ih result.1 result.2

/-- Results that agree but for their states, which are related. -/
inductive Matches (R : σ → τ → Prop) : Except Fault (α × σ) → Except Fault (α × τ) → Prop
  /-- The same fault. -/
  | error (fault : Fault) : Matches R (.error fault) (.error fault)
  /-- The same answer, in related states. -/
  | ok (a : α) {s t} (h : R s t) : Matches R (.ok (a, s)) (.ok (a, t))

variable {R : σ → τ → Prop} {perform : (step : Step) → σ → Except Fault (Answer step × σ)}
  {perform' : (step : Step) → τ → Except Fault (Answer step × τ)} {s : σ} {t : τ}

theorem Matches.of_eq {a b : α} (hab : b = a) (h : R s t) : Matches R (.ok (a, s)) (.ok (b, t)) :=
  hab ▸ .ok a h

/-- What matches an answer is that answer, in a related state. -/
theorem Matches.exists_ok {x : Except Fault (α × σ)} {y : Except Fault (α × τ)} {a : α}
    (h : Matches R x y) (hx : x = .ok (a, s)) : ∃ t, y = .ok (a, t) ∧ R s t := by
  cases h with
  | error fault => cases hx
  | ok b hR =>
    cases hx
    exact ⟨_, rfl, hR⟩

/-- A script gives matching results if the steps that it asks for do. -/
theorem matches_run {E : Step → Prop}
    (hstep : ∀ step, E step → ∀ s t, R s t → Matches R (perform step s) (perform' step t))
    {m : Script Answer α} (hm : m.Only E) (h : R s t) :
    Matches R (m.run perform s) (m.run perform' t) := by
  induction m generalizing s t with
  | done a => exact .ok a h
  | fail fault => exact .error fault
  | ask step next ih =>
    have hfirst := hstep step hm.1 s t h
    rw [run, run]
    generalize perform step s = x, perform' step t = y at hfirst
    cases hfirst with
    | error fault => exact .error fault
    | ok answer hR => exact ih answer (hm.2 answer) hR

end Script

/-- Asking for a layout runs the query on the memo and changes nothing else. -/
theorem Build.query_eq_ok {α : Type} {s s' : Build} {q : Layout.Query α} {a : α}
    (h : s.query q = .ok (a, s')) :
    ∃ memo, q.run s.memo = .ok (a, memo) ∧ s' = { s with memo } := by
  rw [query] at h
  split at h
  · cases h
  next hrun =>
    cases h
    exact ⟨_, hrun, rfl⟩

/-- Asking for a layout gives matching results in states with the same memo. -/
theorem Build.matches_query {α : Type} {R : Build → Build → Prop} {s t : Build}
    (hmemo : t.memo = s.memo) (h : ∀ memo, R { s with memo } { t with memo })
    (q : Layout.Query α) : Script.Matches R (s.query q) (t.query q) := by
  rw [query, query, hmemo]
  cases q.run s.memo with
  | error fault => exact .error fault
  | ok result => exact .ok result.1 (h result.2)

end Monomorph
