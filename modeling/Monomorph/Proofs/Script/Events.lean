import Monomorph.Lowering.Build

/-!
# The events of a script

Performing a script leaves a trail: the steps that were asked for, each with its answer. A run of
one script after another leaves one trail after another, so that what holds of every step holds of
whole scripts.
-/

namespace Monomorph

open List

theorem bind_eq_ok_iff {ε α β : Type} {x : Except ε α} {f : α → Except ε β} {b : β} :
    x >>= f = .ok b ↔ ∃ a, x = .ok a ∧ f a = .ok b := by
  cases x with
  | error e => exact iff_of_false (by rintro ⟨⟩) (by rintro ⟨_, ⟨⟩, _⟩)
  | ok a => exact ⟨fun h => ⟨a, rfl, h⟩, by rintro ⟨_, ⟨⟩, h⟩; exact h⟩

namespace Script

variable {Step : Type} {Answer : Step → Type} {α β σ : Type} {m : Script Answer α}
  {f : α → Script Answer β}

/-- A step that was performed, with its answer. -/
abbrev Event (Answer : Step → Type) := (step : Step) × Answer step

section Runs

variable (perform : (step : Step) → σ → Except Fault (Answer step × σ))

/-- A script leads from one state to another by the given events, and gives a result. -/
inductive Runs : Script Answer α → σ → List (Event Answer) → α → σ → Prop
  | done (a : α) (s : σ) : Runs (.done a) s [] a s
  | ask {step next s s' last answer events a}
      (h : perform step s = .ok (answer, s')) (hnext : Runs (next answer) s' events a last) :
      Runs (.ask step next) s (⟨step, answer⟩ :: events) a last

/-- A script leads by the given events to an end without a result: of itself, or at a step that is
not performed. -/
inductive Stops : Script Answer α → σ → List (Event Answer) → Option Step → Fault → Prop
  | fail (fault : Fault) (s : σ) : Stops (.fail fault) s [] none fault
  | refused {step next s fault}
      (h : perform step s = .error fault) : Stops (.ask step next) s [] (some step) fault
  | ask {step next s s' answer events refused fault} (h : perform step s = .ok (answer, s'))
      (hnext : Stops (next answer) s' events refused fault) :
      Stops (.ask step next) s (⟨step, answer⟩ :: events) refused fault

/-- Performing the steps of events, with their answers, leads from one state to another, and each of
them is performed where it may be. -/
inductive LeadsBy (P : σ → Step → Prop) : σ → List (Event Answer) → σ → Prop
  | nil (s : σ) : LeadsBy P s [] s
  | cons {step answer s s' events last} (h : perform step s = .ok (answer, s')) (hP : P s step)
      (hrest : LeadsBy P s' events last) : LeadsBy P s (⟨step, answer⟩ :: events) last

/-- Performing the steps of events, with their answers, leads from one state to another. -/
abbrev Leads : σ → List (Event Answer) → σ → Prop := LeadsBy perform fun _ _ => True

/-- The events of a run, its result and its last state. -/
def trace : Script Answer α → σ → Option (List (Event Answer) × α × σ)
  | .done a, s => some ([], a, s)
  | .fail _, _ => none
  | .ask step next, s =>
    match perform step s with
    | .error _ => none
    | .ok (answer, s') =>
      (trace (next answer) s').map fun out => (⟨step, answer⟩ :: out.1, out.2)

variable {perform} {s last s' : σ} {events : List (Event Answer)} {a a' : α} {b : β} {fault : Fault}
  {refused : Option Step} {step : Step} {answer : Answer step}

section LeadsBy

variable {P Q : σ → Step → Prop} {mid : σ} {later : List (Event Answer)}

theorem LeadsBy.append (h : LeadsBy perform P s events mid)
    (h' : LeadsBy perform P mid later last) : LeadsBy perform P s (events ++ later) last := by
  induction h with
  | nil s => exact h'
  | cons hstep hP _ ih => exact .cons hstep hP (ih h')

theorem LeadsBy.of_append (h : LeadsBy perform P s (events ++ later) last) :
    ∃ mid, LeadsBy perform P s events mid ∧ LeadsBy perform P mid later last := by
  induction events generalizing s with
  | nil => exact ⟨s, .nil s, h⟩
  | cons event events ih =>
    cases h with
    | cons hstep hP hrest =>
      obtain ⟨mid, hmid, hlast⟩ := ih hrest
      exact ⟨mid, .cons hstep hP hmid, hlast⟩

/-- Events lead to one state. -/
theorem LeadsBy.unique (h : LeadsBy perform P s events last) (h' : LeadsBy perform Q s events s') :
    last = s' := by
  induction h with
  | nil s =>
    cases h'
    rfl
  | cons hstep _ _ ih =>
    cases h' with
    | cons hstep' _ hrest' =>
      cases hstep.symm.trans hstep'
      exact ih hrest'

@[elab_as_elim]
theorem LeadsBy.invariant {I : σ → Prop} (hI : ∀ s step answer s', P s step → I s →
      perform step s = .ok (answer, s') → I s')
    (h : LeadsBy perform P s events last) (hs : I s) : I last := by
  induction h with
  | nil s => exact hs
  | cons hstep hP _ ih => exact ih (hI _ _ _ _ hP hs hstep)

theorem LeadsBy.of_mem (h : LeadsBy perform P s events last) {event : Event Answer}
    (hevent : event ∈ events) : ∃ before after t t', events = before ++ event :: after ∧
      LeadsBy perform P s before t ∧ perform event.1 t = .ok (event.2, t') ∧
      LeadsBy perform P t' after last := by
  obtain ⟨before, after, rfl⟩ := append_of_mem hevent
  obtain ⟨t, hbefore, hrest⟩ := h.of_append
  cases hrest with
  | cons hperform _ hafter => exact ⟨before, after, t, _, rfl, hbefore, hperform, hafter⟩

end LeadsBy

theorem Runs.leadsBy {P : Step → Prop} (h : Runs perform m s events a last)
    (hP : ∀ event ∈ events, P event.1) : LeadsBy perform (fun _ step => P step) s events last := by
  induction h with
  | done a s => exact .nil s
  | ask hstep _ ih =>
    obtain ⟨hfirst, hrest⟩ := forall_mem_cons.1 hP
    exact .cons hstep hfirst (ih hrest)

theorem Runs.leads (h : Runs perform m s events a last) : Leads perform s events last :=
  h.leadsBy fun _ _ => trivial

/-- What an event brings about and every step keeps holds at the end of a run. -/
theorem Runs.leaves {M : σ → Prop} (h : Runs perform m s events a last)
    (hkeeps : ∀ step answer t t', perform step t = .ok (answer, t') → M t → M t')
    {event : Event Answer} (hevent : event ∈ events)
    (hmakes : ∀ t t', perform event.1 t = .ok (event.2, t') → M t') : M last := by
  obtain ⟨_, _, t, t', -, -, hperform, hafter⟩ := h.leads.of_mem hevent
  exact hafter.invariant (fun u step answer u' _ hu hstep => hkeeps step answer u u' hstep hu)
    (hmakes t t' hperform)

theorem runs_of_trace (h : trace perform m s = some (events, a, last)) :
    Runs perform m s events a last := by
  induction m generalizing s events with
  | done =>
    cases h
    exact .done _ _
  | fail => cases h
  | ask step next ih =>
    rw [trace] at h
    split at h
    · cases h
    next hstep =>
      obtain ⟨⟨rest, _, _⟩, hrest, heq⟩ := Option.map_eq_some_iff.1 h
      cases heq
      exact .ask hstep (ih _ hrest)

/-- A run can be found, with what can be decided about it. -/
theorem exists_runs_of_trace (perform : (step : Step) → σ → Except Fault (Answer step × σ))
    (m : Script Answer α) (s : σ) (P : List (Event Answer) × α × σ → Prop) [DecidablePred P]
    (h : (trace perform m s).any fun out => P out) :
    ∃ events a last, Runs perform m s events a last ∧ P (events, a, last) := by
  cases hout : trace perform m s with
  | none =>
    rw [hout] at h
    cases h
  | some out =>
    rw [hout] at h
    exact ⟨out.1, out.2.1, out.2.2, runs_of_trace hout, of_decide_eq_true h⟩

/-- A script without a result stops. -/
theorem exists_stops_of_run_eq_error (h : m.run perform s = .error fault) :
    ∃ events refused, Stops perform m s events refused fault := by
  induction m generalizing s with
  | done b => cases h
  | fail own =>
    cases h
    exact ⟨[], none, .fail _ _⟩
  | ask step next ih =>
    rw [run] at h
    split at h
    next own hstep =>
      cases h
      exact ⟨[], some step, .refused hstep⟩
    next answer s' hstep =>
      obtain ⟨events, refused, hstops⟩ := ih answer h
      exact ⟨_, refused, .ask hstep hstops⟩

theorem Stops.perform_eq_error (h : Stops perform m s events (some step) fault) :
    ∃ t, perform step t = .error fault := by
  generalize hrefused : some step = refused at h
  induction h with
  | fail => cases hrefused
  | refused h =>
    cases hrefused
    exact ⟨_, h⟩
  | ask _ _ ih => exact ih hrefused

/-- Where a greater bound changes no answer, a script whose bound is great enough stops only at a
step that is performed under no bound. -/
theorem exists_bound (perform : Nat → (step : Step) → σ → Except Fault (Answer step × σ))
    {E : Step → Prop} {low : Nat} (hmono : ∀ n n' step s out, E step → n ≤ n' →
      perform n step s = .ok out → perform n' step s = .ok out)
    (honly : ∀ n ≥ low, ∀ {events refused fault}, Stops (perform n) m s events refused fault →
      (∀ event ∈ events, E event.1) ∧ ∀ step ∈ refused, E step) :
    ∃ enough ≥ low, ∀ n ≥ enough, ∀ {events step fault},
      Stops (perform n) m s events (some step) fault →
        ∃ t, Leads (perform n) s events t ∧ ∀ n', ∃ fault', perform n' step t = .error fault' := by
  induction m generalizing s low with
  | done | fail =>
    refine ⟨low, Nat.le_refl low, fun n _ _ _ _ h => ?_⟩
    cases h
  | ask step next ih =>
    by_cases hgiven : E step ∧ ∃ n₀ out, perform n₀ step s = .ok out
    · obtain ⟨hstep, n₀, ⟨answer, s'⟩, hgiven⟩ := hgiven
      have hlater : ∀ n ≥ max low n₀, perform n step s = .ok (answer, s') :=
        fun n hn => hmono _ _ _ _ _ hstep (by omega) hgiven
      have hnext : ∀ n ≥ max low n₀, ∀ {events refused fault},
          Stops (perform n) (next answer) s' events refused fault →
            (∀ event ∈ events, E event.1) ∧ ∀ step ∈ refused, E step := fun n hn _ _ _ h =>
        (honly n (by omega) (.ask (hlater n hn) h)).imp_left
          fun hevents => (forall_mem_cons.1 hevents).2
      obtain ⟨enough, henough, hrest⟩ := ih answer hnext
      refine ⟨enough, by omega, fun n hn _ _ _ h => ?_⟩
      have hperform := hlater n (by omega)
      cases h with
      | refused herror => cases hperform.symm.trans herror
      | ask hperform' h =>
        cases hperform.symm.trans hperform'
        obtain ⟨t, ht, hfails⟩ := hrest n hn h
        exact ⟨t, .cons hperform trivial ht, hfails⟩
    · -- the script goes no further, whatever the bound
      refine ⟨low, Nat.le_refl low, fun n hn _ _ _ h => ?_⟩
      have honly := honly n hn h
      cases h with
      | refused herror =>
        refine ⟨s, .nil s, fun n' => ?_⟩
        cases hperform : perform n' step s with
        | error fault' => exact ⟨fault', rfl⟩
        | ok out => exact absurd ⟨honly.2 step rfl, n', out, hperform⟩ hgiven
      | ask hperform _ => exact absurd ⟨(forall_mem_cons.1 honly.1).1, n, _, hperform⟩ hgiven

/-- The results of a script are those of its runs. -/
theorem run_eq_ok_iff :
    m.run perform s = .ok (a, last) ↔ ∃ events, Runs perform m s events a last := by
  induction m generalizing s with
  | done b =>
    constructor
    · rintro ⟨⟩
      exact ⟨[], .done _ _⟩
    · rintro ⟨events, h⟩
      cases h
      rfl
  | fail fault =>
    constructor
    · rintro ⟨⟩
    · rintro ⟨events, h⟩
      cases h
  | ask step next ih =>
    rw [run]
    constructor
    · intro h
      split at h
      · cases h
      next answer s' hstep =>
        obtain ⟨events, hnext⟩ := (ih answer).1 h
        exact ⟨_, .ask hstep hnext⟩
    · rintro ⟨events, h⟩
      cases h with
      | ask hstep hnext =>
        rw [hstep]
        exact (ih _).2 ⟨_, hnext⟩

/-- A script whose result is known in part has a run with that result. -/
theorem exists_runs_of_map_run {γ : Type} {f : α × σ → γ} {c : γ}
    (h : (m.run perform s).toOption.map f = some c) :
    ∃ events a last, Runs perform m s events a last ∧ f (a, last) = c := by
  cases hrun : m.run perform s with
  | error fault =>
    rw [hrun] at h
    cases h
  | ok result =>
    rw [hrun] at h
    obtain ⟨events, hruns⟩ := run_eq_ok_iff.1 hrun
    exact ⟨events, result.1, result.2, hruns, Option.some.inj h⟩

theorem runs_pure_iff : Runs perform (pure a : Script Answer α) s events a' last ↔
      events = [] ∧ a' = a ∧ last = s := by
  constructor
  · intro h
    cases h
    exact ⟨rfl, rfl, rfl⟩
  · rintro ⟨rfl, rfl, rfl⟩
    exact .done _ _

/-- The runs of a script of a single step. -/
theorem runs_ask_done_iff : Runs perform (.ask step .done) s events answer last ↔
      perform step s = .ok (answer, last) ∧ events = [⟨step, answer⟩] := by
  constructor
  · intro h
    cases h with
    | ask hstep hnext =>
      cases hnext
      exact ⟨hstep, rfl⟩
  · rintro ⟨hstep, rfl⟩
    exact .ask hstep (.done _ _)

theorem Runs.bind {first rest : List (Event Answer)} {mid : σ} (h : Runs perform m s first a mid)
    (hrest : Runs perform (f a) mid rest b last) :
    Runs perform (m >>= f) s (first ++ rest) b last := by
  induction h with
  | done a s => exact hrest
  | ask hstep _ ih => exact .ask hstep (ih hrest)

/-- A run of two scripts is a run of the one and then a run of the other. -/
theorem runs_bind_iff : Runs perform (m >>= f) s events b last ↔
      ∃ first a mid rest, Runs perform m s first a mid ∧ Runs perform (f a) mid rest b last ∧
        events = first ++ rest := by
  constructor
  · intro h
    induction m generalizing s events with
    | done a => exact ⟨[], a, s, events, .done a s, h, rfl⟩
    | fail fault => cases h
    | ask step next ih =>
      cases h with
      | ask hstep hnext =>
        obtain ⟨first, a, mid, rest, hfirst, hrest, rfl⟩ := ih _ hnext
        exact ⟨_, a, mid, rest, .ask hstep hfirst, hrest, rfl⟩
  · rintro ⟨first, a, mid, rest, hfirst, hrest, rfl⟩
    exact hfirst.bind hrest

theorem Runs.of_pure (h : Runs perform (pure a : Script Answer α) s events a' last) :
    events = [] ∧ a' = a ∧ last = s :=
  runs_pure_iff.1 h

theorem Runs.of_ask (h : Runs perform (.ask step .done) s events answer last) :
    perform step s = .ok (answer, last) ∧ events = [⟨step, answer⟩] :=
  runs_ask_done_iff.1 h

theorem Runs.of_bind (h : Runs perform (m >>= f) s events b last) :
    ∃ first a mid rest, Runs perform m s first a mid ∧ Runs perform (f a) mid rest b last ∧
      events = first ++ rest :=
  runs_bind_iff.1 h

theorem not_stops_pure : ¬ Stops perform (pure a : Script Answer α) s events refused fault := by
  rintro ⟨⟩

/-- A script of a single step ends without a result only if the step is not performed. -/
theorem Stops.of_ask (h : Stops perform (.ask step .done) s events refused fault) :
    events = [] ∧ refused = some step ∧ perform step s = .error fault := by
  cases h with
  | refused h => exact ⟨rfl, rfl, h⟩
  | ask hstep hnext => cases hnext

/-- Two scripts end without a result in the first one or in the second. -/
theorem Stops.of_bind (h : Stops perform (m >>= f) s events refused fault) :
    Stops perform m s events refused fault ∨ ∃ first a mid rest, Runs perform m s first a mid ∧
        Stops perform (f a) mid rest refused fault ∧ events = first ++ rest := by
  induction m generalizing s events with
  | done a => exact .inr ⟨[], a, s, events, .done a s, h, rfl⟩
  | fail own =>
    cases h
    exact .inl (.fail _ _)
  | ask step next ih =>
    cases h with
    | refused h => exact .inl (.refused h)
    | ask hstep hnext =>
      obtain hfirst | ⟨first, a, mid, rest, hfirst, hrest, rfl⟩ := ih _ hnext
      · exact .inl (.ask hstep hfirst)
      · exact .inr ⟨_, a, mid, rest, .ask hstep hfirst, hrest, rfl⟩

/-- A run that ends with a computation. -/
theorem Runs.of_bind_pure {g : α → β}
    (h : Runs perform (m >>= fun a => pure (g a)) s events b last) :
    ∃ a, Runs perform m s events a last ∧ b = g a := by
  obtain ⟨first, a, _, _, hfirst, hrest, rfl⟩ := h.of_bind
  obtain ⟨rfl, rfl, rfl⟩ := hrest.of_pure
  rw [append_nil]
  exact ⟨a, hfirst, rfl⟩

/-- A run that begins with a step. -/
theorem Runs.of_step_bind {f : Answer step → Script Answer β}
    (h : Runs perform (.ask step .done >>= f) s events b last) :
    ∃ answer s' rest, perform step s = .ok (answer, s') ∧ Runs perform (f answer) s' rest b last ∧
      events = ⟨step, answer⟩ :: rest := by
  cases h with
  | ask hstep hnext => exact ⟨_, _, _, hstep, hnext, rfl⟩

theorem Runs.of_ask_bind {f : Answer step → Script Answer β}
    (hstep : perform step s = .ok (answer, s'))
    (h : Runs perform (.ask step .done >>= f) s events b last) :
    ∃ rest, Runs perform (f answer) s' rest b last ∧ events = ⟨step, answer⟩ :: rest := by
  obtain ⟨_, _, rest, hperform, hrest, rfl⟩ := h.of_step_bind
  cases hstep.symm.trans hperform
  exact ⟨rest, hrest, rfl⟩

/-- An end without a result, after a step. -/
theorem Stops.of_ask_bind {f : Answer step → Script Answer β}
    (hstep : perform step s = .ok (answer, s'))
    (h : Stops perform (.ask step .done >>= f) s events refused fault) :
    ∃ rest, Stops perform (f answer) s' rest refused fault ∧ events = ⟨step, answer⟩ :: rest := by
  obtain h | ⟨_, _, _, rest, hfirst, hrest, rfl⟩ := h.of_bind
  · cases hstep.symm.trans h.of_ask.2.2
  · obtain ⟨hperform, rfl⟩ := runs_ask_done_iff.1 hfirst
    cases hstep.symm.trans hperform
    exact ⟨rest, hrest, rfl⟩

/-- A run over the members of a list has a run for each of them in it. -/
theorem Runs.forM {f : α → Script Answer PUnit} {l : List α} {u : PUnit}
    (h : Runs perform (l.forM f) s events u last) (ha : a ∈ l) :
    ∃ before t own t' after, Leads perform s before t ∧ Runs perform (f a) t own () t' ∧
      Leads perform t' after last ∧ events = before ++ (own ++ after) := by
  induction l generalizing s events with
  | nil => cases ha
  | cons b l ih =>
    obtain ⟨first, _, mid, rest, hfirst, hrest, rfl⟩ := runs_bind_iff.1 h
    obtain rfl | ha := mem_cons.1 ha
    · exact ⟨[], s, first, mid, rest, .nil s, hfirst, hrest.leads, rfl⟩
    · obtain ⟨before, t, own, t', after, hbefore, hown, hafter, rfl⟩ := ih hrest ha
      exact ⟨first ++ before, t, own, t', after, hfirst.leads.append hbefore, hown, hafter,
        (append_assoc ..).symm⟩

/-- A script has one run from each state. -/
theorem Runs.unique {events' : List (Event Answer)} {last' : σ} (h : Runs perform m s events a last)
    (h' : Runs perform m s events' a' last') : events = events' ∧ a = a' ∧ last = last' := by
  induction h generalizing events' with
  | done a s =>
    cases h'
    exact ⟨rfl, rfl, rfl⟩
  | ask hstep _ ih =>
    cases h' with
    | ask hstep' hnext' =>
      cases hstep.symm.trans hstep'
      obtain ⟨rfl, rfl, rfl⟩ := ih hnext'
      exact ⟨rfl, rfl, rfl⟩

end Runs

/-! ### Scripts that ask only for certain steps -/

/-- A script that asks only for certain steps, whatever the answers are. -/
def Only (E : Step → Prop) : Script Answer α → Prop
  | done _ | fail _ => True
  | ask step next => E step ∧ ∀ answer, (next answer).Only E

variable {E F : Step → Prop}

theorem Only.step {step : Step} {f : Answer step → Script Answer β} (h : E step)
    (hf : ∀ answer, (f answer).Only E) : (.ask step .done >>= f : Script Answer β).Only E :=
  ⟨h, hf⟩

theorem Only.bind (hm : m.Only E) (hf : ∀ a, (f a).Only E) : (m >>= f).Only E := by
  induction m with
  | done a => exact hf a
  | fail fault => trivial
  | ask step next ih => exact ⟨hm.1, fun answer => ih answer (hm.2 answer)⟩

theorem Only.discard (hm : m.Only E) : (Functor.discard m).Only E :=
  hm.bind fun _ => trivial

theorem Only.mono (hm : m.Only E) (h : ∀ step, E step → F step) : m.Only F := by
  induction m with
  | done | fail => trivial
  | ask step next ih => exact ⟨h step hm.1, fun answer => ih answer (hm.2 answer)⟩

theorem only_true (m : Script Answer α) : m.Only fun _ => True := by
  induction m with
  | done | fail => trivial
  | ask step next ih => exact ⟨trivial, ih⟩

theorem only_forM {f : α → Script Answer PUnit} (hf : ∀ a, (f a).Only E) (l : List α) :
    (l.forM f).Only E := by
  induction l with
  | nil => exact trivial
  | cons a l ih => exact (hf a).bind fun _ => ih

theorem only_mapM (hf : ∀ a, (f a).Only E) (l : List α) : (l.mapM f).Only E := by
  induction l with
  | nil => exact trivial
  | cons a l ih =>
    rw [mapM_cons]
    exact (hf a).bind fun _ => ih.bind fun _ => trivial

variable {perform : (step : Step) → σ → Except Fault (Answer step × σ)}
  {events : List (Event Answer)} {a : α}

/-- What every step keeps, every run keeps. The history is that of the state before the run. -/
theorem Runs.invariant {P : List (Event Answer) → σ → Prop}
    (hP : ∀ history s step answer s', E step → P history s →
      perform step s = .ok (answer, s') → P (history ++ [⟨step, answer⟩]) s')
    {s last : σ} (h : Runs perform m s events a last) (hm : m.Only E)
    (history : List (Event Answer)) (hs : P history s) : P (history ++ events) last := by
  induction h generalizing history with
  | done a s => rwa [append_nil]
  | ask hstep _ ih =>
    have hnext := ih (hm.2 _) _ (hP history _ _ _ _ hm.1 hs hstep)
    rwa [append_assoc] at hnext

/-- The events of a run are steps that the script asks for. -/
theorem Runs.only {s last : σ} (h : Runs perform m s events a last) (hm : m.Only E) :
    ∀ event ∈ events, E event.1 := by
  induction h with
  | done a s => exact fun _ hevent => nomatch hevent
  | ask _ _ ih => exact forall_mem_cons.2 ⟨hm.1, ih (hm.2 _)⟩

/-- A step that is not performed is one that the script asks for. -/
theorem Stops.only {s : σ} {step : Step} {fault : Fault}
    (h : Stops perform m s events (some step) fault) (hm : m.Only E) : E step := by
  generalize hrefused : some step = refused at h
  induction h with
  | fail => cases hrefused
  | refused h =>
    cases hrefused
    exact hm.1
  | ask _ _ ih => exact ih (hm.2 _) hrefused

end Script

/-! ### Scripts that generate code -/

/-- The state with one more temporary taken. -/
def Build.takeTemp (s : Build) : Build := { s with assembly := s.assembly.freshTemp.2 }

/-- The state with one more instruction in the draft. -/
def Build.emit (s : Build) (i : IR.Instr) : Build := { s with assembly := s.assembly.emit i }

/-- The steps that a script which generates code has asked for, each with its answer. -/
abbrev Gen.Trace := List (Script.Event Step.Answer)

/-- A script that generates code leads from one state to another and gives a result. -/
abbrev Session.Runs (session : Session) {α : Type} (m : Gen α) (s : Build) (events : Gen.Trace)
    (a : α) (s' : Build) : Prop :=
  Script.Runs (Step.perform session) m s events a s'

end Monomorph
