import Monomorph.Proofs.Compile.Symbols
import Monomorph.Proofs.Compile.TypeBodies

/-!
# Types that are represented again

Representing a type defines types and requests instances on the way. Each of these steps does
nothing when it is taken again, at once or rounds later: what is defined stays defined, and what was
requested or put aside stays so, although rounds are handed out in between. So a type that was
represented once is represented in the same way ever after, and nothing changes.

## Main results

* `Step.IsSettled.move`, `Step.Represents.perform_eq_self`, `Gen.run_irType_again`.
-/

namespace Monomorph

open Script

/-- The events of a run can happen again in a state that none of them changes. -/
theorem Script.Runs.again {Step σ α : Type} {Answer : Step → Type}
    {perform : (step : Step) → σ → Except Fault (Answer step × σ)} {m : Script Answer α}
    {s last t : σ} {events : List (Event Answer)} {a : α} (h : Runs perform m s events a last)
    (ht : ∀ event ∈ events, perform event.1 t = .ok (event.2, t)) :
    Runs perform m t events a t := by
  induction h with
  | done a => exact .done a t
  | ask _ _ ih =>
    rw [List.forall_mem_cons] at ht
    exact .ask ht.1 (ih ht.2)

variable {session : Session} {s s' t : Build}

/-! ### Steps that were taken -/

theorem IR.Assembly.definesType_defineType {a : Assembly} {name own : String} {body : Ty} :
    (a.defineType name body).definesType own ↔ own = name ∨ a.definesType own := by
  rw [defineType]
  split
  next hname =>
    refine ⟨.inr, ?_⟩
    rintro (rfl | hown)
    · exact hname
    · exact hown
  · simp [definesType_iff, or_comm]

/-- A step of representing types that was taken. -/
def Step.IsSettled (s : Build) : Step → Prop
  | .defineType name _ => s.assembly.definesType name
  | .require item => item.key ∈ s.worklist.generated
  | .defer item => ∃ d ∈ s.worklist.deferred,
      d.kind = item.kind ∧ d.base = item.base ∧ d.args = item.args
  | _ => True

namespace Step

variable {step : Step} {answer : step.Answer}

theorem Represents.isSettled (hstep : step.Represents)
    (h : step.perform session s = .ok (answer, s')) : step.IsSettled s' := by
  cases hstep with
  | program => trivial
  | defineType name body =>
    cases h
    exact IR.Assembly.definesType_defineType.2 (.inl rfl)
  | require item =>
    cases h
    simp only [IsSettled, Worklist.require]
    split
    next hgenerated => exact List.contains_iff_mem.1 hgenerated
    · exact List.mem_cons_self
  | defer item =>
    cases h
    exact s.worklist.exists_mem_deferred_defer item.kind item.base item.args

/-- A step that was taken answers as before and does nothing. -/
theorem Represents.perform_eq_self (hstep : step.Represents)
    (h : step.perform session s = .ok (answer, s')) (ht : step.IsSettled t) :
    step.perform session t = .ok (answer, t) := by
  cases hstep with
  | program =>
    cases h
    rfl
  | defineType name body =>
    cases h
    have hsame : t.assembly.defineType name body = t.assembly := if_pos ht
    rw [perform, hsame]
  | require item =>
    cases h
    rw [perform, Worklist.require_of_mem ht]
    rfl
  | defer item =>
    cases h
    have hsame : (t.worklist.defer item.kind item.base item.args).2 = t.worklist := by
      obtain ⟨d, hd, hitem⟩ := ht
      exact if_pos (List.any_eq_true.2 ⟨d, hd, by simpa [and_assoc] using hitem⟩)
    rw [perform, hsame]
    rfl

end Step

/-! ### Steps that stay taken -/

theorem Move.definesType_of_perform {move : Move} {answer : move.Answer}
    (h : move.perform session s = .ok (answer, s')) {name : String}
    (hname : s.assembly.definesType name) : s'.assembly.definesType name := by
  cases move with
  | step own =>
    have hown : (own.onTypes s.assembly).definesType name := by
      cases own with
      | defineType other body => exact IR.Assembly.definesType_defineType.2 (.inr hname)
      | _ => exact hname
    rwa [IR.Assembly.definesType, own.types_of_perform h]
  | takeRound => obtain ⟨-, -, rfl⟩ | ⟨-, -, rfl⟩ := Build.takeRound_eq_ok h <;> exact hname
  | _ =>
    cases h
    exact hname

theorem Move.generated_subset_of_perform {move : Move} {answer : move.Answer}
    (h : move.perform session s = .ok (answer, s')) :
    s.worklist.generated ⊆ s'.worklist.generated := by
  cases move with
  | step own =>
    rw [(own.keeps_of_perform h).1]
    cases own with
    | require item =>
      rw [Step.onWorklist, Worklist.require]
      split
      · exact List.Subset.refl _
      · exact List.subset_cons_self _ _
    | defer item =>
      rw [Step.onWorklist, Worklist.defer]
      split <;> exact List.Subset.refl _
    | _ => exact List.Subset.refl _
  | takeRound =>
    obtain ⟨-, -, rfl⟩ | ⟨-, -, rfl⟩ := Build.takeRound_eq_ok h <;> exact List.Subset.refl _
  | _ =>
    cases h
    exact List.Subset.refl _

/-- What was taken stays so, whatever the compilation does. -/
theorem Step.IsSettled.move {step : Step} (hs : step.IsSettled s) (move : Move)
    {answer : move.Answer} (h : move.perform session s = .ok (answer, s')) : step.IsSettled s' := by
  cases step with
  | defineType name body => exact Move.definesType_of_perform h hs
  | require item => exact Move.generated_subset_of_perform h hs
  | defer item =>
    obtain ⟨d, hd, hitem⟩ := hs
    exact ⟨d, (Move.grows_of_perform h).deferred.subset hd, hitem⟩
  | _ => trivial

theorem Step.IsSettled.runs {step : Step} (hs : step.IsSettled s) {α : Type} {m : Compile α}
    {events : List Compile.Event} {a : α} (h : Runs (Move.perform session) m s events a s') :
    step.IsSettled s' :=
  h.leads.invariant (fun _ move _ _ _ hu hmove => hu.move move hmove) hs

/-! ### Types -/

namespace Gen

/-- Representing a type gives an answer that depends on the program and the type only. When the type
is represented again, at once or after anything else that a compilation does, the answer is the same
and the state is left as it is. -/
theorem run_irType_again (session : Session) (t : Ty) (s : Build) :
    ∃ s', (irType t).run (Step.perform session) s = .ok (session.program.ir t, s') ∧
      (irType t).run (Step.perform session) s' = .ok (session.program.ir t, s') ∧
      ∀ (α : Type) (m : Compile α) (a : α) (last : Build),
        m.run (Move.perform session) s' = .ok (a, last) →
          (irType t).run (Step.perform session) last = .ok (session.program.ir t, last) := by
  obtain ⟨events, s', hruns, -, -⟩ := gives_ir session t s
  have hrepresents := hruns.only (only_irType t)
  have hsettled : ∀ event ∈ events, event.1.IsSettled s' := fun event hevent =>
    hruns.leaves (fun step _ _ _ h hs => hs.move (.step step) h) hevent
      fun _ _ h => (hrepresents event hevent).isSettled h
  have hagain (last : Build) (hlast : ∀ event ∈ events, event.1.IsSettled last) :
      (irType t).run (Step.perform session) last = .ok (session.program.ir t, last) := by
    refine run_eq_ok_iff.2 ⟨events, hruns.again fun event hevent => ?_⟩
    obtain ⟨_, _, _, _, -, -, hperform, -⟩ := hruns.leads.of_mem hevent
    exact (hrepresents event hevent).perform_eq_self hperform (hlast event hevent)
  refine ⟨s', run_eq_ok_iff.2 ⟨events, hruns⟩, hagain s' hsettled, fun α m a last hm => ?_⟩
  obtain ⟨later, hlater⟩ := run_eq_ok_iff.1 hm
  exact hagain last fun event hevent => (hsettled event hevent).runs hlater

end Gen

end Monomorph
