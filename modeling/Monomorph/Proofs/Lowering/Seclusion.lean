import Monomorph.Proofs.Lowering.Bodies
import Monomorph.Proofs.Lowering.Linear

/-!
# Temporaries out of reach

Code uses the temporaries that it takes itself and those that local names stand for. A temporary
that was taken before, and that no local name stands for, is therefore out of its reach.
-/

namespace Monomorph

open List Script

/-- The temporaries that local names stand for are taken, and so are the hidden ones, which are
others. -/
structure Secludes (hidden : List Nat) (s : Build) : Prop where
  taken : ∀ id ∈ hidden, id < s.assembly.temps
  scope : ∀ entry ∈ s.scope.entries, ∀ id, entry.2.storage.operand = .temp id →
    id < s.assembly.temps ∧ id ∉ hidden

/-- Lines are added that do not use the hidden temporaries. -/
structure Avoids (hidden : List Nat) (s s' : Build) : Prop where
  temps : s.assembly.temps ≤ s'.assembly.temps
  lines : ∃ own, s'.assembly.draft.lines.toList = s.assembly.draft.lines.toList ++ own ∧
    ∀ line ∈ own, ∀ id ∈ hidden, .temp id ∉ line.operands

namespace Seclusion

variable {session : Session} {hidden : List Nat} {mode : Mode} {s s' s'' : Build}

theorem takeTemp (h : Secludes hidden s) : Secludes hidden s.takeTemp :=
  ⟨fun id hid => Nat.lt_succ_of_lt (h.taken id hid), fun entry hentry id hid =>
    (h.scope entry hentry id hid).imp_left Nat.lt_succ_of_lt⟩

/-- The next temporary can be hidden too. -/
theorem takeTemp_cons (h : Secludes hidden s) :
    Secludes (s.assembly.temps :: hidden) s.takeTemp := by
  have h' := takeTemp h
  refine ⟨forall_mem_cons.2 ⟨Nat.lt_succ_self _, h'.taken⟩, fun entry hentry id hid => ?_⟩
  refine (h'.scope entry hentry id hid).imp_right fun hnew => ?_
  exact not_mem_cons_of_ne_of_not_mem (Nat.ne_of_lt (h.scope entry hentry id hid).1) hnew

theorem avoids_of_lines_eq (htemps : s.assembly.temps ≤ s'.assembly.temps)
    (hlines : s'.assembly.draft.lines = s.assembly.draft.lines) : Avoids hidden s s' :=
  ⟨htemps, [], by rw [hlines, append_nil], forall_mem_nil _⟩

theorem avoids_trans (h : Avoids hidden s s') (h' : Avoids hidden s' s'') :
    Avoids hidden s s'' := by
  obtain ⟨own, hown, havoids⟩ := h.lines
  obtain ⟨own', hown', havoids'⟩ := h'.lines
  refine ⟨Nat.le_trans h.temps h'.temps, own ++ own', ?_, forall_mem_append.2 ⟨havoids, havoids'⟩⟩
  rw [hown', hown, append_assoc]

/-- A line that does not use what is hidden. -/
theorem append {line : IR.Line} (h : Secludes hidden s)
    (hline : ∀ id, .temp id ∈ line.operands → id ∉ hidden) :
    Secludes hidden (s.append line) ∧ Avoids hidden s (s.append line) :=
  ⟨⟨h.taken, h.scope⟩, Nat.le_refl _, [line], s.lines_append line,
    forall_mem_singleton.2 fun id hid huse => hline id huse hid⟩

/-- A line whose result is a temporary that was taken before. -/
theorem append_result {line : IR.Line} (h : Secludes hidden s) (hord : Avoids hidden s.takeTemp s')
    (h' : Secludes hidden s') (hline : ∀ id, .temp id ∈ line.operands → id ∉ hidden) :
    Secludes hidden (s'.append line) ∧ Avoids hidden s (s'.append line) ∧
      s.assembly.temps < s'.assembly.temps ∧ s.assembly.temps ∉ hidden := by
  obtain ⟨hinv, havoids⟩ := append h' hline
  have hfirst : Avoids hidden s s.takeTemp := avoids_of_lines_eq (Nat.le_succ _) rfl
  exact ⟨hinv, avoids_trans hfirst (avoids_trans hord havoids), hord.temps,
    fun hmem => Nat.lt_irrefl _ (h.taken _ hmem)⟩

variable (hidden)

/-- The invariant. -/
def Inv : Mode → Build → Prop
  | .outside, s => ∀ id ∈ hidden, id < s.assembly.temps
  | .inside, s => Secludes hidden s

variable (session)

/-- The temporaries that may be used are those that are taken and not hidden. -/
def facts : Facts session where
  focus := .none session
  Name := .full
  Item _ := True
  TypeName _ := True
  Temp s id := id < s.assembly.temps ∧ id ∉ hidden
  Inv := Inv hidden
  Order := Avoids hidden
  order_refl _ := avoids_of_lines_eq (Nat.le_refl _) rfl
  order_trans := avoids_trans
  temp_mono h hid := ⟨Nat.lt_of_lt_of_le hid.1 h.temps, hid.2⟩

variable {session hidden}

theorem inv_of_sameCode (h : Inv hidden mode s) (hsame : s.SameCode s') : Inv hidden mode s' := by
  cases mode with
  | outside =>
    rw [Inv, hsame.temps]
    exact h
  | inside =>
    refine ⟨?_, ?_⟩
    · rw [hsame.temps]
      exact h.taken
    · rw [hsame.temps, hsame.scope]
      exact h.scope

theorem avoids_of_sameCode (hsame : s.SameCode s') : Avoids hidden s s' :=
  avoids_of_lines_eq (Nat.le_of_eq hsame.temps.symm) (hsame.draft ▸ rfl)

/-- Good operands are not hidden. -/
theorem notMem_of_ok {i : IR.Instr} (h : (facts session hidden).Ok s i) :
    ∀ id, .temp id ∈ (IR.Line.instr i).operands → id ∉ hidden :=
  fun id hid => (h.2 (.temp id) hid).2

variable (session hidden)

/-- Code generation one line after the other. -/
def linear : Linear session where
  toFacts := facts session hidden
  quiet h hallows _ hperform :=
    have hsame := hallows.sameCode hperform
    ⟨inv_of_sameCode h hsame, avoids_of_sameCode hsame⟩
  takeTemp h := ⟨takeTemp h, avoids_of_lines_eq (Nat.le_succ _) rfl⟩
  result h hord h' _ _ hi _ := append_result h hord h' (notMem_of_ok hi)
  effect h _ _ hi _ := append h (notMem_of_ok hi)
  takeLabel h := ⟨⟨h.taken, h.scope⟩, avoids_of_lines_eq (Nat.le_refl _) rfl⟩
  place _ h := append h nofun
  leave h _ hi _ := append h (notMem_of_ok hi)
  join {s} _ _ _ _ _ h hty hfirst hsecond :=
    have hi : (facts session hidden).Ok s (IR.Instr.phi ..) :=
      ⟨forall_mem_singleton.2 hty, Facts.ok_pair hfirst hsecond⟩
    append_result h ((facts session hidden).order_refl _) (takeTemp h) (notMem_of_ok hi)

/-- Representing types keeps temporaries out of reach. -/
def representing : Representing session where
  toElements := (linear session hidden).toElements
  defined _ := trivial
  definedType _ hargs :=
    Elements.sound_definedType (fun _ _ => trivial) (fun _ => trivial) _ hargs

variable {session hidden}

theorem ok_operand {operand : IR.Operand} : (facts session hidden).Ok s operand ↔
    ∀ id, operand = .temp id → id < s.assembly.temps ∧ id ∉ hidden := by
  cases operand with
  | temp id => exact ⟨by rintro h _ ⟨⟩; exact h, fun h => h id rfl⟩
  | _ => exact ⟨by rintro _ _ ⟨⟩, fun _ => trivial⟩

variable (session hidden)

/-- Code generation keeps temporaries out of reach. -/
def discipline : Discipline session where
  toRepresenting := representing session hidden
  program := session.over_full
  code _ _ := trivial
  scope h entry hentry := ⟨trivial, ok_operand.2 (h.scope entry hentry),
    Ty.over_full _, fun _ _ => trivial⟩
  ctors _ _ _ := ⟨trivial, fun _ _ => trivial, trivial⟩
  bindLocal _ h hl := ⟨⟨h.taken, forall_mem_cons.2 ⟨ok_operand.1 hl.1, h.scope⟩⟩,
    avoids_of_lines_eq (Nat.le_refl _) rfl⟩
  classStruct _ := Representing.sound_classStruct fun _ => trivial
  stop hend _ hi := Linear.stop hend hi
  assertThat := Linear.assertThat
  callEither := Linear.callEither
  begin {s _ _} symbol h _ _ := by
    obtain ⟨-, htemps, -, hscope, -⟩ := s.beginFunction_code _ symbol _
    refine ⟨htemps ▸ h, ?_⟩
    rw [hscope]
    exact forall_mem_nil _
  finish h _ _ := h.taken
  move {s s'} _ _ h hmove _ hperform :=
    show Inv hidden .outside s' from inv_of_sameCode (s := s) h (hmove.sameCode hperform)

variable {session}

/-- Expressions of every depth can be lowered. -/
theorem lowers_ofDepth (b : Bindings) (result : Ty) (depth : Nat) :
    (discipline session hidden).Lowers (Lowering.ofDepth b result depth) :=
  Discipline.lowers_ofDepth (.of_closes (fun _ _ => Ty.over_full _)
    (Ty.over_full _) (fun _ _ _ _ => trivial) trivial fun _ => trivial) depth

instance : (discipline session hidden).IsFull := ⟨Focus.allows_taking _⟩

/-- A step leaves the temporaries of local names taken if it gives the names taken ones. -/
theorem secludes_of_perform {step : Step} {answer : step.Answer} (h : Secludes [] s)
    (hbinds : (facts session []).BindsWell s step)
    (hperform : step.perform session s = .ok (answer, s')) : Secludes [] s' := by
  obtain ⟨memo, rfl⟩ := Step.eq_of_perform hperform
  have htemps : s.assembly.temps ≤ (step.onAssembly s.assembly).temps := by
    cases hdrafting : step.isDrafting with
    | false =>
      obtain ⟨_, _, _, _, heq⟩ := Step.onAssembly_eq hdrafting s.assembly
      rw [heq]
    | true =>
      cases step with
      | fresh => exact Nat.le_succ _
      | beginFunction ret symbol params =>
        exact Nat.le_of_eq (s.beginFunction_code ret symbol params).2.1.symm
      | freshLabel | emit | block | finishFunction => exact Nat.le_refl _
      | _ => cases hdrafting
  have hok : (discipline session []).Ok s s.scope := (discipline session []).scope h
  have hscope : (discipline session []).Ok s (step.onScope s.scope) := by
    cases step with
    | bindLocal name l => exact forall_mem_cons.2 ⟨⟨trivial, hbinds⟩, hok⟩
    | storeConv name conv =>
      rw [Step.onScope, Scope.storeConv]
      split
      · exact hok
      next l hfind =>
        have hl : (discipline session []).Ok s l := Discipline.ok_find? hok hfind
        exact forall_mem_cons.2 ⟨⟨trivial, hl⟩, hok⟩
    | beginFunction => exact forall_mem_nil _
    | _ => exact hok
  refine ⟨forall_mem_nil _, fun entry hentry id hid => ?_⟩
  exact (ok_operand.1 (hscope entry hentry).2.1 id hid).imp_left (Nat.lt_of_lt_of_le · htemps)

end Seclusion

/-- Code does not use what is hidden. -/
theorem Secludes.of_runs {session : Session} {hidden : List Nat} {s s' : Build} {α : Type}
    {m : Gen α} {Q : Build → α → Prop} {events : Gen.Trace} {a : α}
    (h : Secludes hidden s) (hm : (Seclusion.discipline session hidden).Ensures .inside s m Q)
    (hrun : session.Runs m s events a s') :
    Secludes hidden s' ∧ Avoids hidden s s' ∧ Q s' a := by
  obtain ⟨hs', hord, -, ha⟩ := hm.ends h events a s' hrun fun _ _ => trivial
  exact ⟨hs', hord rfl, ha⟩

end Monomorph
