import Monomorph.Proofs.Compile.FixedPoint

/-!
# The limit of rounds

The limit of rounds is read in one place only, where the next round is handed out. Two
compilations of a program under different limits therefore do the same, until one of them refuses a
round that the other hands out. So the limit is a threshold: every limit that the rounds of a
compilation do not exceed gives the same result, and every smaller one ends with the failure to
converge.

## Main results

* `Compile.exists_loops`, `Compile.Loops.limited`, `Compile.Loops.refused`,
  `Compile.limit_isThreshold`.
-/

namespace Monomorph

open List Script

/-! ### Other limits -/

/-- A worklist with another limit. -/
def Worklist.limited (w : Worklist) (limit : Nat) : Worklist := { w with maxRounds := limit }

theorem Worklist.require_limited (w : Worklist) (limit : Nat) (item : WorkItem) :
    ((w.limited limit).require item).2 = (w.require item).2.limited limit := by
  have hsame : (w.limited limit).isGenerated item.kind item.symbol =
      w.isGenerated item.kind item.symbol := rfl
  rw [require, require, hsame]
  split <;> rfl

theorem Worklist.defer_limited (w : Worklist) (limit : Nat) (kind : InstanceKind) (base : String)
    (args : List Ty) :
    ((w.limited limit).defer kind base args).2 = (w.defer kind base args).2.limited limit := by
  have hsame : (w.limited limit).deferred = w.deferred := rfl
  rw [defer, defer, hsame]
  split <;> rfl

namespace Build

/-- The state of a compilation under another limit. -/
def limited (s : Build) (limit : Nat) : Build := { s with worklist := s.worklist.limited limit }

end Build

/-- What is read under another limit. -/
def Session.limited (session : Session) (limit : Nat) : Session :=
  { session with settings := { session.settings with maxRounds := limit } }

/-- The moves that do not depend on the limit. -/
def Move.IgnoresLimit : Move → Prop
  | maxRounds | takeRound => False
  | _ => True

/-- No step of code generation depends on the limit. -/
theorem Step.matches_perform_limited (session : Session) (limit : Nat) (step : Step) (s : Build) :
    Matches (fun t t' : Build => t' = t.limited limit) (step.perform session s)
      (step.perform (session.limited limit) (s.limited limit)) := by
  refine step.matches_perform ⟨rfl, rfl, rfl, rfl, rfl, rfl, rfl, rfl, rfl⟩ fun memo =>
    congrArg (fun worklist => { step.after session s memo with worklist }) ?_
  cases step with
  | require item => exact s.worklist.require_limited limit item
  | defer item => exact s.worklist.defer_limited limit item.kind item.base item.args
  | _ => rfl

/-- The moves that do not depend on the limit do the same under each. -/
theorem Move.IgnoresLimit.matches_perform {move : Move} (h : move.IgnoresLimit)
    (session : Session) (limit : Nat) (s : Build) :
    Matches (fun t t' : Build => t' = t.limited limit) (move.perform session s)
      (move.perform (session.limited limit) (s.limited limit)) := by
  cases move with
  | step own => exact own.matches_perform_limited session limit s
  | maxRounds | takeRound => exact h.elim
  | _ => exact .ok _ rfl

namespace Worklist

theorem SameRounds.trans {w w' w'' : Worklist} (h : w.SameRounds w') (h' : w'.SameRounds w'') :
    w.SameRounds w'' :=
  ⟨h'.limit.trans h.limit, h'.processed.trans h.processed, h'.rounds.trans h.rounds⟩

end Worklist

namespace Compile

variable {session : Session} {s s' : Build} {events : List Event} {α : Type} {a : α}

/-! ### Scripts that do not depend on the limit -/

theorem only_ofGen_ignoresLimit (m : Gen α) : (ofGen m).Only Move.IgnoresLimit :=
  only_steps (fun _ => trivial) m

theorem only_writeTables : writeTables.Only Move.IgnoresLimit :=
  .step trivial fun _ => only_forM (fun request =>
    (only_ofGen_ignoresLimit (Gen.tableEntries request)).bind fun _ => only_perform trivial) _

theorem only_generate (item : WorkItem) : (generate item).Only Move.IgnoresLimit :=
  .step trivial fun _ => only_ofGen_ignoresLimit (Gen.generate item)

/-- What does not depend on the limit gives the same answer under another one. -/
theorem run_limited {m : Compile α} (hm : m.Only Move.IgnoresLimit) (limit : Nat)
    (h : m.run (Move.perform session) s = .ok (a, s')) :
    m.run (Move.perform (session.limited limit)) (s.limited limit) = .ok (a, s'.limited limit) := by
  have hmatches : Matches (fun t t' : Build => t' = t.limited limit)
      (m.run (Move.perform session) s)
      (m.run (Move.perform (session.limited limit)) (s.limited limit)) :=
    matches_run (fun move hmove t t' ht => ht ▸ hmove.matches_perform session limit t) hm rfl
  obtain ⟨t, ht, rfl⟩ := hmatches.exists_ok h
  exact ht

/-- What does not depend on the limit hands out no round. -/
theorem sameRounds_of_run {m : Compile α} (hm : m.Only Move.IgnoresLimit)
    (h : m.run (Move.perform session) s = .ok (a, s')) :
    s.worklist.SameRounds s'.worklist := by
  obtain ⟨events, hruns⟩ := run_eq_ok_iff.1 h
  refine hruns.invariant (P := fun _ t => s.worklist.SameRounds t.worklist) ?_ hm [] (.refl _)
  intro history t move answer t' hmove ht hperform
  cases move with
  | step own =>
    rw [(own.keeps_of_perform hperform).1]
    cases own with
    | require item => exact ht.trans (t.worklist.sameRounds_require item)
    | defer item => exact ht.trans (t.worklist.sameRounds_defer _ _ _)
    | _ => exact ht
  | maxRounds | takeRound => exact hmove.elim
  | _ =>
    cases hperform
    exact ht

/-! ### Iterations -/

/-- What is done with the round that was asked for, and whether another iteration follows. -/
def answerRound : Option (List WorkItem) → Compile Bool
  | some batch => do
      batch.forM generate
      return true
  | none => perform .tablesPending

/-- One iteration of the rounds: the requested tables are written and a round, if there is one, is
generated. The answer is whether another iteration follows. -/
def iteration : Compile Bool := do
  writeTables
  answerRound (← perform .takeRound)

theorem drain_succ (limit : Nat) :
    drain (limit + 1) = iteration >>= fun more => if more then drain limit else pure () := by
  rw [drain, iteration, bind_assoc]
  refine congrArg (writeTables >>= ·) (funext fun _ => ?_)
  rw [bind_assoc]
  refine congrArg (perform .takeRound >>= ·) (funext fun answer => ?_)
  cases answer with
  | none => rfl
  | some batch =>
    dsimp only
    rw [answerRound, bind_assoc]
    rfl

section Iteration

variable {mid : Build} (hwrite : writeTables.run (Move.perform session) s = .ok ((), mid))

include hwrite

/-- After the tables, the answer about the next round decides. -/
theorem run_iteration : iteration.run (Move.perform session) s =
    mid.takeRound >>= fun round => (answerRound round.1).run (Move.perform session) round.2 := by
  rw [iteration, run_bind, hwrite]
  change (perform .takeRound >>= answerRound).run (Move.perform session) mid = _
  rw [perform, run_bind, run_ask_done]
  rfl

/-- With nothing queued, no iteration follows: writing the tables has left none of them. -/
theorem iteration_of_idle (hqueue : mid.worklist.queue = []) :
    iteration.run (Move.perform session) s = .ok (false, mid) := by
  obtain ⟨events, hruns⟩ := run_eq_ok_iff.1 hwrite
  have hpending : mid.tables.hasPending = false := by
    rw [Dispatch.Requests.hasPending, (runs_writeTables hruns).2, isEmpty_nil, Bool.not_true]
  have htake : mid.takeRound = .ok (none, mid) := by
    rw [Build.takeRound, Worklist.nextRound, hqueue]
    rfl
  have hask : Move.perform session .tablesPending mid = .ok (false, mid) := by
    rw [Move.perform, hpending]
  rw [run_iteration hwrite, htake]
  change (perform .tablesPending).run (Move.perform session) mid = _
  rw [perform, run_ask_done, hask]

/-- What the limit allows is handed out and generated. -/
theorem iteration_of_lt (hqueue : mid.worklist.queue ≠ [])
    (hrounds : mid.worklist.rounds < mid.worklist.maxRounds) :
    iteration.run (Move.perform session) s =
      (mid.worklist.queue.forM generate >>= fun _ => pure true).run (Move.perform session)
        { mid with worklist := mid.worklist.handOut } := by
  rw [run_iteration hwrite, Build.takeRound]
  obtain ⟨hnil, -⟩ | ⟨-, hle, -⟩ | ⟨-, -, hnext⟩ := mid.worklist.nextRound_cases
  · exact (hqueue hnil).elim
  · exact (Nat.not_le.2 hrounds hle).elim
  · rw [hnext]
    rfl

/-- A round beyond the limit is refused, and the symbols that wait are named in order. -/
theorem iteration_of_le (hqueue : mid.worklist.queue ≠ [])
    (hrounds : mid.worklist.maxRounds ≤ mid.worklist.rounds) :
    iteration.run (Move.perform session) s = .error (.nonConvergent
        ⟨mid.worklist.rounds, Sorted.distinct (mid.worklist.queue.map WorkItem.symbol)⟩) := by
  rw [run_iteration hwrite, Build.takeRound]
  obtain ⟨hnil, -⟩ | ⟨-, -, hnext⟩ | ⟨-, hlt, -⟩ := mid.worklist.nextRound_cases
  · exact (hqueue hnil).elim
  · rw [hnext]
    rfl
  · exact (Nat.not_le.2 hlt hrounds).elim

end Iteration

/-- Everything that a successful iteration can do. -/
theorem iteration_cases {more : Bool}
    (h : iteration.run (Move.perform session) s = .ok (more, s')) :
    ∃ mid, writeTables.run (Move.perform session) s = .ok ((), mid) ∧
      ((more = false ∧ mid.worklist.queue = [] ∧ s' = mid) ∨
        (more = true ∧ mid.worklist.queue ≠ [] ∧ mid.worklist.rounds < mid.worklist.maxRounds ∧
          (mid.worklist.queue.forM generate).run (Move.perform session)
            { mid with worklist := mid.worklist.handOut } = .ok ((), s'))) := by
  obtain ⟨⟨_, mid⟩, hwrite, -⟩ := bind_eq_ok_iff.1 ((run_bind ..).symm.trans h)
  refine ⟨mid, hwrite, ?_⟩
  by_cases hqueue : mid.worklist.queue = []
  · rw [iteration_of_idle hwrite hqueue] at h
    cases h
    exact .inl ⟨rfl, hqueue, rfl⟩
  · obtain hlt | hle := Nat.lt_or_ge mid.worklist.rounds mid.worklist.maxRounds
    · rw [iteration_of_lt hwrite hqueue hlt, run_bind] at h
      obtain ⟨_, hgenerate, ⟨⟩⟩ := bind_eq_ok_iff.1 h
      exact .inr ⟨rfl, hqueue, hlt, hgenerate⟩
    · rw [iteration_of_le hwrite hqueue hle] at h
      cases h

/-- An iteration that is followed by another has handed out one round. -/
theorem rounds_of_iteration (h : iteration.run (Move.perform session) s = .ok (true, s')) :
    s'.worklist.rounds = s.worklist.rounds + 1 ∧ s.worklist.rounds < s.worklist.maxRounds ∧
      s'.worklist.maxRounds = s.worklist.maxRounds := by
  obtain ⟨mid, hwrite, ⟨hmore, -⟩ | ⟨-, -, hlt, hgenerate⟩⟩ := iteration_cases h
  · cases hmore
  · have hfirst := sameRounds_of_run only_writeTables hwrite
    have hlast := sameRounds_of_run (only_forM only_generate _) hgenerate
    rw [hfirst.rounds, hfirst.limit] at hlt
    refine ⟨hlast.rounds.trans ?_, hlt, hlast.limit.trans hfirst.limit⟩
    exact congrArg (· + 1) hfirst.rounds

/-- An iteration that ends the rounds hands out none. -/
theorem sameRounds_of_iteration (h : iteration.run (Move.perform session) s = .ok (false, s')) :
    s.worklist.SameRounds s'.worklist := by
  obtain ⟨mid, hwrite, ⟨-, -, rfl⟩ | ⟨hmore, -⟩⟩ := iteration_cases h
  · exact sameRounds_of_run only_writeTables hwrite
  · cases hmore

/-- An iteration gives the same under another limit, unless that limit refuses its round. -/
theorem iteration_limited {more : Bool} {limit : Nat}
    (h : iteration.run (Move.perform session) s = .ok (more, s'))
    (hrounds : more = true → s.worklist.rounds < limit) :
    iteration.run (Move.perform (session.limited limit)) (s.limited limit) =
      .ok (more, s'.limited limit) := by
  obtain ⟨mid, hwrite, hcases⟩ := iteration_cases h
  have hwrite' := run_limited only_writeTables limit hwrite
  obtain ⟨rfl, hqueue, rfl⟩ | ⟨rfl, hqueue, -, hgenerate⟩ := hcases
  · exact iteration_of_idle hwrite' hqueue
  · have hlt : (mid.limited limit).worklist.rounds < (mid.limited limit).worklist.maxRounds := by
      exact Nat.lt_of_le_of_lt
        (Nat.le_of_eq (sameRounds_of_run only_writeTables hwrite).rounds) (hrounds rfl)
    have hgenerate' := run_limited (only_forM only_generate _) limit hgenerate
    rw [iteration_of_lt hwrite' hqueue hlt, run_bind]
    change (mid.worklist.queue.forM generate).run _
      (Build.limited { mid with worklist := mid.worklist.handOut } limit) >>= _ = _
    rw [hgenerate']
    rfl

/-- A round that another limit refuses. -/
theorem iteration_refused {limit : Nat}
    (h : iteration.run (Move.perform session) s = .ok (true, s'))
    (hrounds : limit ≤ s.worklist.rounds) :
    ∃ pending, iteration.run (Move.perform (session.limited limit)) (s.limited limit) =
        .error (.nonConvergent ⟨s.worklist.rounds, pending⟩) ∧
      pending ≠ [] ∧ pending.Pairwise (· < ·) := by
  obtain ⟨mid, hwrite, ⟨hmore, -⟩ | ⟨-, hqueue, -, -⟩⟩ := iteration_cases h
  · cases hmore
  · have hsame := (sameRounds_of_run only_writeTables hwrite).rounds
    have hwrite' := run_limited only_writeTables limit hwrite
    have hle : (mid.limited limit).worklist.maxRounds ≤ (mid.limited limit).worklist.rounds :=
      Nat.le_trans hrounds (Nat.le_of_eq hsame.symm)
    refine ⟨Sorted.distinct (mid.worklist.queue.map WorkItem.symbol), ?_, ?_,
      Sorted.pairwise_distinct _⟩
    · rw [iteration_of_le hwrite' hqueue hle, ← hsame]
      rfl
    · obtain ⟨item, rest, hitem⟩ := exists_cons_of_ne_nil hqueue
      refine ne_nil_of_mem (a := item.symbol) ((Sorted.mem_distinct _ _).2 ?_)
      rw [hitem]
      exact mem_cons_self

/-! ### Loops -/

/-- Iteration follows iteration until none is to follow or one fails. The number is that of the
iterations. -/
inductive Loops (session : Session) : Build → Nat → Except Fault Build → Prop
  | stop {s s' : Build} (h : iteration.run (Move.perform session) s = .ok (false, s')) :
      Loops session s 1 (.ok s')
  | fail {s : Build} {fault : Fault}
      (h : iteration.run (Move.perform session) s = .error fault) : Loops session s 1 (.error fault)
  | again {s s' : Build} {n : Nat} {result : Except Fault Build}
      (h : iteration.run (Move.perform session) s = .ok (true, s'))
      (hnext : Loops session s' n result) : Loops session s (n + 1) result

variable {n : Nat} {result : Except Fault Build}

/-- The rounds compute what the iterations come to, whatever bound on them is enough. -/
theorem Loops.run_drain (h : Loops session s n result) {bound : Nat} (hbound : n ≤ bound) :
    (drain bound).run (Move.perform session) s = result.map fun last => ((), last) := by
  obtain ⟨extra, rfl⟩ := Nat.exists_eq_add_of_le' hbound
  induction h generalizing extra with
  | stop h | fail h =>
    rw [drain_succ, run_bind, h]
    rfl
  | again h hnext ih =>
    rw [← Nat.add_assoc, drain_succ, run_bind, h]
    exact ih extra (Nat.le_add_left _ _)

/-- An iteration is the last one or is followed by another. -/
theorem loops_one_or_again (session : Session) (s : Build) : (∃ result, Loops session s 1 result) ∨
      ∃ s', iteration.run (Move.perform session) s = .ok (true, s') := by
  cases h : iteration.run (Move.perform session) s with
  | error fault => exact .inl ⟨_, .fail h⟩
  | ok answer =>
    obtain ⟨more, s'⟩ := answer
    cases more with
    | false => exact .inl ⟨_, .stop h⟩
    | true => exact .inr ⟨s', rfl⟩

/-- There is at most one iteration more than the limit allows further rounds. -/
theorem exists_loops {left : Nat} (h : s.worklist.maxRounds ≤ s.worklist.rounds + left) :
    ∃ n result, n ≤ left + 1 ∧ Loops session s n result := by
  induction left generalizing s with
  | zero =>
    obtain ⟨result, hlast⟩ | ⟨s', hagain⟩ := loops_one_or_again session s
    · exact ⟨1, result, Nat.le_refl _, hlast⟩
    · exact (Nat.not_le.2 (rounds_of_iteration hagain).2.1 h).elim
  | succ left ih =>
    obtain ⟨result, hlast⟩ | ⟨s', hagain⟩ := loops_one_or_again session s
    · exact ⟨1, result, Nat.succ_le_succ (Nat.zero_le _), hlast⟩
    · obtain ⟨hrounds, -, hlimit⟩ := rounds_of_iteration hagain
      obtain ⟨n, result, hn, hloops⟩ := ih (s := s') (by omega)
      exact ⟨n + 1, result, Nat.succ_le_succ hn, .again hagain hloops⟩

/-- All iterations but the last hand out a round. -/
theorem Loops.rounds_eq {last : Build} (h : Loops session s n (.ok last)) :
    last.worklist.rounds + 1 = s.worklist.rounds + n := by
  generalize hresult : Except.ok last = result at h
  induction h with
  | stop h =>
    cases hresult
    rw [(sameRounds_of_iteration h).rounds]
  | fail h => cases hresult
  | again h hnext ih =>
    have hrounds := (rounds_of_iteration h).1
    have hlast := ih hresult
    omega

/-- The iterations are the same under a limit that their rounds do not exceed. -/
theorem Loops.limited {last : Build} {limit : Nat} (h : Loops session s n (.ok last))
    (hlimit : last.worklist.rounds ≤ limit) :
    Loops (session.limited limit) (s.limited limit) n (.ok (last.limited limit)) := by
  generalize hresult : Except.ok last = result at h
  induction h with
  | stop h =>
    cases hresult
    exact .stop (iteration_limited h (by rintro ⟨⟩))
  | fail h => cases hresult
  | again h hnext ih =>
    subst hresult
    refine .again (iteration_limited h fun _ => ?_) (ih rfl)
    have hrounds := (rounds_of_iteration h).1
    have hlast := hnext.rounds_eq
    cases hnext <;> omega

/-- Under a limit that the rounds exceed, the iteration after the last round that is allowed fails,
and names what waits. -/
theorem Loops.refused {last : Build} {limit : Nat} (h : Loops session s n (.ok last))
    (hstart : s.worklist.rounds ≤ limit) (hlimit : limit < last.worklist.rounds) :
    ∃ n' pending, n' + s.worklist.rounds = limit + 1 ∧ pending ≠ [] ∧ pending.Pairwise (· < ·) ∧
      Loops (session.limited limit) (s.limited limit) n'
        (.error (.nonConvergent ⟨limit, pending⟩)) := by
  generalize hresult : Except.ok last = result at h
  induction h with
  | stop h =>
    cases hresult
    rw [(sameRounds_of_iteration h).rounds] at hlimit
    omega
  | fail h => cases hresult
  | @again s s' n result h hnext ih =>
    obtain hlt | heq := Nat.lt_or_eq_of_le hstart
    · have hrounds := (rounds_of_iteration h).1
      obtain ⟨n', pending, hn', hne, hsorted, hloops⟩ := ih (by omega) hresult
      exact ⟨n' + 1, pending, by omega, hne, hsorted,
        .again (iteration_limited h fun _ => hlt) hloops⟩
    · obtain ⟨pending, hfault, hne, hsorted⟩ := iteration_refused h (Nat.le_of_eq heq.symm)
      rw [heq] at hfault
      exact ⟨1, pending, by omega, hne, hsorted, .fail hfault⟩

/-! ### Whole compilations -/

/-- What a compilation does before the rounds. -/
def opening : Compile Unit := do
  Gen.registerCtors
  Gen.homeItems

/-- What a compilation does after the rounds. -/
def closing : Compile Unit := do
  (← perform .deferred).forM fun item => Gen.report item.deferredWarning

theorem only_opening : opening.Only Move.IgnoresLimit :=
  (only_ofGen_ignoresLimit Gen.registerCtors).bind fun _ => only_ofGen_ignoresLimit Gen.homeItems

theorem only_closing : closing.Only Move.IgnoresLimit :=
  .step trivial fun _ => only_forM (fun item : WorkItem =>
    only_ofGen_ignoresLimit (Gen.report item.deferredWarning)) _

theorem all_eq : all = opening >>= fun _ => perform .maxRounds >>= fun limit =>
    drain (limit + 1) >>= fun _ => closing := by
  rw [opening, bind_assoc]
  rfl

variable {program : Program} {settings : Settings}

/-- A compilation is its opening, its rounds and its closing. -/
theorem compile_eq : compile program settings =
    opening.run (Move.perform ⟨program, settings⟩) (.initial settings) >>= fun opened =>
      (drain (settings.maxRounds + 1)).run (Move.perform ⟨program, settings⟩) opened.2 >>=
        fun drained => closing.run (Move.perform ⟨program, settings⟩) drained.2 >>=
          fun closed => pure closed.2.output := by
  rw [compile, all_eq, run_bind, bind_assoc]
  refine congrArg (opening.run _ _ >>= ·) (funext fun opened => ?_)
  rw [run_bind]
  change ((drain (settings.maxRounds + 1) >>= fun _ => closing).run _ opened.2 >>= _) = _
  rw [run_bind, bind_assoc]

/-- The rounds start with none handed out, under the limit of the settings. -/
theorem sameRounds_of_opening
    (h : opening.run (Move.perform ⟨program, settings⟩) (.initial settings) = .ok ((), s)) :
    s.worklist.rounds = 0 ∧ s.worklist.maxRounds = settings.maxRounds := by
  have hsame := sameRounds_of_run only_opening h
  exact ⟨hsame.rounds, hsame.limit⟩

/-- The rounds of a compilation take at most one iteration more than the limit. -/
theorem exists_loops_of_opening
    (h : opening.run (Move.perform ⟨program, settings⟩) (.initial settings) = .ok ((), s)) :
    ∃ n result, n ≤ settings.maxRounds + 1 ∧ Loops ⟨program, settings⟩ s n result := by
  obtain ⟨hrounds, hlimit⟩ := sameRounds_of_opening h
  refine exists_loops (Nat.le_of_eq ?_)
  rw [hrounds, hlimit, Nat.zero_add]

/-- A compilation that gives a result, with its iterations. -/
theorem loops_of_compile_eq_ok {output : Output} (h : compile program settings = .ok output) :
    ∃ opened n drained closed,
      opening.run (Move.perform ⟨program, settings⟩) (.initial settings) = .ok ((), opened) ∧
      Loops ⟨program, settings⟩ opened n (.ok drained) ∧
      closing.run (Move.perform ⟨program, settings⟩) drained = .ok ((), closed) ∧
      closed.output = output := by
  obtain ⟨⟨_, opened⟩, hopening, h⟩ := bind_eq_ok_iff.1 (compile_eq.symm.trans h)
  obtain ⟨n, result, hn, hloops⟩ := exists_loops_of_opening hopening
  rw [hloops.run_drain hn] at h
  cases result with
  | error fault => cases h
  | ok drained =>
    obtain ⟨_, ⟨⟩, h⟩ := bind_eq_ok_iff.1 h
    obtain ⟨_, hclosing, houtput⟩ := bind_eq_ok_iff.1 h
    exact ⟨opened, n, drained, _, hopening, hloops, hclosing, Except.ok.inj houtput⟩

/-- A compilation under another limit, from the iterations under that limit. -/
theorem compile_limited {opened : Build} {limit : Nat}
    (hopening : opening.run (Move.perform ⟨program, settings⟩) (.initial settings) =
      .ok ((), opened))
    (hloops : Loops (Session.limited ⟨program, settings⟩ limit) (opened.limited limit) n result)
    (hn : n ≤ limit + 1) :
    compile program { settings with maxRounds := limit } = result >>= fun drained =>
      closing.run (Move.perform (Session.limited ⟨program, settings⟩ limit)) drained >>=
        fun closed => pure closed.2.output := by
  rw [compile_eq]
  change opening.run (Move.perform (Session.limited ⟨program, settings⟩ limit))
    ((Build.initial settings).limited limit) >>= _ = _
  rw [run_limited only_opening limit hopening]
  change (drain (limit + 1)).run (Move.perform (Session.limited ⟨program, settings⟩ limit))
    (opened.limited limit) >>= _ = _
  rw [hloops.run_drain hn]
  cases result <;> rfl

section Threshold

variable {output : Output} (h : compile program settings = .ok output) {limit : Nat}

include h

/-- A limit that the rounds do not exceed gives the same result. -/
theorem compile_limited_of_le (hlimit : output.rounds ≤ limit) :
    compile program { settings with maxRounds := limit } = .ok output := by
  obtain ⟨opened, n, drained, closed, hopening, hloops, hclosing, rfl⟩ := loops_of_compile_eq_ok h
  have hrounds : closed.worklist.rounds = drained.worklist.rounds :=
    (sameRounds_of_run only_closing hclosing).rounds
  have hlimit : drained.worklist.rounds ≤ limit := hrounds ▸ hlimit
  have hcount := hloops.rounds_eq
  have hstart := (sameRounds_of_opening hopening).1
  rw [compile_limited hopening (hloops.limited hlimit) (by omega)]
  change closing.run _ (drained.limited limit) >>= _ = _
  rw [run_limited only_closing limit hclosing]
  rfl

/-- A limit that the rounds exceed ends with the failure to converge. -/
theorem compile_limited_of_lt (hlimit : limit < output.rounds) : ∃ pending,
    compile program { settings with maxRounds := limit } =
      .error (.nonConvergent ⟨limit, pending⟩) ∧ pending ≠ [] ∧ pending.Pairwise (· < ·) := by
  obtain ⟨opened, n, drained, closed, hopening, hloops, hclosing, rfl⟩ := loops_of_compile_eq_ok h
  have hrounds : closed.worklist.rounds = drained.worklist.rounds :=
    (sameRounds_of_run only_closing hclosing).rounds
  have hlimit : limit < drained.worklist.rounds := hrounds ▸ hlimit
  have hstart := (sameRounds_of_opening hopening).1
  obtain ⟨n', pending, hn', hne, hsorted, hfails⟩ := hloops.refused (by omega) hlimit
  refine ⟨pending, ?_, hne, hsorted⟩
  rw [compile_limited hopening hfails (by omega)]
  rfl

end Threshold

/-- The limit of rounds is a threshold. Where a compilation gives a result, every limit that its
rounds do not exceed gives that same result, and every smaller limit ends with the failure to
converge after that many rounds, with the symbols that wait in strictly increasing order and at
least one of them. Besides, whatever the limit is, the rounds are the iterations of a loop that
takes at most one iteration more than the limit, and no larger bound on the iterations changes what
they come to. -/
theorem limit_isThreshold (program : Program) (settings : Settings) :
    (∀ output, compile program settings = .ok output →
      (∀ limit, output.rounds ≤ limit →
        compile program { settings with maxRounds := limit } = .ok output) ∧
      ∀ limit < output.rounds, ∃ pending,
        compile program { settings with maxRounds := limit } =
          .error (.nonConvergent ⟨limit, pending⟩) ∧
        pending ≠ [] ∧ pending.Pairwise (· < ·)) ∧
    ∀ s, opening.run (Move.perform ⟨program, settings⟩) (.initial settings) = .ok ((), s) →
      ∃ n result, n ≤ settings.maxRounds + 1 ∧ Loops ⟨program, settings⟩ s n result ∧
        ∀ bound, n ≤ bound → (drain bound).run (Move.perform ⟨program, settings⟩) s =
          result.map fun last => ((), last) := by
  constructor
  · intro output h
    exact ⟨fun limit hlimit => compile_limited_of_le h hlimit,
      fun limit hlimit => compile_limited_of_lt h hlimit⟩
  · intro s hopening
    obtain ⟨n, result, hn, hloops⟩ := exists_loops_of_opening hopening
    exact ⟨n, result, hn, hloops, fun bound hbound => hloops.run_drain hbound⟩

/-- The class with an inherited method takes two rounds: one for its table and the method, one for
what the method mentions. -/
theorem limit_isThreshold_inheritedSlot :
    ∃ output, compile inheritedSlot {} = .ok output ∧ output.rounds = 2 ∧
      compile inheritedSlot { maxRounds := 2 } = .ok output ∧
      (∃ pending, compile inheritedSlot { maxRounds := 1 } =
        .error (.nonConvergent ⟨1, pending⟩) ∧ pending ≠ [] ∧ pending.Pairwise (· < ·)) ∧
      ∃ s n result, opening.run (Move.perform ⟨inheritedSlot, { maxRounds := 1 }⟩)
          (.initial { maxRounds := 1 }) = .ok ((), s) ∧
        n ≤ 2 ∧ Loops ⟨inheritedSlot, { maxRounds := 1 }⟩ s n result ∧
        ∀ bound, n ≤ bound →
          (drain bound).run (Move.perform ⟨inheritedSlot, { maxRounds := 1 }⟩) s =
            result.map fun last => ((), last) := by
  obtain ⟨output, hcompile, houtput⟩ := exists_of_compile (P := fun output => output.rounds = 2)
    (by decide +kernel : (compile inheritedSlot {}).toOption.any _)
  obtain ⟨hsame, hrefused⟩ := (limit_isThreshold inheritedSlot {}).1 output hcompile
  obtain ⟨opened, -, -, -, hopening, -⟩ := loops_of_compile_eq_ok hcompile
  have hopening' := run_limited only_opening 1 hopening
  obtain ⟨n, result, hn, hloops, hdrain⟩ :=
    (limit_isThreshold inheritedSlot { maxRounds := 1 }).2 _ hopening'
  exact ⟨output, hcompile, houtput, hsame 2 (Nat.le_of_eq houtput),
    hrefused 1 (Nat.lt_of_lt_of_eq Nat.one_lt_two houtput.symm),
    _, n, result, hopening', hn, hloops, hdrain⟩

end Compile

end Monomorph
