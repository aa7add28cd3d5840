import Monomorph.Compile.DispatchTable
import Monomorph.Proofs.Compile.Ledger
import Monomorph.Proofs.Lowering.Represent

/-!
# Writing dispatch tables requests none

The entries of a dispatch table may request instances, but no further tables. So once the
requested tables are written, none is left.
-/

namespace Monomorph

open List Script

/-- The steps that request no dispatch table. -/
def Step.LeavesTables : Step → Prop
  | requireTable _ => False
  | _ => True

theorem Step.Represents.leavesTables {step : Step} (h : step.Represents) : step.LeavesTables := by
  cases h <;> trivial

theorem Step.LeavesTables.onTables {step : Step} (h : step.LeavesTables)
    (r : Dispatch.Requests) : step.onTables r = r := by
  cases step with
  | requireTable request => exact h.elim
  | _ => rfl

/-! ### Entries -/

namespace Gen

theorem only_functionSymbol {E : Step → Prop} (h : E .symbolStart) (name : String) :
    (functionSymbol name).Only E :=
  .step h fun _ => trivial

theorem only_declareCallee (symbol : String) (sig : Signature) (withReceiver : Bool) :
    (declareCallee symbol sig withReceiver).Only Step.LeavesTables := by
  have hret := (only_returnType sig.ret).mono fun _ => Step.Represents.leavesTables
  have hparams := (only_irTypes sig.params).mono fun _ => Step.Represents.leavesTables
  exact hret.bind fun _ => hparams.bind fun _ => only_perform trivial

theorem only_behaviorEntry (selfTy : Ty) (behavior method : String) :
    (behaviorEntry selfTy behavior method).Only Step.LeavesTables := by
  unfold behaviorEntry
  generalize selfTy.nominal?.getD ("", []) = owner
  refine .step trivial fun p => ?_
  dsimp only
  split
  · exact .step trivial fun _ => trivial
  · split
    · refine (only_functionSymbol trivial _).bind fun symbol => ?_
      split
      · exact (only_declareCallee _ _ _).bind fun _ => trivial
      · exact trivial
    · exact .step trivial fun name =>
        (only_functionSymbol trivial _).bind fun _ => trivial

theorem only_classEntry (className : String) (args : List Ty) (slot : ClassSlot) :
    (classEntry className args slot).Only Step.LeavesTables := by
  unfold classEntry
  refine .step trivial fun p => ?_
  split
  · exact trivial
  · split
    · exact trivial
    · split
      · refine (only_functionSymbol trivial _).bind fun symbol => ?_
        split
        · exact (only_declareCallee _ _ _).bind fun _ => trivial
        · exact trivial
      · exact .step trivial fun name =>
          (only_functionSymbol trivial _).bind fun _ => trivial

/-- The entries of a table request no tables. -/
theorem only_tableEntries (request : Dispatch.Request) :
    (tableEntries request).Only Step.LeavesTables := by
  cases request with
  | behavior selfTy name args =>
    exact .step trivial fun p => only_mapM (only_behaviorEntry selfTy name) _
  | cls name args =>
    exact .step trivial fun p => only_mapM (only_classEntry name args) _

end Gen

/-! ### Code generation inside a compilation -/

/-- The moves that are steps of code generation, of a certain kind. -/
def Move.IsStep (E : Step → Prop) : Move → Prop
  | step own => E own
  | _ => False

namespace Compile

theorem only_ofGen {E : Step → Prop} {α : Type} {m : Gen α} (h : m.Only E) :
    (ofGen m).Only (Move.IsStep E) := by
  induction m with
  | done | fail => trivial
  | ask step next ih => exact ⟨h.1, fun answer => ih answer (h.2 answer)⟩

theorem only_steps {E : Move → Prop} (hE : ∀ own, E (.step own)) {α : Type} (m : Gen α) :
    (ofGen m).Only E :=
  (only_ofGen m.only_true).mono fun move hmove => by
    cases move with
    | step own => exact hE own
    | _ => exact hmove.elim

theorem only_perform {E : Move → Prop} {move : Move} (h : E move) : (perform move).Only E :=
  ⟨h, fun _ => trivial⟩

variable {session : Session} {s s' : Build} {events : List Event} {α : Type} {m : Compile α} {a : α}

/-- Code generation that requests no tables leaves their requests as they were. -/
theorem tables_of_steps (hm : m.Only (Move.IsStep Step.LeavesTables))
    (h : Runs (Move.perform session) m s events a s') : s'.tables = s.tables := by
  refine h.invariant (P := fun _ t => t.tables = s.tables) ?_ hm [] rfl
  intro history t move answer t' hmove ht hperform
  cases move with
  | step own => rw [(own.keeps_of_perform hperform).2.1, hmove.onTables, ht]
  | _ => exact hmove.elim

/-! ### What events hand out and deal with -/

/-- The rounds that events hand out, the instances that they turn to, and the dispatch tables that
they hand out and write. None of them finds a dispatch table left after a round. -/
structure Adds (events : List Event) (rounds : List (List WorkItem)) (dealt : List WorkItem)
    (taken : List Dispatch.Request) (written : List String) : Prop where
  batches : events.flatMap Compile.batches = rounds
  generated : events.flatMap Compile.generated = dealt
  tablesTaken : events.flatMap Compile.tablesTaken = taken
  tableWritten : events.flatMap Compile.tableWritten = written
  noneLeft : ⟨.tablesPending, true⟩ ∉ events

theorem adds_nil : Adds [] [] [] [] [] := ⟨rfl, rfl, rfl, rfl, not_mem_nil⟩

theorem adds_singleton (event : Event) (h : event ≠ ⟨.tablesPending, true⟩) :
    Adds [event] (batches event) (generated event) (tablesTaken event) (tableWritten event) :=
  ⟨flatMap_singleton _ _, flatMap_singleton _ _, flatMap_singleton _ _,
    flatMap_singleton _ _, fun hmem => h (mem_singleton.1 hmem).symm⟩

theorem Adds.append {first rest : List Event} {rounds rounds' : List (List WorkItem)}
    {dealt dealt' : List WorkItem} {taken taken' : List Dispatch.Request}
    {written written' : List String} (h : Adds first rounds dealt taken written)
    (h' : Adds rest rounds' dealt' taken' written') :
    Adds (first ++ rest) (rounds ++ rounds') (dealt ++ dealt') (taken ++ taken')
      (written ++ written') := by
  constructor
  · rw [flatMap_append, h.batches, h'.batches]
  · rw [flatMap_append, h.generated, h'.generated]
  · rw [flatMap_append, h.tablesTaken, h'.tablesTaken]
  · rw [flatMap_append, h.tableWritten, h'.tableWritten]
  · rw [mem_append, not_or]
    exact ⟨h.noneLeft, h'.noneLeft⟩

/-- Code generation hands out nothing and deals with nothing handed out. -/
theorem adds_of_steps {E : Step → Prop} (hm : m.Only (Move.IsStep E))
    (h : Runs (Move.perform session) m s events a s') : Adds events [] [] [] [] := by
  have hstep := h.only hm
  have hnil {β : Type} (f : Event → List β) (hf : ∀ own answer, f ⟨.step own, answer⟩ = []) :
      events.flatMap f = [] := by
    refine flatMap_eq_nil_iff.2 fun event hevent => ?_
    have hstep := hstep event hevent
    obtain ⟨move, answer⟩ := event
    cases move with
    | step own => exact hf own answer
    | _ => exact hstep.elim
  exact ⟨hnil _ fun _ _ => rfl, hnil _ fun _ _ => rfl, hnil _ fun _ _ => rfl,
    hnil _ fun _ _ => rfl, hstep _⟩

theorem adds_ofGen {m : Gen α} (h : Runs (Move.perform session) (ofGen m) s events a s') :
    Adds events [] [] [] [] :=
  adds_of_steps (only_ofGen m.only_true) h

/-- Events that hand out the given rounds and settle what they hand out: each instance is turned
to and each dispatch table is written, once and in order. -/
def Settles (events : List Event) (rounds : List (List WorkItem)) : Prop :=
  ∃ taken, Adds events rounds rounds.flatten taken (taken.map Dispatch.Request.table)

theorem Settles.append {first rest : List Event} {rounds rounds' : List (List WorkItem)}
    (h : Settles first rounds) (h' : Settles rest rounds') :
    Settles (first ++ rest) (rounds ++ rounds') := by
  obtain ⟨taken, hadds⟩ := h
  obtain ⟨taken', hadds'⟩ := h'
  refine ⟨taken ++ taken', ?_⟩
  rw [flatten_append, map_append]
  exact hadds.append hadds'

/-! ### Writing tables -/

/-- Writing a table requests no other. -/
theorem runs_writeTable {request : Dispatch.Request}
    (h : Runs (Move.perform session) (writeTable request) s events () s') :
    Adds events [] [] [] [request.table] ∧ s'.tables = s.tables := by
  obtain ⟨first, entries, mid, rest, hentries, hwrite, rfl⟩ := h.of_bind
  obtain ⟨hperform, rfl⟩ := hwrite.of_ask
  have htables := tables_of_steps (only_ofGen (Gen.only_tableEntries request)) hentries
  cases hperform
  exact ⟨(adds_ofGen hentries).append (adds_singleton _ nofun), htables⟩

theorem runs_forM_writeTable {requests : List Dispatch.Request}
    (h : Runs (Move.perform session) (requests.forM writeTable) s events () s') :
    Adds events [] [] [] (requests.map Dispatch.Request.table) ∧ s'.tables = s.tables := by
  induction requests generalizing s events with
  | nil =>
    obtain ⟨rfl, -, rfl⟩ := h.of_pure
    exact ⟨adds_nil, rfl⟩
  | cons request requests ih =>
    obtain ⟨first, _, mid, rest, hfirst, hrest, rfl⟩ := h.of_bind
    obtain ⟨hadds, htables⟩ := runs_writeTable hfirst
    obtain ⟨hadds', htables'⟩ := ih hrest
    exact ⟨hadds.append hadds', htables'.trans htables⟩

/-- Writing the requested tables settles them and leaves none. -/
theorem runs_writeTables (h : Runs (Move.perform session) writeTables s events () s') :
    Settles events [] ∧ s'.tables.pending = [] := by
  obtain ⟨_, hwrite, rfl⟩ := h.of_ask_bind rfl
  obtain ⟨hadds, htables⟩ := runs_forM_writeTable hwrite
  refine ⟨⟨s.tables.pending, ?_⟩, by rw [htables]; rfl⟩
  have htaken := (adds_singleton ⟨.takeTables, s.tables.pending⟩ nofun).append hadds
  rwa [show tablesTaken ⟨.takeTables, s.tables.pending⟩ ++ [] = s.tables.pending from
    append_nil _] at htaken

end Compile

end Monomorph
