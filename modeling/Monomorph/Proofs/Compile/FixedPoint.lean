import Monomorph.Compile.Module
import Monomorph.Proofs.Compile.Tables

/-!
# A compilation settles all requests

Lowering requests instances and dispatch tables, the entries of tables request instances, and
instances request both again. A compilation that ends has settled all of them: each instance was
generated once, in the order of the first requests, and each table was written once.

## Main results

* `Compile.runs_drain`, `Compile.settled_of_compile_eq_ok`.
-/

namespace Monomorph

open List Script

namespace Compile

variable {session : Session} {s s' : Build} {events history : List Event} {batch : List WorkItem}
  {maxRounds : Nat} {settings : Settings} {program : Program}

/-! ### Rounds -/

theorem runs_generate {item : WorkItem}
    (h : Runs (Move.perform session) (generate item) s events () s') :
    Adds events [] [item] [] [] := by
  obtain ⟨_, hrest, rfl⟩ := h.of_ask_bind rfl
  exact (adds_singleton ⟨.generate item, ()⟩ nofun).append (adds_ofGen hrest)

/-- Generating the instances of a round turns to each of them once. -/
theorem runs_forM_generate (h : Runs (Move.perform session) (batch.forM generate) s events () s') :
    Adds events [] batch [] [] := by
  induction batch generalizing s events with
  | nil =>
    obtain ⟨rfl, -, rfl⟩ := h.of_pure
    exact adds_nil
  | cons item batch ih =>
    obtain ⟨first, _, mid, rest, hfirst, hrest, rfl⟩ := h.of_bind
    exact (runs_generate hfirst).append (ih hrest)

/-- No round is handed out only if nothing is queued. -/
theorem takeRound_eq_none (h : s.takeRound = .ok (none, s')) : s' = s ∧ s.worklist.queue = [] := by
  obtain ⟨hqueue, -, rfl⟩ | ⟨-, hanswer, -⟩ := Build.takeRound_eq_ok h
  · exact ⟨rfl, hqueue⟩
  · cases hanswer

/-- A round that is handed out and generated is settled. -/
theorem settles_round (h : Runs (Move.perform session) (batch.forM generate) s events () s') :
    Settles (⟨.takeRound, some batch⟩ :: events) [batch] := by
  have hround := (adds_singleton ⟨.takeRound, some batch⟩ nofun).append (runs_forM_generate h)
  refine ⟨[], ?_⟩
  rw [flatten_singleton]
  exact hround

/-- The rounds counted are those handed out. -/
theorem Settles.rounds_eq {rounds : List (List WorkItem)} (hsettles : Settles events rounds)
    (h : Ledger maxRounds history s) (h' : Ledger maxRounds (history ++ events) s') :
    s'.worklist.rounds = s.worklist.rounds + rounds.length := by
  obtain ⟨taken, hadds⟩ := hsettles
  rw [h'.worklist.counted, h.worklist.counted, flatMap_append, length_append, hadds.batches]

/-- The rounds settle all that they hand out and end with nothing requested. The limit exceeds the
rounds that are left by one, so that it is never used up. -/
theorem runs_drain {limit : Nat} (hledger : Ledger maxRounds history s)
    (hlimit : s.worklist.rounds + limit = maxRounds + 1)
    (h : Runs (Move.perform session) (drain limit) s events () s') :
    (∃ rounds, Settles events rounds) ∧ s'.worklist.queue = [] ∧ s'.tables.pending = [] := by
  induction limit generalizing s events history with
  | zero =>
    have hbounded := hledger.worklist.bounded
    omega
  | succ limit ih =>
    obtain ⟨first, _, mid, rest, hwrite, hround, rfl⟩ := h.of_bind
    obtain ⟨answer, next, rest, hperform, hrest, rfl⟩ := hround.of_step_bind
    obtain ⟨hfirst, hpending⟩ := runs_writeTables hwrite
    cases answer with
    | none =>
      -- Writing the tables left none of them, so the rounds end here.
      obtain ⟨rfl, hqueue⟩ := takeRound_eq_none hperform
      obtain ⟨left, _, rest, hleft, hend, rfl⟩ := hrest.of_step_bind
      have hnone : next.tables.hasPending = false := by
        rw [Dispatch.Requests.hasPending, hpending, isEmpty_nil, Bool.not_true]
      simp only [Move.perform, hnone, Except.ok.injEq, Prod.mk.injEq] at hleft
      obtain ⟨rfl, rfl⟩ := hleft
      obtain ⟨rfl, -, rfl⟩ := hend.of_pure
      have hquiet : Settles [⟨.takeRound, none⟩, ⟨.tablesPending, false⟩] [] :=
        ⟨[], (adds_singleton ⟨.takeRound, none⟩ nofun).append
          (adds_singleton ⟨.tablesPending, false⟩ nofun)⟩
      exact ⟨⟨[], hfirst.append hquiet⟩, hqueue, hpending⟩
    | some batch =>
      obtain ⟨generating, _, last, rest, hgenerate, hdrain, rfl⟩ := hrest.of_bind
      have hbatch := hfirst.append (settles_round hgenerate)
      have hround : Runs (Move.perform session)
          (perform .takeRound >>= fun _ => batch.forM generate) mid
          (⟨.takeRound, some batch⟩ :: generating) () last :=
        .ask hperform hgenerate
      have hledger' := (hledger.runs hwrite).runs hround
      rw [append_assoc] at hledger'
      have hrounds : last.worklist.rounds = s.worklist.rounds + 1 :=
        hbatch.rounds_eq hledger hledger'
      obtain ⟨⟨rounds, hlast⟩, hdone⟩ := ih hledger' (by omega) hdrain
      refine ⟨⟨[batch] ++ rounds, ?_⟩, hdone⟩
      have hall := hbatch.append hlast
      rwa [append_assoc] at hall

/-! ### Whole compilations -/

/-- Reports leave the requests as they were. -/
theorem keeps_of_reports {α : Type} {m : Compile α} {a : α}
    (hm : m.Only (Move.IsStep fun own => ∃ d, own = .report d))
    (h : Runs (Move.perform session) m s events a s') :
    s'.worklist = s.worklist ∧ s'.tables = s.tables := by
  refine h.invariant (P := fun _ t => t.worklist = s.worklist ∧ t.tables = s.tables) ?_ hm []
    ⟨rfl, rfl⟩
  intro history t move answer t' hmove ht hperform
  cases move with
  | step own =>
    obtain ⟨d, rfl⟩ := hmove
    cases hperform
    exact ht
  | _ => exact hmove.elim

/-- A whole compilation settles all that it hands out and ends with nothing requested. -/
theorem runs_all
    (h : Runs (Move.perform ⟨program, settings⟩) all (.initial settings) events () s') :
    (∃ rounds, Settles events rounds) ∧ s'.worklist.queue = [] ∧ s'.tables.pending = [] := by
  obtain ⟨registering, _, s₁, rest₁, hregister, h₁, rfl⟩ := h.of_bind
  obtain ⟨lowering, _, s₂, rest₂, hhome, h₂, rfl⟩ := h₁.of_bind
  obtain ⟨reading, maxRounds, s₃, rest₃, hread, h₃, rfl⟩ := h₂.of_bind
  obtain ⟨draining, _, s₄, rest₄, hdrain, h₄, rfl⟩ := h₃.of_bind
  obtain ⟨reporting, hreport, rfl⟩ := h₄.of_ask_bind rfl
  obtain ⟨hmaxRounds, rfl⟩ := hread.of_ask
  have hledger := (((ledger_initial settings).runs hregister).runs hhome).runs hread
  cases hmaxRounds
  -- Before the rounds, nothing is handed out.
  have hbefore : Settles (registering ++ lowering ++ [⟨.maxRounds, settings.maxRounds⟩]) [] :=
    ⟨[], ((adds_ofGen hregister).append (adds_ofGen hhome)).append (adds_singleton _ nofun)⟩
  have hrounds : s₂.worklist.rounds = 0 := hbefore.rounds_eq (ledger_initial settings) hledger
  obtain ⟨⟨rounds, hsettles⟩, hqueue, hpending⟩ :=
    runs_drain hledger (by rw [hrounds, Nat.zero_add]) hdrain
  -- After them, the requests that stayed open are reported.
  have hreports : (s₄.worklist.deferred.forM fun item =>
      ofGen (Gen.report item.deferredWarning)).Only (Move.IsStep fun own => ∃ d, own = .report d) :=
    only_forM (fun item => only_ofGen (Gen.only_perform ⟨item.deferredWarning, rfl⟩)) _
  obtain ⟨hworklist, htables⟩ := keeps_of_reports hreports hreport
  have hafter : Settles (⟨.deferred, s₄.worklist.deferred⟩ :: reporting) [] :=
    ⟨[], (adds_singleton ⟨.deferred, _⟩ nofun).append (adds_of_steps hreports hreport)⟩
  refine ⟨⟨[] ++ rounds ++ [], ?_⟩, hworklist ▸ hqueue, htables ▸ hpending⟩
  have hall := (hbefore.append hsettles).append hafter
  simpa only [append_assoc] using hall

/-- A compilation that gives a result has a run that ends with it. -/
theorem runs_of_compile_eq_ok {output : Output} (h : compile program settings = .ok output) :
    ∃ events s, Runs (Move.perform ⟨program, settings⟩) all (.initial settings) events () s ∧
      s.output = output := by
  obtain ⟨result, hrun, houtput⟩ := bind_eq_ok_iff.1 h
  obtain ⟨events, hruns⟩ := run_eq_ok_iff.1 hrun
  exact ⟨events, result.2, hruns, Except.ok.inj houtput⟩

section Results

variable {program : Program} {settings : Settings} {P Q : Output → Prop} [DecidablePred P]

/-- What can be decided of the result of a compilation. -/
theorem exists_of_compile (h : (compile program settings).toOption.any fun output => P output) :
    ∃ output, compile program settings = .ok output ∧ P output := by
  cases hcompile : compile program settings with
  | error fault =>
    rw [hcompile] at h
    cases h
  | ok output =>
    rw [hcompile] at h
    exact ⟨output, rfl, of_decide_eq_true h⟩

/-- What follows from it. -/
theorem exists_of_compile_and
    (hQ : ∀ output, compile program settings = .ok output → P output → Q output)
    (h : (compile program settings).toOption.any fun output => P output) :
    ∃ output, compile program settings = .ok output ∧ P output ∧ Q output := by
  obtain ⟨output, hcompile, hP⟩ := exists_of_compile h
  exact ⟨output, hcompile, hP, hQ output hcompile hP⟩

theorem of_compile_eq_ok {output : Output} (hcompile : compile program settings = .ok output)
    (h : (compile program settings).toOption.any fun output => P output) : P output := by
  obtain ⟨own, hown, hP⟩ := exists_of_compile h
  cases hcompile.symm.trans hown
  exact hP

end Results

section Requests

variable {history : List Event} {maxRounds : Nat} (h : Ledger maxRounds history s)

include h

/-- With nothing queued, the instances handed out are the first requests. -/
theorem Ledger.processed_eq (hqueue : s.worklist.queue = []) :
    s.worklist.processed = firsts WorkItem.key (history.flatMap requested) := by
  rw [← h.worklist.held.items, hqueue, append_nil]

/-- With nothing queued, each requested kind and symbol was handed out once. -/
theorem Ledger.count_processed (hqueue : s.worklist.queue = []) {item : WorkItem}
    (hitem : item ∈ history.flatMap requested) :
    (s.worklist.processed.map WorkItem.key).count item.key = 1 := by
  rw [h.processed_eq hqueue]
  refine count_eq_one_of_mem (nodup_map_firsts _ _) ?_
  exact (mem_map_firsts _ _ _).2 (mem_map_of_mem hitem)

/-- With no table left and all tables settled, each requested table is defined once. -/
theorem Ledger.filter_defines (hpending : s.tables.pending = [])
    (hsettled : history.flatMap tableWritten =
      (history.flatMap tablesTaken).map Dispatch.Request.table)
    {request : Dispatch.Request} (hrequest : request ∈ history.flatMap tableRequested) :
    ∃ entries, s.assembly.globals.toList.filter (IR.Global.defines request.table) =
      [.table request.table entries] := by
  have htaken := h.tables.items
  rw [hpending, append_nil] at htaken
  refine h.globals.filter_defines ?_ ?_ request.table_starts
  · rw [hsettled, htaken]
    exact nodup_map_firsts _ _
  · rw [hsettled, htaken]
    exact (mem_map_firsts _ _ _).2 (mem_map_of_mem hrequest)

end Requests

section Instances

variable {program : Program} {settings : Settings}
  (h : Runs (Move.perform ⟨program, settings⟩) all (.initial settings) events () s)

include h

/-- The instances that a compilation hands out were requested. -/
theorem require_of_mem_processed {item : WorkItem} (hitem : item ∈ s.worklist.processed) :
    ⟨.step (.require item), item.symbol⟩ ∈ events := by
  have hledger : Ledger settings.maxRounds events s := (ledger_initial settings).runs h
  rw [hledger.processed_eq (runs_all h).2.1] at hitem
  obtain ⟨symbol, hevent⟩ := exists_require_of_mem (mem_of_mem_firsts _ hitem)
  obtain ⟨_, _, t, t', -, -, hperform, -⟩ := h.leads.of_mem hevent
  cases hperform
  exact hevent

/-- The instances to which a compilation turns are those that it hands out. -/
theorem generated_eq_processed : events.flatMap generated = s.worklist.processed := by
  obtain ⟨⟨rounds, taken, hadds⟩, -⟩ := runs_all h
  rw [hadds.generated, ← hadds.batches]
  exact ((ledger_initial settings).runs h).worklist.handedOut

end Instances

/-- Every request of a compilation is settled exactly once. Each kind and symbol for which an
instance was requested at any moment occurs once among the instances, which stand in the order of
the first requests and are what was generated; each dispatch table whose name was given out is
defined by one constant; and when no round is handed out, no table is found left. -/
theorem settled_of_compile_eq_ok {program : Program} {settings : Settings} {output : Output}
    (h : compile program settings = .ok output) :
    ∃ events s, Runs (Move.perform ⟨program, settings⟩) all (.initial settings) events () s ∧
      s.output = output ∧
      output.instances = firsts WorkItem.key (events.flatMap requested) ∧
      (∀ item symbol, ⟨.step (.require item), symbol⟩ ∈ events →
        (output.instances.map WorkItem.key).count (item.kind, symbol) = 1) ∧
      events.flatMap generated = output.instances ∧
      (∀ request name, ⟨.step (.requireTable request), name⟩ ∈ events → ∃ entries,
        output.assembly.globals.toList.filter (IR.Global.defines name) = [.table name entries]) ∧
      ⟨.tablesPending, true⟩ ∉ events := by
  obtain ⟨events, s, hruns, rfl⟩ := runs_of_compile_eq_ok h
  have hledger : Ledger settings.maxRounds events s := (ledger_initial settings).runs hruns
  obtain ⟨⟨rounds, taken, hadds⟩, hqueue, hpending⟩ := runs_all hruns
  refine ⟨events, s, hruns, rfl, hledger.processed_eq hqueue, ?_, generated_eq_processed hruns, ?_,
    hadds.noneLeft⟩
  · intro item symbol hevent
    obtain ⟨_, _, t, t', -, -, hperform, -⟩ := hruns.leads.of_mem hevent
    cases hperform
    exact hledger.count_processed hqueue (List.mem_flatMap.2 ⟨_, hevent, List.mem_singleton_self _⟩)
  · intro request name hevent
    obtain ⟨_, _, t, t', -, -, hperform, -⟩ := hruns.leads.of_mem hevent
    cases hperform
    refine hledger.filter_defines hpending ?_
      (List.mem_flatMap.2 ⟨_, hevent, List.mem_singleton_self _⟩)
    rw [hadds.tableWritten, hadds.tablesTaken]

/-- A class whose dispatch table takes a method from a generic base. The method is requested while
the table is filled, and its code requests an instance of a struct. -/
def inheritedSlot : Program where
  home := {
    structs := .ofList [
      { name := "Pair", generics := ["A"], fields := [{ name := "first", ty := .ofName "A" [] }] }]
    classes := .ofList [
      { name := "Node", generics := ["A"]
        methods := [
          { name := "size", params := [⟨"pair", .ofName "Pair" [.prim .i32]⟩]
            body := some (.mk [] none), hasSelf := true, isVirtual := true }] },
      { name := "Leaf", base := some "Node", constructors := [{ name := "new" }] }] }

theorem settled_of_compile_eq_ok_inheritedSlot :
    ∃ output events s, compile inheritedSlot {} = .ok output ∧
      Runs (Move.perform ⟨inheritedSlot, {}⟩) all (.initial {}) events () s ∧
      output.instances.map WorkItem.key =
        [(.cls, "Leaf"), (.method, "Node_size"), (.cls, "Node"), (.struct, "Pair__I32")] ∧
      output.assembly.globals.toList = [.table "@vtable.Leaf" [some "@tml_Node_size"]] ∧
      output.instances = firsts WorkItem.key (events.flatMap requested) ∧
      events.flatMap generated = output.instances ∧ ⟨.tablesPending, true⟩ ∉ events := by
  obtain ⟨output, hcompile, hkeys, hglobals⟩ := exists_of_compile
    (P := fun output => output.instances.map WorkItem.key =
        [(.cls, "Leaf"), (.method, "Node_size"), (.cls, "Node"), (.struct, "Pair__I32")] ∧
      output.assembly.globals.toList = [.table "@vtable.Leaf" [some "@tml_Node_size"]])
    (by decide +kernel : (compile inheritedSlot {}).toOption.any _)
  obtain ⟨events, s, hruns, -, hinstances, -, hgenerated, -, hnone⟩ :=
    settled_of_compile_eq_ok hcompile
  exact ⟨output, events, s, hcompile, hruns, hkeys, hglobals, hinstances, hgenerated, hnone⟩

end Compile

end Monomorph
