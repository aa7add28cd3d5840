import Monomorph.Compile.Move
import Monomorph.Proofs.Dispatch.Tracks
import Monomorph.Proofs.IR.Tables
import Monomorph.Proofs.Instance.Tracks
import Monomorph.Proofs.Lowering.Effects

/-!
# What the events of a compilation leave behind

The worklist, the requests for dispatch tables and the constants of the module can be read off the
events of a compilation, whatever its scripts do in between.
-/

namespace Monomorph

open List Script

namespace Build

/-- Everything that asking for a round can do, unless the rounds are used up. -/
theorem takeRound_eq_ok {s s' : Build} {answer : Option (List WorkItem)}
    (h : s.takeRound = .ok (answer, s')) :
    (s.worklist.queue = [] ∧ answer = none ∧ s' = s) ∨
      (s.worklist.rounds < s.worklist.maxRounds ∧ answer = some s.worklist.queue ∧
        s' = { s with worklist := s.worklist.handOut }) := by
  rw [takeRound] at h
  obtain ⟨hqueue, hnext⟩ | ⟨-, -, hnext⟩ | ⟨-, hrounds, hnext⟩ := s.worklist.nextRound_cases
  · rw [hnext] at h
    cases h
    exact .inl ⟨hqueue, rfl, rfl⟩
  · rw [hnext] at h
    cases h
  · rw [hnext] at h
    cases h
    exact .inr ⟨hrounds, rfl, rfl⟩

end Build

namespace Step

variable {session : Session} {step : Step} {s s' : Build} {answer : step.Answer}

/-- What a step does to the requests, and that it writes no dispatch table. -/
theorem keeps_of_perform (h : step.perform session s = .ok (answer, s')) :
    s'.worklist = step.onWorklist s.worklist ∧ s'.tables = step.onTables s.tables ∧
      ∀ names, s.assembly.HasTables names → s'.assembly.HasTables names := by
  obtain ⟨memo, rfl⟩ := eq_of_perform h
  refine ⟨rfl, rfl, fun names hs => ?_⟩
  cases step with
  | defineType name body => exact hs.defineType name body
  | declare symbol ret params => exact hs.declare symbol ret params
  | stringGlobal value => exact hs.stringGlobal value
  | beginFunction ret symbol params => exact (hs.begin _).cover _
  | _ => exact hs.of_globals_eq rfl

end Step

namespace Compile

/-- A move that was made, with its answer. -/
abbrev Event := Script.Event Move.Answer

/-! ### What an event contributes -/

/-- The instance that an event requests. -/
def requested : Event → List WorkItem
  | ⟨.step (.require item), _⟩ => [item]
  | _ => []

/-- The round of instances that an event hands out. -/
def batches : Event → List (List WorkItem)
  | ⟨.takeRound, some batch⟩ => [batch]
  | _ => []

/-- The instance to which an event turns. -/
def generated : Event → List WorkItem
  | ⟨.generate item, _⟩ => [item]
  | _ => []

/-- The dispatch table that an event requests. -/
def tableRequested : Event → List Dispatch.Request
  | ⟨.step (.requireTable request), _⟩ => [request]
  | _ => []

/-- The dispatch tables that an event hands out. -/
def tablesTaken : Event → List Dispatch.Request
  | ⟨.takeTables, requests⟩ => requests
  | _ => []

/-- The dispatch table that an event writes. -/
def tableWritten : Event → List String
  | ⟨.writeTable name _, _⟩ => [name]
  | _ => []

theorem flatMap_concat {α : Type} (f : Event → List α) (history : List Event) (event : Event) :
    (history ++ [event]).flatMap f = history.flatMap f ++ f event := by
  rw [flatMap_append, flatMap_singleton]

/-- An event that contributes nothing leaves what the history contributes. -/
theorem flatMap_concat_of_nil {α : Type} {f : Event → List α} {event : Event} (h : f event = [])
    (history : List Event) : (history ++ [event]).flatMap f = history.flatMap f := by
  rw [flatMap_concat, h, append_nil]

variable {session : Session} {maxRounds : Nat} {history : List Event}

theorem exists_require_of_mem {item : WorkItem} (h : item ∈ history.flatMap requested) :
    ∃ symbol, ⟨.step (.require item), symbol⟩ ∈ history := by
  obtain ⟨⟨move, answer⟩, hevent, hitem⟩ := mem_flatMap.1 h
  cases move with
  | step own =>
    cases own with
    | require other => exact ⟨answer, mem_singleton.1 hitem ▸ hevent⟩
    | _ => cases hitem
  | _ => cases hitem

theorem exists_requireTable_of_mem {request : Dispatch.Request}
    (h : request ∈ history.flatMap tableRequested) :
    ∃ table, ⟨.step (.requireTable request), table⟩ ∈ history := by
  obtain ⟨⟨move, answer⟩, hevent, hrequest⟩ := mem_flatMap.1 h
  cases move with
  | step own =>
    cases own with
    | requireTable other => exact ⟨answer, mem_singleton.1 hrequest ▸ hevent⟩
    | _ => cases hrequest
  | _ => cases hrequest

/-! ### The worklist -/

/-- A worklist that agrees with a history. -/
structure WorklistAgrees (maxRounds : Nat) (history : List Event) (w : Worklist) : Prop where
  held : w.Tracks (history.flatMap requested)
  handedOut : (history.flatMap batches).flatten = w.processed
  counted : w.rounds = (history.flatMap batches).length
  limit : w.maxRounds = maxRounds
  bounded : w.rounds ≤ maxRounds

namespace WorklistAgrees

variable {w w' : Worklist} {event : Event} (h : WorklistAgrees maxRounds history w)

include h

/-- An event that hands out no round. -/
theorem same (hbatches : batches event = []) (hrounds : w.SameRounds w')
    (hheld : w'.Tracks (history.flatMap requested ++ requested event)) :
    WorklistAgrees maxRounds (history ++ [event]) w' where
  held := by rwa [flatMap_concat]
  handedOut := by rw [flatMap_concat_of_nil hbatches, h.handedOut, hrounds.processed]
  counted := by rw [flatMap_concat_of_nil hbatches, hrounds.rounds, h.counted]
  limit := hrounds.limit.trans h.limit
  bounded := hrounds.rounds ▸ h.bounded

theorem idle (hrequested : requested event = []) (hbatches : batches event = []) :
    WorklistAgrees maxRounds (history ++ [event]) w :=
  h.same hbatches (.refl w) (by rw [hrequested, append_nil]; exact h.held)

theorem step (own : Step) (answer : own.Answer) :
    WorklistAgrees maxRounds (history ++ [⟨.step own, answer⟩]) (own.onWorklist w) := by
  cases own with
  | require item => exact h.same rfl (w.sameRounds_require item) (h.held.require item)
  | defer item =>
    exact h.same rfl (w.sameRounds_defer _ _ _) ((append_nil _).symm ▸ h.held.defer _ _ _)
  | _ => exact h.idle rfl rfl

theorem handOut (hrounds : w.rounds < w.maxRounds) :
    WorklistAgrees maxRounds (history ++ [⟨.takeRound, some w.queue⟩]) w.handOut where
  held := by
    rw [flatMap_concat_of_nil rfl]
    exact h.held.handOut
  handedOut := by
    rw [flatMap_concat, flatten_append, h.handedOut]
    exact congrArg _ flatten_singleton
  counted := by
    rw [flatMap_concat, length_append, ← h.counted]
    rfl
  limit := h.limit
  bounded := h.limit ▸ hrounds

end WorklistAgrees

/-! ### The dispatch tables -/

/-- Requests for dispatch tables that agree with a history. -/
def TablesAgree (history : List Event) (r : Dispatch.Requests) : Prop :=
  r.Tracks (history.flatMap tablesTaken) (history.flatMap tableRequested)

namespace TablesAgree

variable {r : Dispatch.Requests}

theorem idle (h : TablesAgree history r) {event : Event} (htaken : tablesTaken event = [])
    (hrequested : tableRequested event = []) : TablesAgree (history ++ [event]) r := by
  rw [TablesAgree, flatMap_concat_of_nil htaken, flatMap_concat_of_nil hrequested]
  exact h

theorem step (h : TablesAgree history r) (own : Step) (answer : own.Answer) :
    TablesAgree (history ++ [⟨.step own, answer⟩]) (own.onTables r) := by
  cases own with
  | requireTable request =>
    rw [TablesAgree, flatMap_concat_of_nil rfl, flatMap_concat]
    exact Dispatch.Requests.Tracks.require h request
  | _ => exact h.idle rfl rfl

theorem take (h : TablesAgree history r) :
    TablesAgree (history ++ [⟨.takeTables, r.take.1⟩]) r.take.2 := by
  rw [TablesAgree, flatMap_concat, flatMap_concat_of_nil rfl]
  exact Dispatch.Requests.Tracks.take h

end TablesAgree

/-! ### States and histories -/

/-- A state that agrees with a history. -/
structure Ledger (maxRounds : Nat) (history : List Event) (s : Build) : Prop where
  worklist : WorklistAgrees maxRounds history s.worklist
  tables : TablesAgree history s.tables
  globals : s.assembly.HasTables (history.flatMap tableWritten)

theorem ledger_initial (settings : Settings) :
    Ledger settings.maxRounds [] (.initial settings) where
  worklist := ⟨Worklist.tracks_nil _, rfl, rfl, rfl, Nat.zero_le _⟩
  tables := Dispatch.Requests.tracks_nil
  globals := ⟨rfl, fun _ hg => nomatch hg⟩

namespace Ledger

variable {s s' : Build} (h : Ledger maxRounds history s)

include h

/-- An event that writes no dispatch table. -/
theorem unwritten {event : Event} (hwritten : tableWritten event = []) :
    s.assembly.HasTables ((history ++ [event]).flatMap tableWritten) := by
  rw [flatMap_concat_of_nil hwritten]
  exact h.globals

/-- Asking for a round and the answer extend the history. -/
theorem takeRound {answer : Option (List WorkItem)} (hround : s.takeRound = .ok (answer, s')) :
    Ledger maxRounds (history ++ [⟨.takeRound, answer⟩]) s' := by
  obtain ⟨-, rfl, rfl⟩ | ⟨hrounds, rfl, rfl⟩ := Build.takeRound_eq_ok hround
  · exact ⟨h.worklist.idle rfl rfl, h.tables.idle rfl rfl, h.unwritten rfl⟩
  · exact ⟨h.worklist.handOut hrounds, h.tables.idle rfl rfl, h.unwritten rfl⟩

/-- A move and its answer extend the history. -/
theorem perform {move : Move} {answer : move.Answer}
    (hmove : move.perform session s = .ok (answer, s')) :
    Ledger maxRounds (history ++ [⟨move, answer⟩]) s' := by
  cases move with
  | step own =>
    obtain ⟨hworklist, htables, hglobals⟩ := own.keeps_of_perform hmove
    exact ⟨hworklist ▸ h.worklist.step own answer, htables ▸ h.tables.step own answer,
      hglobals _ (h.unwritten rfl)⟩
  | takeRound => exact h.takeRound hmove
  | takeTables =>
    cases hmove
    exact ⟨h.worklist.idle rfl rfl, h.tables.take, h.unwritten rfl⟩
  | writeTable name entries =>
    cases hmove
    refine ⟨h.worklist.idle rfl rfl, h.tables.idle rfl rfl, ?_⟩
    rw [flatMap_concat]
    exact h.globals.addTable name entries
  | maxRounds | tablesPending | generate _ | deferred =>
    cases hmove
    exact ⟨h.worklist.idle rfl rfl, h.tables.idle rfl rfl, h.unwritten rfl⟩

/-- A run extends the history by its events. -/
theorem runs {α : Type} {m : Compile α} {events : List Event} {a : α}
    (hm : Runs (Move.perform session) m s events a s') : Ledger maxRounds (history ++ events) s' :=
  hm.invariant (fun _ _ _ _ _ _ hledger hmove => hledger.perform hmove) m.only_true history h

end Ledger

end Compile

end Monomorph
