import Monomorph.Lowering.Build

/-!
# Moves of a compilation

A compilation generates code and, between two pieces of it, hands out the dispatch tables and the
instances that were requested. Only a whole compilation hands anything out: the scripts that
generate code have no step for it.
-/

namespace Monomorph

/-- A move of a compilation. -/
inductive Move
  /-- A step of code generation. -/
  | step (own : Step)
  /-- Read the greatest number of rounds. -/
  | maxRounds
  /-- Hand out the dispatch tables to be written. -/
  | takeTables
  | writeTable (name : String) (entries : List (Option String))
  /-- Hand out the next round of instances; nothing when none is requested. -/
  | takeRound
  | tablesPending
  /-- Turn to an instance of the round. -/
  | generate (item : WorkItem)
  | deferred

/-- What a move answers. -/
@[reducible] def Move.Answer : Move → Type
  | step own => own.Answer
  | maxRounds => Nat
  | takeTables => List Dispatch.Request
  | takeRound => Option (List WorkItem)
  | tablesPending => Bool
  | deferred => List WorkItem
  | writeTable .. | generate _ => Unit

namespace Build

/-- Hand out the next round of instances. -/
def takeRound (s : Build) : Except Fault (Option (List WorkItem) × Build) :=
  match s.worklist.nextRound with
  | (.error failure, _) => .error (.nonConvergent failure)
  | (.ok answer, worklist) => .ok (answer, { s with worklist })

/-- Write a dispatch table. -/
def writeTable (s : Build) (name : String) (entries : List (Option String)) : Build :=
  { s with assembly := s.assembly.addGlobal (.table name entries) }

end Build

/-- What a move answers and does. -/
def Move.perform (session : Session) : (move : Move) → Build → Except Fault (move.Answer × Build)
  | step own, s => own.perform session s
  | maxRounds, s => .ok (session.settings.maxRounds, s)
  | takeTables, s => .ok (s.tables.take.1, { s with tables := s.tables.take.2 })
  | writeTable name entries, s => .ok ((), s.writeTable name entries)
  | takeRound, s => s.takeRound
  | tablesPending, s => .ok (s.tables.hasPending, s)
  | generate _, s => .ok ((), s)
  | deferred, s => .ok (s.worklist.deferred, s)

/-- A script of a whole compilation. -/
abbrev Compile := Script Move.Answer

namespace Compile

/-- The script of a single move. -/
def perform (move : Move) : Compile move.Answer := .ask move .done

/-- Code generation as part of a compilation. -/
def ofGen {α : Type} : Gen α → Compile α
  | .done a => .done a
  | .fail fault => .fail fault
  | .ask step next => .ask (.step step) fun answer => ofGen (next answer)

instance : MonadLift Gen Compile := ⟨ofGen⟩

end Compile

end Monomorph
