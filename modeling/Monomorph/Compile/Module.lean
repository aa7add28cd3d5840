import Monomorph.Compile.DispatchTable
import Monomorph.Compile.Home
import Monomorph.Compile.Instance

/-!
# Compilation of a module

A compilation writes the code of the items that need no instance and then works through the
worklist round by round, with the requested dispatch tables between the rounds: a table can
request method instances, and an instance can request tables. Requests that stayed open are
reported at the end.
-/

namespace Monomorph

/-- The result of a compilation. -/
structure Output where
  /-- The module that was written. -/
  assembly : IR.Assembly
  /-- The diagnostics, in the order in which they are shown. -/
  diagnostics : List Diagnostic
  /-- The instances, in the order in which they were generated. -/
  instances : List WorkItem
  /-- Requests that stayed open. -/
  deferred : List WorkItem
  rounds : Nat
  deriving DecidableEq, Inhabited

namespace Output

/-- The errors among the diagnostics. -/
def errors (o : Output) : List Diagnostic := o.diagnostics.filter Diagnostic.isError

/-- Whether there are errors. -/
def hasErrors (o : Output) : Bool := o.diagnostics.any Diagnostic.isError

/-- Whether an instance with that symbol was generated. -/
def hasInstance (o : Output) (symbol : String) : Bool :=
  o.instances.any fun item => item.symbol = symbol

end Output

/-- The warning that a request stayed open. -/
def WorkItem.deferredWarning (item : WorkItem) : Diagnostic where
  code := .deferred
  severity := .warning
  message := item.kind.text ++ " instantiation of `" ++ item.base ++ "` deferred: [" ++
    String.intercalate ", " (item.args.map Ty.text) ++ "] still has unbound type parameters"
  notes := ["calls use the placeholder symbol `" ++ item.symbol ++ "`"]

namespace Compile

/-- Generate an instance of the round. -/
def generate (item : WorkItem) : Compile Unit := do
  perform (.generate item)
  Gen.generate item

/-- Write tables and generate instances until nothing is requested. The worklist refuses more
rounds than its limit, so one more step than that limit is always enough. -/
def drain : Nat → Compile Unit
  | 0 => pure ()
  | limit + 1 => do
      writeTables
      match ← perform .takeRound with
      | some batch =>
          batch.forM generate
          drain limit
      | none => if ← perform .tablesPending then drain limit

/-- All steps of a compilation. -/
def all : Compile Unit := do
  Gen.registerCtors
  Gen.homeItems
  drain ((← perform .maxRounds) + 1)
  (← perform .deferred).forM fun item => Gen.report item.deferredWarning

end Compile

/-- What a finished compilation has built. -/
def Build.output (s : Build) : Output where
  assembly := s.assembly
  diagnostics := s.diagnostics.flush.1
  instances := s.worklist.processed
  deferred := s.worklist.deferred
  rounds := s.worklist.rounds

/-- Compile the module at hand. -/
def compile (program : Program) (settings : Settings) : Except Fault Output := do
  let ((), s) ← Compile.all.run (Move.perform ⟨program, settings⟩) (.initial settings)
  return s.output

end Monomorph
