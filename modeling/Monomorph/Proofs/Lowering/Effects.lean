import Monomorph.Proofs.Diagnostic.Queue
import Monomorph.Proofs.Script.Simulation

/-!
# What a step does

A step changes each part of what is being built on its own, whatever the other parts hold. Only the
memo of layouts depends on the answer of a query, and a query changes nothing else. So what a step
keeps can be checked part by part, and two runs that read the same answer the same.
-/

namespace Monomorph

open Script

namespace Step

/-- What a step does to the module text. -/
def onAssembly : Step → IR.Assembly → IR.Assembly
  | fresh, a => a.freshTemp.2
  | freshLabel, a => a.freshLabel.2
  | emit i, a => a.emit i
  | block l, a => a.place l
  | defineType name body, a => a.defineType name body
  | declare symbol ret params, a => a.declare symbol ret params
  | stringGlobal value, a => (a.stringGlobal value).2
  | beginFunction ret symbol params, a =>
      (a.begin (.define ret symbol params)).cover
        (String.ofList (symbol.toList.dropWhile (· = '@')))
  | finishFunction, a => a.finish
  | _, a => a

/-- What a step does to the worklist. -/
def onWorklist : Step → Worklist → Worklist
  | require item, w => (w.require item).2
  | defer item, w => (w.defer item.kind item.base item.args).2
  | _, w => w

/-- What a step does to the requests for dispatch tables. -/
def onTables : Step → Dispatch.Requests → Dispatch.Requests
  | requireTable request, r => (r.require request).2
  | _, r => r

/-- What a step reports. -/
def reports (strict : Bool) : Step → List Diagnostic
  | report d => [d]
  | reportDefaulted item resolution span =>
      if resolution.defaulted.isEmpty then [] else [resolution.diagnostic item span strict]
  | _ => []

/-- What a step does to the constructors. -/
def onCtors : Step → List (String × Ctor) → List (String × Ctor)
  | registerCtor key ctor, known =>
      if (known.lookup key).isSome then known else (key, ctor) :: known
  | _, known => known

/-- What a step does to the local names. -/
def onScope : Step → Scope → Scope
  | bindLocal name l, locals => locals.bind name l
  | storeConv name conv, locals => locals.storeConv name conv
  | beginFunction .., _ => {}
  | _, locals => locals

/-- What is built after a step, with what is then remembered of layouts. -/
def after (session : Session) (step : Step) (s : Build) (memo : Layout.Memo) : Build where
  assembly := step.onAssembly s.assembly
  worklist := step.onWorklist s.worklist
  memo
  tables := step.onTables s.tables
  diagnostics :=
    (step.reports session.settings.strictGenerics).foldl (fun q d => (q.push d).2) s.diagnostics
  ctors := step.onCtors s.ctors
  scope := step.onScope s.scope

variable {session : Session} {step : Step} {s s' : Build} {answer : step.Answer}

theorem registerCtor_eq_after (session : Session) (s : Build) (key : String) (ctor : Ctor) :
    s.registerCtor key ctor = (registerCtor key ctor).after session s s.memo := by
  rw [Build.registerCtor, after, onCtors]
  split <;> rfl

theorem perform_reportDefaulted (session : Session) (s : Build) (item : String)
    (resolution : Resolution) (span : Span) :
    (reportDefaulted item resolution span).perform session s =
      .ok ((), (reportDefaulted item resolution span).after session s s.memo) := by
  rw [perform, after, reports]
  split <;> rfl

/-- Everything that a step can do. -/
theorem eq_of_perform (h : step.perform session s = .ok (answer, s')) :
    ∃ memo, s' = step.after session s memo := by
  cases step with
  | extent | classExtent | payloadWords =>
    obtain ⟨memo, -, rfl⟩ := Build.query_eq_ok h
    exact ⟨memo, rfl⟩
  | registerCtor key ctor =>
    cases h
    exact ⟨s.memo, registerCtor_eq_after session s key ctor⟩
  | reportDefaulted item resolution span =>
    rw [perform_reportDefaulted] at h
    cases h
    exact ⟨s.memo, rfl⟩
  | _ =>
    cases h
    exact ⟨s.memo, rfl⟩

/-- Whether a step changes the code of a function or uses up a number. -/
def isDrafting : Step → Bool
  | fresh | freshLabel | emit _ | block _ | beginFunction .. | finishFunction => true
  | _ => false

/-- Other steps add to what stands outside of functions. -/
theorem onAssembly_eq (h : step.isDrafting = false) (a : IR.Assembly) :
    ∃ types globals declarations strings,
      step.onAssembly a = { a with types, globals, declarations, strings } := by
  cases step with
  | fresh | freshLabel | emit | block | beginFunction | finishFunction => cases h
  | defineType name body =>
    rw [onAssembly, IR.Assembly.defineType]
    split <;> exact ⟨_, _, _, _, rfl⟩
  | declare symbol ret params =>
    rw [onAssembly, IR.Assembly.declare]
    split <;> exact ⟨_, _, _, _, rfl⟩
  | stringGlobal value =>
    rw [onAssembly, IR.Assembly.stringGlobal]
    split <;> exact ⟨_, _, _, _, rfl⟩
  | _ => exact ⟨_, _, _, _, rfl⟩

end Step

/-! ### Two runs -/

/-- What steps read is the same in two states. -/
structure Build.ReadsAlike (session session' : Session) (s t : Build) : Prop where
  program : session'.program = session.program
  symbolStart : session'.settings.symbolStart = session.settings.symbolStart
  depth : session'.settings.depth = session.settings.depth
  scope : t.scope = s.scope
  ctors : t.ctors = s.ctors
  memo : t.memo = s.memo
  temps : t.assembly.temps = s.assembly.temps
  labels : t.assembly.labels = s.assembly.labels
  strings : t.assembly.strings = s.assembly.strings

/-- A step answers the same where it reads the same. -/
theorem Step.matches_perform {session session' : Session} {s t : Build} {R : Build → Build → Prop}
    (step : Step) (h : s.ReadsAlike session session' t)
    (hR : ∀ memo, R (step.after session s memo) (step.after session' t memo)) :
    Matches R (step.perform session s) (step.perform session' t) := by
  have hafter : R (step.after session s s.memo) (step.after session' t t.memo) := by
    rw [h.memo]
    exact hR s.memo
  cases step with
  | extent | classExtent | payloadWords =>
    simp only [perform, h.program, h.depth]
    exact Build.matches_query h.memo hR _
  | registerCtor key ctor =>
    rw [perform, perform, registerCtor_eq_after session, registerCtor_eq_after session']
    exact .ok _ hafter
  | reportDefaulted item resolution span =>
    rw [perform_reportDefaulted, perform_reportDefaulted]
    exact .ok _ hafter
  | program => exact .of_eq h.program hafter
  | symbolStart => exact .of_eq h.symbolStart hafter
  | depth => exact .of_eq h.depth hafter
  | scope => exact .of_eq h.scope hafter
  | ctors => exact .of_eq h.ctors hafter
  | fresh => exact .of_eq h.temps hafter
  | freshLabel => exact .of_eq h.labels hafter
  | stringGlobal value =>
    refine .of_eq ?_ hafter
    rw [IR.Assembly.stringGlobal, IR.Assembly.stringGlobal, h.strings]
    split <;> rfl
  | _ => exact .ok _ hafter

end Monomorph
