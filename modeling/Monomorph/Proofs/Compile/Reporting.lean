import Monomorph.Proofs.Compile.Symbols

/-!
# Diagnostics do not steer the code

Diagnostics are only written while code is generated: no step reads them, and how grave a default is
and how many errors are kept matter to nothing else. So settings of diagnostics leave the code, the
instances and the rounds of a compilation as they are, and its fault if it has one.

Under strict settings, a type parameter that only a default could bind is an error. The errors that
are dropped, beyond the limit or as repetitions, are dropped in favour of other errors. So a
compilation without errors has bound no type parameter by default.

## Main results

* `Compile.silent_compile`, `Compile.defaulted_of_event`, `Compile.reporting_keepsCode`.
-/

namespace Monomorph

open List Script

/-- A result without its diagnostics. -/
def Output.silent (o : Output) : Output := { o with diagnostics := [] }

/-! ### Two runs -/

/-- States that differ at most in their diagnostics. -/
def Build.DiffersInReports (s t : Build) : Prop := ∃ queue, t = { s with diagnostics := queue }

/-- Settings with other settings of diagnostics. -/
def Settings.reporting (settings : Settings) (strict : Bool) (errorLimit : Nat) : Settings :=
  { settings with strictGenerics := strict, errorLimit }

section TwoRuns

variable {s t : Build} (h : s.DiffersInReports t) (program : Program) (settings : Settings)
  (strict : Bool)
  (errorLimit : Nat)

include h

/-- No step of code generation reads the diagnostics or depends on their settings. -/
theorem Step.matches_perform_reporting (step : Step) :
    Matches Build.DiffersInReports (step.perform ⟨program, settings⟩ s)
      (step.perform ⟨program, settings.reporting strict errorLimit⟩ t) := by
  obtain ⟨queue, rfl⟩ := h
  exact step.matches_perform ⟨rfl, rfl, rfl, rfl, rfl, rfl, rfl, rfl, rfl⟩ fun _ => ⟨_, rfl⟩

/-- No move of a compilation reads the diagnostics or depends on their settings. -/
theorem Move.matches_perform_reporting (move : Move) :
    Matches Build.DiffersInReports (move.perform ⟨program, settings⟩ s)
      (move.perform ⟨program, settings.reporting strict errorLimit⟩ t) := by
  cases move with
  | step own => exact Step.matches_perform_reporting h program settings strict errorLimit own
  | takeRound =>
    obtain ⟨queue, rfl⟩ := h
    rw [Move.perform, Move.perform, Build.takeRound, Build.takeRound]
    obtain ⟨-, hnext⟩ | ⟨-, -, hnext⟩ | ⟨-, -, hnext⟩ := s.worklist.nextRound_cases
    · rw [hnext]
      exact .ok _ ⟨queue, rfl⟩
    · rw [hnext]
      exact .error _
    · rw [hnext]
      exact .ok _ ⟨queue, rfl⟩
  | _ =>
    obtain ⟨queue, rfl⟩ := h
    exact .ok _ ⟨queue, rfl⟩

end TwoRuns

namespace Compile

/-- Settings of diagnostics change nothing of a compilation but its diagnostics. -/
theorem silent_compile (program : Program) (settings : Settings) (strict : Bool)
    (errorLimit : Nat) :
    (compile program settings).map Output.silent =
      (compile program (settings.reporting strict errorLimit)).map Output.silent := by
  have hmatches : Matches Build.DiffersInReports
      (all.run (Move.perform ⟨program, settings⟩) (.initial settings))
      (all.run (Move.perform ⟨program, settings.reporting strict errorLimit⟩)
        (.initial (settings.reporting strict errorLimit))) :=
    matches_run (fun move _ _ _ h =>
      Move.matches_perform_reporting h program settings strict errorLimit move) all.only_true
      ⟨{ errorLimit }, rfl⟩
  rw [compile, compile]
  generalize all.run (Move.perform ⟨program, settings⟩) (.initial settings) = x,
    all.run (Move.perform ⟨program, settings.reporting strict errorLimit⟩)
      (.initial (settings.reporting strict errorLimit)) = y at hmatches
  cases hmatches with
  | error fault => rfl
  | ok a hsame =>
    obtain ⟨queue, rfl⟩ := hsame
    rfl

end Compile

/-! ### Errors that are dropped -/

namespace Compile

variable {program : Program} {settings : Settings} {output : Output} {events : List Event}
  {s : Build}

section Run

variable (hruns : Runs (Move.perform ⟨program, settings⟩) all (.initial settings) events () s)

include hruns

/-- A parameter that was not inferred is reported as an error only. -/
theorem isError_of_mem_kept {d : Diagnostic} (hd : d ∈ s.diagnostics.kept)
    (hcode : d.code = .uninferred) : d.isError = true := by
  obtain ⟨⟨move, answer⟩, hevent, hreported⟩ :=
    mem_flatMap.1 ((accounts_reports hruns).keeps.subset hd)
  cases move with
  | step own =>
    cases own with
    | report d' =>
      obtain rfl := mem_singleton.1 hreported
      obtain herror | hdeferred := ((Linkage.of_runs_all hruns).1 _ hevent).2
      · exact herror
      · rw [hcode] at hdeferred
        cases hdeferred
    | reportDefaulted item resolution span =>
      simp only [reports, Step.reports] at hreported
      split at hreported
      · cases hreported
      · obtain rfl := mem_singleton.1 hreported
        cases hstrict : settings.strictGenerics with
        | true => rfl
        | false =>
          rw [hstrict] at hcode
          cases hcode
    | _ => cases hreported
  | _ => cases hreported

/-- Under strict settings and without errors, no report of defaults names a parameter. -/
theorem defaulted_of_event (hstrict : settings.strictGenerics = true)
    (herrors : s.output.hasErrors = false) {item : String} {resolution : Resolution} {span : Span}
    (hevent : ⟨.step (.reportDefaulted item resolution span), ()⟩ ∈ events) :
    resolution.defaulted = [] := by
  by_contra hdefaulted
  have hreports : resolution.diagnostic item span true ∈
      reports settings.strictGenerics ⟨.step (.reportDefaulted item resolution span), ()⟩ := by
    rw [reports, Step.reports, if_neg (mt List.isEmpty_iff.1 hdefaulted), hstrict]
    exact mem_singleton_self _
  -- A repetition is dropped only if what it repeats was kept, which is an error too.
  obtain ⟨own, hown, hor⟩ := exists_kept_of_event hruns hevent hreports rfl
  have herror : own.isError = true := hor.elim id (isError_of_mem_kept hruns hown)
  rw [Output.hasErrors, Bool.eq_false_iff] at herrors
  exact herrors (any_eq_true.2 ⟨own, mem_mergeSort.2 hown, herror⟩)

end Run

end Compile

/-! ### Resolutions -/

namespace Compile

variable {program : Program} {settings : Settings} {output : Output} {s s' : Build}
  {resolution : Resolution}

/-- The resolutions of a compilation, each at the use of a generic item that is performed. -/
inductive Resolves (program : Program) (settings : Settings) (output : Output) : Resolution → Prop
  /-- A call of a generic function. -/
  | call {l : Lowering} {path : Path} {args span expected s s' t during first value}
      {f : FunctionDef} {resolution early}
      (h : Performs program settings output (l.callGeneric path args span expected) s during value
        s')
      (hf : (program.function? path.joined).filter FunctionDef.isGeneric = some f)
      (hbind : Runs (Step.perform ⟨program, settings⟩) (l.bindItem f.generics path.args
        f.paramTypes args [f.ret] expected (.prim .unit)) s first (resolution, early) t) :
      Resolves program settings output resolution
  /-- A call of a static method that has generic parameters, its own or those of its type. -/
  | static {l : Lowering} {path : Path} {args span expected s s' t during first value}
      {m : StaticMethod} {resolution early}
      (h : Performs program settings output (l.callGenericStatic path args span expected) s during
        value s')
      (hm : ((program.staticOrNew? path).filter fun m =>
        !m.generics.isEmpty || m.definition.isGeneric) = some m)
      (hbind : Runs (Step.perform ⟨program, settings⟩) (l.bindItem
        (m.generics ++ m.definition.generics) path.args m.definition.paramTypes args
        [m.pattern, m.definition.ret] expected (.prim .unit)) s first (resolution, early) t) :
      Resolves program settings output resolution
  /-- A call of a method with generic parameters of its own. -/
  | method {l : Lowering} {owner} {f : FunctionDef}
      {b args span s s' t during first value resolution early}
      (h : Performs program settings output (l.bindMethod owner f b args span) s during value s')
      (hf : f.isGeneric = true)
      (hbind : Runs (Step.perform ⟨program, settings⟩) (l.bindItem f.generics []
        (f.params.map fun param => param.ty.subst b) args [] none (.prim .unit)) s first
        (resolution, early) t) :
      Resolves program settings output resolution
  /-- A variant of a generic enum. -/
  | variant {l : Lowering} {d : EnumDef} {variant : VariantDef} {path : Path}
      {args span expected s s' t during first value resolution early}
      (h : Performs program settings output (l.variantArgs d variant path args span expected) s
        during value s')
      (hd : d.generics ≠ [])
      (hbind : Runs (Step.perform ⟨program, settings⟩) (l.bindItem d.generics path.args
        variant.payload args [d.selfType] expected (.prim .i32)) s first (resolution, early) t) :
      Resolves program settings output resolution
  /-- A literal of a generic struct, union or class. -/
  | record {l : Lowering} {item generics decls path inits base span expected s s' t during first}
      {value : List Ty} {binder : Binder}
      (h : Performs program settings output
        (l.recordArgs item generics decls path inits base span expected) s during value s')
      (hgenerics : generics ≠ [])
      (hbind : Runs (Step.perform ⟨program, settings⟩)
        (l.recordBinder item generics decls path inits base expected) s first binder t) :
      Resolves program settings output (binder.resolve (.prim .unit))
  /-- A generic function as a value. -/
  | value {l : Lowering} {name span expected s s' t during first value} {f : FunctionDef}
      {resolution early}
      (h : Performs program settings output (l.functionRef name span expected) s during value s')
      (hf : program.function? name = some f) (hgeneric : f.isGeneric = true)
      (hbind : Runs (Step.perform ⟨program, settings⟩) (l.bindItem f.generics [] [] []
        [f.fnType] expected (.prim .unit)) s first (resolution, early) t) :
      Resolves program settings output resolution

/-- A resolution is reported as soon as it is made. -/
theorem mem_of_runs_bind_reportDefaulted {session : Session} {α β : Type} {m : Gen β}
    {next : β → Gen α} {b : β} {a : α} {t : Build} {first during : Gen.Trace}
    (h : session.Runs (m >>= next) s during a s')
    (hm : session.Runs m s first b t) {item : String} {span : Span}
    {rest : Unit → Gen α} (hnext : next b = Gen.reportDefaulted item resolution span >>= rest) :
    ⟨.reportDefaulted item resolution span, ()⟩ ∈ during := by
  obtain ⟨binding, found, t₁, later, hfound, hlater, rfl⟩ := h.of_bind
  obtain ⟨rfl, rfl, rfl⟩ := hfound.unique hm
  rw [hnext] at hlater
  obtain ⟨_, -, rfl⟩ := hlater.of_ask_bind rfl
  exact mem_append_right _ mem_cons_self

/-- Every resolution of a compilation is reported. -/
theorem Resolves.reported (h : Resolves program settings output resolution) :
    ∃ events last, Runs (Move.perform ⟨program, settings⟩) all (.initial settings) events () last ∧
      last.output = output ∧ ∃ item span,
        ⟨.step (.reportDefaulted item resolution span), ()⟩ ∈ events := by
  -- The script that makes the resolution is a passage, so that its events are in the whole run.
  suffices hpassage : ∃ (α : Type) (m : Gen α) (s s' : Build) (during : _) (a : α),
      Performs program settings output m s during a s' ∧ ∃ item span,
        ⟨.reportDefaulted item resolution span, ()⟩ ∈ during by
    obtain ⟨α, m, s, s', during, a, hm, item, span, hevent⟩ := hpassage
    obtain ⟨events, last, hall, houtput, hpart⟩ := hm.occurs.part
    exact ⟨events, last, hall, houtput, item, span, hpart.subset (mem_map_of_mem hevent)⟩
  cases h with
  | call h hf hbind =>
    obtain ⟨rest, hrest, rfl⟩ := Gen.runs_program_bind h.runs
    rw [hf] at hrest
    exact ⟨_, _, _, _, _, _, h, _, _,
      mem_cons_of_mem _ (mem_of_runs_bind_reportDefaulted hrest hbind rfl)⟩
  | static h hm hbind =>
    obtain ⟨rest, hrest, rfl⟩ := Gen.runs_program_bind h.runs
    rw [hm] at hrest
    exact ⟨_, _, _, _, _, _, h, _, _,
      mem_cons_of_mem _ (mem_of_runs_bind_reportDefaulted hrest hbind rfl)⟩
  | method h hf hbind =>
    have hrest := h.runs
    rw [Lowering.bindMethod, hf] at hrest
    exact ⟨_, _, _, _, _, _, h, _, _, mem_of_runs_bind_reportDefaulted hrest hbind rfl⟩
  | variant h hd hbind =>
    have hrest := h.runs
    rw [Lowering.variantArgs, if_neg (mt List.isEmpty_iff.1 hd)] at hrest
    exact ⟨_, _, _, _, _, _, h, _, _, mem_of_runs_bind_reportDefaulted hrest hbind rfl⟩
  | record h hgenerics hbind =>
    have hrest := h.runs
    rw [Lowering.recordArgs, if_neg (mt List.isEmpty_iff.1 hgenerics)] at hrest
    exact ⟨_, _, _, _, _, _, h, _, _, mem_of_runs_bind_reportDefaulted hrest hbind rfl⟩
  | value h hf hgeneric hbind =>
    obtain ⟨rest, hrest, rfl⟩ := Gen.runs_program_bind h.runs
    rw [hf] at hrest
    dsimp only at hrest
    rw [if_pos hgeneric] at hrest
    exact ⟨_, _, _, _, _, _, h, _, _,
      mem_cons_of_mem _ (mem_of_runs_bind_reportDefaulted hrest hbind rfl)⟩

/-- Settings of diagnostics never change the code. For every program and all settings, how grave a
default is and how many errors are kept change nothing of a compilation but its diagnostics: it ends
with the same fault, or the module, the instances, the requests that stayed open and the rounds are
the same. Besides, where a compilation under strict settings has no errors, whatever the limit on
errors is, no resolution that it makes has bound a parameter by default. -/
theorem reporting_keepsCode (program : Program) (settings : Settings) :
    (∀ strict errorLimit,
      (compile program { settings with strictGenerics := strict, errorLimit }).map Output.silent =
        (compile program settings).map Output.silent) ∧
    (settings.strictGenerics = true → ∀ output, compile program settings = .ok output →
      output.hasErrors = false →
        ∀ resolution, Resolves program settings output resolution → resolution.defaulted = []) := by
  constructor
  · intro strict errorLimit
    exact (silent_compile program settings strict errorLimit).symm
  · intro hstrict output _ herrors resolution hresolves
    obtain ⟨events, last, hruns, rfl, item, span, hevent⟩ := hresolves.reported
    exact defaulted_of_event hruns hstrict herrors hevent

/-- The calls of the identity for a struct, under strict settings that keep one error. -/
theorem reporting_keepsCode_sharing :
    ∃ output resolution,
      compile sharing { depth := 9, strictGenerics := true, errorLimit := 1 } = .ok output ∧
      output.hasErrors = false ∧
      Resolves sharing { depth := 9, strictGenerics := true, errorLimit := 1 } output resolution ∧
      resolution.defaulted = [] ∧
      (compile sharing { depth := 9 }).map Output.silent = .ok output.silent := by
  obtain ⟨output, hcompile, herrors⟩ := exists_of_compile (P := fun output =>
      output.hasErrors = false) (by decide +kernel : (compile sharing
        { depth := 9, strictGenerics := true, errorLimit := 1 }).toOption.any _)
  obtain ⟨t, own, value, t', hcall⟩ := performs_callGeneric_sharing rfl hcompile
  obtain ⟨rest, hrest, -⟩ := Gen.runs_program_bind hcall.runs
  obtain ⟨binding, ⟨resolution, early⟩, t₁, later, hbind, -, -⟩ := runs_bind_iff.1 hrest
  have hresolves := Resolves.call hcall rfl hbind
  obtain ⟨hsame, hdefaulted⟩ := reporting_keepsCode sharing
    { depth := 9, strictGenerics := true, errorLimit := 1 }
  refine ⟨output, resolution, hcompile, herrors, hresolves,
    hdefaulted rfl output hcompile herrors resolution hresolves, ?_⟩
  rw [hcompile] at hsame
  exact hsame false 0

end Compile

end Monomorph
