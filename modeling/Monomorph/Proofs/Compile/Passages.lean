import Monomorph.Proofs.Compile.Disciplined
import Monomorph.Proofs.Lowering.Naming
import Monomorph.Proofs.Lowering.Seclusion

/-!
# Passages of a compilation

A script that is performed as part of a compilation begins in the state to which the compilation has
come, and its events stand together among those of the compilation. What is known of all events of a
compilation is therefore known of the script, what its steps keep holds where the script begins, and
what the script requests is among the instances of the result.
-/

namespace Monomorph

open List Script

variable {item : WorkItem} {symbol : String}

namespace Gen

variable {session : Session} {α : Type} {s s' : Build} {events : Gen.Trace}

theorem runs_functionSymbol {name : String}
    (h : session.Runs (functionSymbol name) s events symbol s') :
    symbol = "@" ++ session.settings.symbolStart ++ name ∧ s' = s ∧
      events = [⟨.symbolStart, session.settings.symbolStart⟩] := by
  obtain ⟨_, hrest, rfl⟩ := h.of_ask_bind rfl
  obtain ⟨rfl, rfl, rfl⟩ := hrest.of_pure
  exact ⟨rfl, rfl, rfl⟩

end Gen

namespace Compile

variable {program : Program} {settings : Settings} {output : Output} {α β : Type} {s s' : Build}
  {during : Gen.Trace} {m : Gen α} {b : Bindings} {a : α} {l : List α}
  {f : FunctionDef} {body : Block} {depth : Nat} {stmts : List Stmt} {tail : Option Expr} {e : Expr}

/-- A compilation that gives a result comes to a state, and events follow there. -/
def Occurs (program : Program) (settings : Settings) (output : Output) (s : Build)
    (during : List Event) : Prop :=
  ∃ before after last, Runs (Move.perform ⟨program, settings⟩) all (.initial settings)
      (before ++ (during ++ after)) () last ∧ last.output = output ∧
    Leads (Move.perform ⟨program, settings⟩) (.initial settings) before s

/-- A script is performed as part of a compilation that gives a result. -/
structure Passes (program : Program) (settings : Settings) (output : Output) (m : Compile α)
    (s : Build) (during : List Event) (a : α) (s' : Build) : Prop where
  runs : Runs (Move.perform ⟨program, settings⟩) m s during a s'
  occurs : Occurs program settings output s during

/-- A script that generates code is performed as part of a compilation that gives a result. -/
structure Performs (program : Program) (settings : Settings) (output : Output) (m : Gen α)
    (s : Build) (during : List (Script.Event Step.Answer)) (a : α) (s' : Build) : Prop where
  runs : Runs (Step.perform ⟨program, settings⟩) m s during a s'
  occurs : Occurs program settings output s (during.map ofStep)

/-! ### Parts of scripts -/

namespace Occurs

variable {first rest : List Event} {mid : Build}

theorem left (h : Occurs program settings output s (first ++ rest)) :
    Occurs program settings output s first := by
  obtain ⟨before, after, last, hall, houtput, hbefore⟩ := h
  exact ⟨before, rest ++ after, last, append_assoc first rest after ▸ hall, houtput, hbefore⟩

theorem right (h : Occurs program settings output s (first ++ rest))
    (hfirst : Leads (Move.perform ⟨program, settings⟩) s first mid) :
    Occurs program settings output mid rest := by
  obtain ⟨before, after, last, hall, houtput, hbefore⟩ := h
  refine ⟨before ++ first, after, last, ?_, houtput, hbefore.append hfirst⟩
  rwa [append_assoc, ← append_assoc first]

/-- The events stand together among those of the compilation. -/
theorem part (h : Occurs program settings output s rest) :
    ∃ events last, Runs (Move.perform ⟨program, settings⟩) all (.initial settings) events () last ∧
      last.output = output ∧ rest <:+: events := by
  obtain ⟨before, after, last, hall, houtput, -⟩ := h
  exact ⟨_, last, hall, houtput, before, after, append_assoc before rest after⟩

/-- What moves keep that give local names good meanings holds wherever a compilation comes to. -/
theorem invariant {D : Discipline ⟨program, settings⟩} [D.IsFull] {I : Build → Prop}
    (h : Occurs program settings output s rest) (hD : D.Inv .outside (.initial settings))
    (htakes : ∀ events, Takes D.focus events)
    (hI : ∀ s move answer s', BindsWell D.toFacts s move → I s →
      Move.perform ⟨program, settings⟩ move s = .ok (answer, s') → I s')
    (hinitial : I (.initial settings)) : I s := by
  obtain ⟨before, after, last, hall, -, hbefore⟩ := h
  obtain ⟨mid, hleads, -⟩ := (D.reaches_of_runs_all hD hall (htakes _)).leads.of_append
  obtain rfl := hbefore.unique hleads
  exact hleads.invariant hI hinitial

end Occurs

theorem Passes.bind {m : Compile α} {f : α → Compile β} {during : List Event} {b : β}
    (h : Passes program settings output (m >>= f) s during b s') :
    ∃ first a mid rest, Passes program settings output m s first a mid ∧
      Passes program settings output (f a) mid rest b s' ∧ during = first ++ rest := by
  obtain ⟨first, a, mid, rest, hfirst, hrest, rfl⟩ := h.runs.of_bind
  exact ⟨first, a, mid, rest, ⟨hfirst, h.occurs.left⟩, ⟨hrest, h.occurs.right hfirst.leads⟩, rfl⟩

theorem Passes.ofGen {during : List Event}
    (h : Passes program settings output (ofGen m) s during a s') :
    ∃ own, Performs program settings output m s own a s' ∧ during = own.map ofStep := by
  obtain ⟨own, hown, rfl⟩ := runs_ofGen h.runs
  exact ⟨own, ⟨hown, h.occurs⟩, rfl⟩

/-- The rest of a passage of code generation occurs where its beginning leads. -/
theorem Occurs.right_map {first rest : Gen.Trace} {mid : Build}
    (h : Occurs program settings output s ((first ++ rest).map ofStep))
    (hfirst : Leads (Step.perform ⟨program, settings⟩) s first mid) :
    Occurs program settings output mid (rest.map ofStep) := by
  rw [map_append] at h
  exact h.right (leads_map_ofStep hfirst fun _ _ => id)

theorem Performs.bind {f : α → Gen β} {b : β}
    (h : Performs program settings output (m >>= f) s during b s') :
    ∃ first a mid rest, Performs program settings output m s first a mid ∧
      Performs program settings output (f a) mid rest b s' ∧ during = first ++ rest := by
  obtain ⟨first, a, mid, rest, hfirst, hrest, rfl⟩ := h.runs.of_bind
  have hoccurs := h.occurs
  rw [map_append] at hoccurs
  exact ⟨first, a, mid, rest, ⟨hfirst, hoccurs.left⟩, ⟨hrest, h.occurs.right_map hfirst.leads⟩, rfl⟩

/-- A script for the members of a list is performed for each of them. -/
theorem Performs.forM {f : α → Gen PUnit}
    (h : Performs program settings output (l.forM f) s during () s') (ha : a ∈ l) :
    ∃ t own t', Performs program settings output (f a) t own () t' := by
  obtain ⟨before, t, own, t', after, hbefore, hown, -, rfl⟩ := h.runs.forM ha
  have hoccurs := h.occurs.right_map hbefore
  rw [map_append] at hoccurs
  exact ⟨t, own, t', hown, hoccurs.left⟩

/-- Wherever code is generated, the temporaries that local names stand for are taken. -/
theorem Performs.secludes (h : Performs program settings output m s during a s') :
    Secludes [] s := by
  refine h.occurs.invariant (D := Seclusion.discipline _ []) (forall_mem_nil _)
    (fun _ _ _ _ => trivial) ?_ ⟨forall_mem_nil _, forall_mem_nil _⟩
  intro s move answer s' hbinds hs hperform
  cases move with
  | step own => exact Seclusion.secludes_of_perform hs hbinds hperform
  | _ =>
    have hinv : Seclusion.Inv [] .inside s := hs
    refine Seclusion.inv_of_sameCode hinv (Move.IsBetween.sameCode ?_ hperform)
    trivial

/-! ### Instances -/

theorem Passes.generate {during : List Event}
    (h : Passes program settings output (generate item) s during () s') :
    ∃ t own t', Performs program settings output (Gen.generate item) t own () t' := by
  obtain ⟨turning, _, t, rest, -, hrest, -⟩ := h.bind
  obtain ⟨own, hown, -⟩ := hrest.ofGen
  exact ⟨t, own, s', hown⟩

/-- A script for the members of a list is performed for each of them. -/
theorem Passes.forM {f : α → Compile PUnit} {during : List Event}
    (h : Passes program settings output (l.forM f) s during () s') (ha : a ∈ l) :
    ∃ t own t', Passes program settings output (f a) t own () t' := by
  obtain ⟨before, t, own, t', after, hbefore, hown, -, rfl⟩ := h.runs.forM ha
  exact ⟨t, own, t', hown, (h.occurs.right hbefore).left⟩

/-- The instances to which the rounds turn are generated. -/
theorem Passes.generate_of_drain {limit : Nat} {during : List Event}
    (h : Passes program settings output (drain limit) s during () s')
    (hitem : item ∈ during.flatMap generated) :
    ∃ t own t', Performs program settings output (Gen.generate item) t own () t' := by
  induction limit generalizing s during with
  | zero =>
    obtain ⟨rfl, -⟩ := h.runs.of_pure
    cases hitem
  | succ limit ih =>
    obtain ⟨writing, _, s₁, rounds, hwrite, hrounds, rfl⟩ := h.bind
    obtain ⟨taking, answer, s₂, rest, htake, hrest, rfl⟩ := hrounds.bind
    obtain ⟨-, rfl⟩ := htake.runs.of_ask
    obtain ⟨⟨taken, hadds⟩, -⟩ := runs_writeTables hwrite.runs
    rw [flatMap_append, hadds.generated] at hitem
    cases answer with
    | none =>
      obtain ⟨asking, pending, s₃, later, hask, hlater, rfl⟩ := hrest.bind
      obtain ⟨-, rfl⟩ := hask.runs.of_ask
      cases pending with
      | true => exact ih hlater hitem
      | false =>
        obtain ⟨rfl, -⟩ := hlater.runs.of_pure
        cases hitem
    | some batch =>
      obtain ⟨generating, _, s₃, later, hbatch, hlater, rfl⟩ := hrest.bind
      have hitem : item ∈ (generating ++ later).flatMap generated := hitem
      rw [flatMap_append, (runs_forM_generate hbatch.runs).generated] at hitem
      obtain hitem | hitem := mem_append.1 hitem
      · obtain ⟨t, own, t', hgenerate⟩ := hbatch.forM hitem
        exact hgenerate.generate
      · exact ih hlater hitem

/-- A compilation gives the result of its run. -/
theorem compile_eq_ok_of_runs {events : List Event}
    (h : Runs (Move.perform ⟨program, settings⟩) all (.initial settings) events () s) :
    compile program settings = .ok s.output := by
  rw [compile, run_eq_ok_iff.2 ⟨events, h⟩]
  rfl

theorem Performs.compile_eq_ok (h : Performs program settings output m s during a s') :
    compile program settings = .ok output := by
  obtain ⟨events, last, hall, rfl, -⟩ := h.occurs.part
  exact compile_eq_ok_of_runs hall

/-- The phases of a compilation. Outside the rounds, no instance is turned to. -/
theorem phases_of_compile_eq_ok (h : compile program settings = .ok output) :
    ∃ s₁ s₂ s₃ last registering lowering draining reporting limit,
      Performs program settings output Gen.registerCtors (.initial settings) registering () s₁ ∧
      Performs program settings output Gen.homeItems s₁ lowering () s₂ ∧
      Passes program settings output (drain (limit + 1)) s₂ draining () s₃ ∧
      draining.flatMap generated = output.instances ∧
      Passes program settings output (s₃.worklist.deferred.forM fun item =>
        ofGen (Gen.report item.deferredWarning)) s₃ reporting () last ∧ last.output = output := by
  obtain ⟨events, last, hruns, rfl⟩ := runs_of_compile_eq_ok h
  have hinstances : _ = last.output.instances := generated_eq_processed hruns
  have hall : Passes program settings last.output all (.initial settings) events () last :=
    ⟨hruns, [], [], last, (append_nil events).symm ▸ hruns, rfl, .nil _⟩
  obtain ⟨_, _, s₁, _, hregister, h₁, rfl⟩ := hall.bind
  obtain ⟨_, _, s₂, _, hhome, h₂, rfl⟩ := h₁.bind
  obtain ⟨_, limit, _, _, hread, h₃, rfl⟩ := h₂.bind
  obtain ⟨draining, _, s₃, _, hdrain, h₄, rfl⟩ := h₃.bind
  obtain ⟨_, items, _, reporting, hlist, hreport, rfl⟩ := h₄.bind
  obtain ⟨hperform, rfl⟩ := hread.runs.of_ask
  cases hperform
  obtain ⟨hperform, rfl⟩ := hlist.runs.of_ask
  cases hperform
  have hreports := adds_of_steps (only_forM (fun item => only_ofGen (Gen.report
    (WorkItem.deferredWarning item)).only_true) _) hreport.runs
  simp only [flatMap_append, (adds_ofGen hregister.runs).generated,
    (adds_ofGen hhome.runs).generated, hreports.generated, flatMap_singleton, generated,
    nil_append, append_nil] at hinstances
  obtain ⟨registering, hregister, -⟩ := hregister.ofGen
  obtain ⟨lowering, hhome, -⟩ := hhome.ofGen
  exact ⟨s₁, s₂, s₃, last, registering, lowering, draining, reporting, _, hregister, hhome, hdrain,
    hinstances, hreport, rfl⟩

/-- Every instance of the result was generated. -/
theorem performs_generate (h : compile program settings = .ok output)
    (hitem : item ∈ output.instances) :
    ∃ t own t', Performs program settings output (Gen.generate item) t own () t' := by
  obtain ⟨_, _, _, _, _, _, _, _, _, -, -, hdrain, hinstances, -⟩ := phases_of_compile_eq_ok h
  exact hdrain.generate_of_drain (hinstances ▸ hitem)

/-- An instance that is requested occurs once among the instances of the result. -/
theorem Performs.count_instances (h : Performs program settings output m s during a s')
    (hevent : ⟨.require item, symbol⟩ ∈ during) :
    (output.instances.map WorkItem.key).count item.key = 1 := by
  obtain ⟨events, last, hall, rfl, hpart⟩ := h.occurs.part
  have hledger := (ledger_initial settings).runs hall
  refine hledger.count_processed (runs_all hall).2.1 (mem_flatMap.2 ?_)
  exact ⟨_, hpart.subset (mem_map_of_mem hevent), mem_singleton_self item⟩

/-! ### Disciplines -/

section Disciplines

variable {D : Discipline ⟨program, settings⟩} [D.IsFull]
  (hinitial : D.Inv .outside (.initial settings))
  (htakes : ∀ step answer, D.focus.Takes step answer)

include hinitial htakes

/-- A passage leaves a good trace. -/
theorem Performs.accepts {a : α} (h : Performs program settings output m s during a s') :
    ∀ event ∈ during, D.Accepts event.1 := by
  obtain ⟨events, last, hall, rfl, hpart⟩ := h.occurs.part
  obtain ⟨-, -, haccepts⟩ :=
    Discipline.of_runs_all hinitial hall fun step answer _ => htakes step answer
  exact accepts_map_ofStep.1 fun event hevent => haccepts event (hpart.subset hevent)

/-- The instances of the result may be requested. -/
theorem admits_of_mem_instances (h : compile program settings = .ok output)
    (hitem : item ∈ output.instances) : D.Admits item := by
  obtain ⟨events, last, hall, rfl⟩ := runs_of_compile_eq_ok h
  obtain ⟨-, -, haccepts⟩ :=
    Discipline.of_runs_all hinitial hall fun step answer _ => htakes step answer
  exact haccepts _ (require_of_mem_processed hall hitem)

end Disciplines

section Clean

variable (hclean : program.Over .clean)

include hclean

/-- The instances that are requested are those of the items of the program, for clean types. -/
theorem Performs.requests_clean {a : α} (h : Performs program settings output m s during a s')
    (hevent : ⟨.require item, symbol⟩ ∈ during) :
    program.Requests item ∧ ∀ t ∈ item.args, t.Over .clean := by
  have hadmits : (Naming.clean (.none ⟨program, settings⟩) hclean).Admits item :=
    h.accepts trivial (fun _ _ => trivial) _ hevent
  exact ⟨(hadmits s).1, (hadmits s).2.1⟩

/-- The instances of the result are those of the items of the program, for clean types. -/
theorem requests_clean_of_mem_instances (h : compile program settings = .ok output)
    (hitem : item ∈ output.instances) : program.Requests item ∧ ∀ t ∈ item.args, t.Over .clean := by
  have hadmits : (Naming.clean (.none ⟨program, settings⟩) hclean).Admits item :=
    admits_of_mem_instances trivial (fun _ _ => trivial) h hitem
  exact ⟨(hadmits (.initial settings)).1, (hadmits (.initial settings)).2.1⟩

end Clean

/-! ### The module at hand -/

theorem Performs.program_bind {f : Program → Gen α}
    (h : Performs program settings output (Gen.program >>= f) s during a s') :
    ∃ rest, Performs program settings output (f program) s rest a s' := by
  obtain ⟨first, p, mid, rest, hfirst, hrest, -⟩ := h.bind
  obtain ⟨hperform, -⟩ := hfirst.runs.of_ask
  cases hperform
  exact ⟨rest, hrest⟩

/-- The body of a function is lowered under its binding. -/
theorem Performs.body_of_lowerFunction
    (h : Performs program settings output (Gen.lowerFunction f symbol b none) s during () s')
    (hclosure : f.isClosureBody = false) (hbody : f.body = some body) :
    ∃ t own value t', Performs program settings output
      ((Lowering.ofDepth b (f.ret.subst b) settings.depth).block body (some (f.ret.subst b)))
      t own value t' := by
  rw [Gen.lowerFunction, hclosure, hbody] at h
  obtain ⟨_, params, s₁, _, -, h, -⟩ := h.bind
  obtain ⟨_, ret, s₂, _, -, h, -⟩ := h.bind
  obtain ⟨_, _, s₃, _, -, h, -⟩ := h.bind
  obtain ⟨_, _, s₄, _, -, h, -⟩ := h.bind
  obtain ⟨_, l, s₅, _, hl, h, -⟩ := h.bind
  obtain ⟨_, hl, -⟩ := hl.runs.of_ask_bind rfl
  obtain ⟨-, rfl, -⟩ := hl.of_pure
  obtain ⟨own, value, t', _, hblock, -, -⟩ := h.bind
  exact ⟨s₅, own, value, t', hblock⟩

/-- The expressions that a block evaluates for effect are lowered. -/
theorem Performs.shape_of_block {ret : Ty} {expected : Option Ty} {value : Value}
    (h : Performs program settings output
      ((Lowering.ofDepth b ret (depth + 1)).block (.mk stmts tail) expected) s during value s')
    (he : .eval e ∈ stmts) :
    ∃ t own value t', Performs program settings output
      ((Lowering.ofDepth b ret depth).shape e none) t own value t' := by
  obtain ⟨running, _, t₁, rest, hstmts, -, -⟩ := h.bind
  obtain ⟨t₂, own, t₂', hstmt⟩ := hstmts.forM he
  obtain ⟨lowering, _, t₃, rest, hexpr, -, -⟩ := hstmt.bind
  obtain ⟨shaping, value, t₄, rest, hshape, -, -⟩ := hexpr.bind
  exact ⟨t₂, shaping, value, t₄, hshape⟩

/-- What declines leaves a call to the stages after it. -/
theorem Performs.firstOf_of_declines {stage : Gen (Option Value)}
    {stages : List (Gen (Option Value))} {found : Option Value}
    (h : Performs program settings output (Lowering.firstOf (stage :: stages)) s during found s')
    (hstage : stage.run (Step.perform ⟨program, settings⟩) s = .ok (none, s)) :
    ∃ own, Performs program settings output (Lowering.firstOf stages) s own found s' := by
  obtain ⟨_, result, mid, rest, hruns, hrest, -⟩ := h.bind
  cases hstage.symm.trans (run_eq_ok_iff.2 ⟨_, hruns.runs⟩)
  exact ⟨rest, hrest⟩

/-- The body of a ready function of the module at hand is lowered. -/
theorem performs_homeBody (h : compile program settings = .ok output)
    (hf : f ∈ program.home.functions.items) (hready : f.isReady = true)
    (hforeign : f.isExtern = false) (hclosure : f.isClosureBody = false)
    (hbody : f.body = some body) :
    ∃ t own value t', Performs program settings output
      ((Lowering.ofDepth .empty (f.ret.subst .empty) settings.depth).block body
        (some (f.ret.subst .empty))) t own value t' := by
  obtain ⟨_, _, _, _, _, _, _, _, _, -, hhome, -⟩ := phases_of_compile_eq_ok h
  obtain ⟨own, hown⟩ := hhome.program_bind
  obtain ⟨functions, _, s₃, rest₃, hfunctions, -, -⟩ := hown.bind
  obtain ⟨t, own, t', hfunction⟩ := hfunctions.forM hf
  rw [Gen.homeFunction, hready, hforeign, hclosure] at hfunction
  obtain ⟨own, hfunction⟩ := hfunction.program_bind
  obtain ⟨_, symbol, t₁, own, -, hlower, -⟩ := hfunction.bind
  exact hlower.body_of_lowerFunction hclosure hbody

/-- The expressions that the body of a ready function of the module at hand evaluates for effect are
lowered. -/
theorem performs_homeEval (h : compile program settings = .ok output)
    (hf : f ∈ program.home.functions.items) (hready : f.isReady = true)
    (hforeign : f.isExtern = false) (hclosure : f.isClosureBody = false)
    (hbody : f.body = some (.mk stmts tail)) (he : .eval e ∈ stmts)
    (hdepth : settings.depth = depth + 1) :
    ∃ t own value t', Performs program settings output
      ((Lowering.ofDepth .empty (f.ret.subst .empty) depth).shape e none) t own value t' := by
  obtain ⟨t₁, own, _, t₁', hblock⟩ := performs_homeBody h hf hready hforeign hclosure hbody
  rw [hdepth] at hblock
  exact hblock.shape_of_block he

end Compile

end Monomorph
