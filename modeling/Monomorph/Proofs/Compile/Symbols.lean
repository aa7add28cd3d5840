import Monomorph.Proofs.Compile.Functions
import Monomorph.Proofs.Compile.Requests

/-!
# The symbols of a module

A module refers to functions by their symbols: in direct calls, in the values of functions and in
dispatch tables. Each of them is declared, or it belongs to an instance, or to code that the module
at hand is taken to write. Instances are written, unless a definition is missing, which is an error.
What the module at hand is taken to write is written if it has code and is its own: the constructors
of classes of other modules are taken to be its own, but are not.

## Main results

* `Move.grows_of_perform`, `Compile.defines_of_requested`, `Compile.resolved_of_compile_eq_ok`.
-/

namespace Monomorph

open List Script

/-- Whether a module defines a function with a given symbol. -/
def IR.Assembly.defines (a : IR.Assembly) (symbol : String) : Bool :=
  a.functions.toList.any fun f => f.symbol? = some symbol

/-- Symbols of code that the module at hand is taken to write, but does not write. -/
def Session.Omits (session : Session) (symbol : String) : Prop :=
  (∃ name, session.program.Lists name ∧ symbol = session.symbol name) ∧
    symbol ∉ session.homePieces.map Piece.symbol

/-! ### What events leave behind -/

variable {session : Session} {s s' : Build}

/-- What stays from one state of a module to the next: declarations and constants. -/
structure IR.Assembly.Grows (a a' : IR.Assembly) : Prop where
  declares : ∀ symbol, a.declares symbol = true → a'.declares symbol = true
  globals : a.globals.toList <+: a'.globals.toList

namespace IR.Assembly

variable {a a' : IR.Assembly}

/-- A change to neither declarations nor constants, or to constants alone. -/
theorem Grows.of_declarations (hdeclarations : a'.declarations = a.declarations)
    (hglobals : a.globals.toList <+: a'.globals.toList) : a.Grows a' := by
  refine ⟨fun symbol h => ?_, hglobals⟩
  rwa [IR.Assembly.declares, hdeclarations]

theorem Grows.refl (a : IR.Assembly) : a.Grows a := .of_declarations rfl prefix_rfl

theorem Grows.trans {a'' : IR.Assembly} (h : a.Grows a') (h' : a'.Grows a'') : a.Grows a'' :=
  ⟨fun symbol hsymbol => h'.declares symbol (h.declares symbol hsymbol), h.globals.trans h'.globals⟩

theorem grows_declare (a : IR.Assembly) (symbol : String) (ret : Ty) (params : List Ty) :
    a.Grows (a.declare symbol ret params) := by
  refine ⟨fun _ => declares_of_declares symbol ret params, ?_⟩
  rw [declare]
  split <;> exact prefix_rfl

theorem grows_addGlobal (a : IR.Assembly) (g : Global) : a.Grows (a.addGlobal g) := by
  refine ⟨fun _ h => h, ?_⟩
  rw [addGlobal, Array.toList_push]
  exact prefix_append _ _

theorem grows_defineType (a : IR.Assembly) (name : String) (body : Ty) :
    a.Grows (a.defineType name body) := by
  rw [defineType]
  split
  · exact .refl a
  · exact .of_declarations rfl prefix_rfl

theorem grows_stringGlobal (a : IR.Assembly) (value : String) :
    a.Grows (a.stringGlobal value).2 := by
  rw [stringGlobal]
  split
  · exact .refl a
  · exact .of_declarations rfl (a.grows_addGlobal (.bytes _ value)).globals

theorem grows_markerGlobal (a : IR.Assembly) (name : String) : a.Grows (a.markerGlobal name).2 := by
  rw [markerGlobal]
  split
  · exact .refl a
  · exact .of_declarations rfl (a.grows_addGlobal (.bytes _ name)).globals

theorem grows_cover (a : IR.Assembly) (name : String) : a.Grows (a.cover name) := by
  rw [cover]
  split
  · refine (a.grows_declare coverSymbol .void [.ptr]).trans ((grows_markerGlobal _ name).trans ?_)
    exact .of_declarations rfl prefix_rfl
  · exact .refl a

end IR.Assembly

/-- A request that is put aside joins the others, unless one like it did so before. -/
theorem Worklist.deferred_defer (w : Worklist) (kind : InstanceKind) (base : String)
    (args : List Ty) :
    ((w.defer kind base args).2.deferred = w.deferred ∧
        ∃ d ∈ w.deferred, d.kind = kind ∧ d.base = base ∧ d.args = args) ∨
      (w.defer kind base args).2.deferred = w.deferred ++ [.unresolved kind base args] := by
  rw [defer]
  split
  next hany =>
    refine .inl ⟨rfl, ?_⟩
    simpa only [any_eq_true, Bool.and_eq_true, decide_eq_true_eq, and_assoc] using hany
  · exact .inr rfl

theorem Worklist.exists_mem_deferred_defer (w : Worklist) (kind : InstanceKind) (base : String)
    (args : List Ty) :
    ∃ d ∈ (w.defer kind base args).2.deferred, d.kind = kind ∧ d.base = base ∧ d.args = args := by
  obtain ⟨hdefer, hd⟩ | hdefer := w.deferred_defer kind base args
  · rwa [← hdefer] at hd
  · refine ⟨.unresolved kind base args, ?_, rfl, rfl, rfl⟩
    exact hdefer ▸ mem_append_right _ (mem_singleton_self _)

/-- What stays from one state of a compilation to the next. -/
structure Build.Grows (s s' : Build) : Prop where
  assembly : s.assembly.Grows s'.assembly
  deferred : s.worklist.deferred <+: s'.worklist.deferred
  /-- What else is put aside is kept under the placeholder. -/
  unresolved : ∀ d ∈ s'.worklist.deferred,
    d ∈ s.worklist.deferred ∨ d = .unresolved d.kind d.base d.args
  kept : s.diagnostics.kept <+: s'.diagnostics.kept

theorem Build.Grows.of_assembly (h : s.assembly.Grows s'.assembly)
    (hdeferred : s'.worklist.deferred = s.worklist.deferred)
    (hdiagnostics : s'.diagnostics = s.diagnostics) : s.Grows s' :=
  ⟨h, hdeferred ▸ prefix_rfl, fun _ hd => .inl (hdeferred ▸ hd), hdiagnostics ▸ prefix_rfl⟩

theorem Build.Grows.refl (s : Build) : s.Grows s := .of_assembly (.refl _) rfl rfl

theorem Build.grows_report (s : Build) (d : Diagnostic) : s.Grows (s.report d) := by
  refine ⟨.refl _, prefix_rfl, fun _ hd => .inl hd, ?_⟩
  rw [report]
  obtain ⟨hpush, -⟩ | ⟨hpush, -⟩ := s.diagnostics.push_cases d
  · rw [hpush]
  · rw [hpush]
    exact prefix_append _ _

theorem Step.grows_of_perform {step : Step} {answer : step.Answer}
    (h : step.perform session s = .ok (answer, s')) : s.Grows s' := by
  cases step with
  | report d =>
    cases h
    exact s.grows_report d
  | reportDefaulted item resolution span =>
    cases h
    split
    · exact .refl s
    · exact s.grows_report _
  | defineType name body =>
    cases h
    exact .of_assembly (s.assembly.grows_defineType name body) rfl rfl
  | declare symbol ret params =>
    cases h
    exact .of_assembly (s.assembly.grows_declare symbol ret params) rfl rfl
  | stringGlobal value =>
    cases h
    exact .of_assembly (s.assembly.grows_stringGlobal value) rfl rfl
  | beginFunction ret symbol params =>
    cases h
    have hbegin : s.assembly.Grows (s.assembly.begin (.define ret symbol params)) :=
      .of_declarations rfl prefix_rfl
    -- Under coverage, the function that records the entry is declared as well.
    exact .of_assembly (hbegin.trans (IR.Assembly.grows_cover _ _)) rfl rfl
  | require item =>
    cases h
    refine .of_assembly (.refl _) ?_ rfl
    dsimp only
    rw [Worklist.require]
    split <;> rfl
  | defer item =>
    cases h
    obtain hdefer | hdefer := s.worklist.deferred_defer item.kind item.base item.args
    · exact .of_assembly (.refl _) hdefer.1 rfl
    · refine ⟨.refl _, hdefer ▸ prefix_append _ _, fun d hd => ?_, prefix_rfl⟩
      rw [hdefer] at hd
      obtain hd | hd := mem_append.1 hd
      · exact .inl hd
      · obtain rfl := mem_singleton.1 hd
        exact .inr rfl
  | _ =>
    obtain ⟨memo, rfl⟩ := eq_of_perform h
    exact .of_assembly (.of_declarations rfl prefix_rfl) rfl rfl

theorem Move.grows_of_perform {move : Move} {answer : move.Answer}
    (h : move.perform session s = .ok (answer, s')) : s.Grows s' := by
  cases move with
  | step own => exact Step.grows_of_perform h
  | takeRound =>
    obtain ⟨-, -, rfl⟩ | ⟨-, -, rfl⟩ := Build.takeRound_eq_ok h
    · exact .refl _
    · exact .of_assembly (.refl _) rfl rfl
  | writeTable name entries =>
    cases h
    exact .of_assembly (s.assembly.grows_addGlobal (.table name entries)) rfl rfl
  | _ =>
    cases h
    exact .of_assembly (.refl _) rfl rfl

/-- What an event reports. -/
def Compile.reports (strict : Bool) : Compile.Event → List Diagnostic
  | ⟨.step own, _⟩ => own.reports strict
  | _ => []

theorem Move.diagnostics_of_perform {move : Move} {answer : move.Answer}
    (h : move.perform session s = .ok (answer, s')) :
    s'.diagnostics = (Compile.reports session.settings.strictGenerics ⟨move, answer⟩).foldl
      (fun q d => (q.push d).2) s.diagnostics := by
  cases move with
  | step own =>
    obtain ⟨memo, rfl⟩ := Step.eq_of_perform h
    rfl
  | takeRound => obtain ⟨-, -, rfl⟩ | ⟨-, -, rfl⟩ := Build.takeRound_eq_ok h <;> rfl
  | _ =>
    cases h
    rfl

namespace Compile

variable {program : Program} {settings : Settings} {output : Output} {events : List Event}
  (hruns : Runs (Move.perform ⟨program, settings⟩) all (.initial settings) events () s)
  {symbol : String} {item : WorkItem}

include hruns

theorem declares_of_event {ret : IR.Ty} {params : List IR.Ty}
    (hevent : ⟨.step (.declare symbol ret params), ()⟩ ∈ events) :
    s.assembly.declares symbol = true := by
  refine hruns.leaves (M := fun t => t.assembly.declares symbol = true)
    (fun _ _ _ _ h => (Move.grows_of_perform h).assembly.declares symbol) hevent fun t t' h => ?_
  cases h
  exact t.assembly.declares_declare symbol ret params

/-- What was put aside is kept under the placeholder. -/
theorem unresolved_of_event (hevent : ⟨.step (.defer item), symbol⟩ ∈ events) :
    .unresolved item.kind item.base item.args ∈ s.output.deferred := by
  have hlike : ∃ d ∈ s.worklist.deferred,
      d.kind = item.kind ∧ d.base = item.base ∧ d.args = item.args := by
    refine hruns.leaves (M := fun t => ∃ d ∈ t.worklist.deferred,
      d.kind = item.kind ∧ d.base = item.base ∧ d.args = item.args) ?_ hevent fun t t' h => ?_
    · rintro _ _ t t' h ⟨d, hd, hitem⟩
      exact ⟨d, (Move.grows_of_perform h).deferred.subset hd, hitem⟩
    · cases h
      exact t.worklist.exists_mem_deferred_defer item.kind item.base item.args
  have hall : ∀ d ∈ s.worklist.deferred, d = .unresolved d.kind d.base d.args := by
    refine hruns.invariant
      (P := fun _ t => ∀ d ∈ t.worklist.deferred, d = .unresolved d.kind d.base d.args)
      (fun _ t _ _ t' _ ht h d hd => ?_) (only_true _) [] (by rintro _ ⟨⟩)
    exact ((Move.grows_of_perform h).unresolved d hd).elim (ht d) id
  obtain ⟨d, hd, hkind, hbase, hargs⟩ := hlike
  rw [← hkind, ← hbase, ← hargs, ← hall d hd]
  exact hd

theorem deferred_of_event (hevent : ⟨.step (.defer item), symbol⟩ ∈ events) :
    s.output.deferred ≠ [] :=
  ne_nil_of_mem (unresolved_of_event hruns hevent)

/-- The diagnostics of a compilation are what its queue keeps of what was reported. -/
theorem accounts_reports :
    s.diagnostics.Accounts settings.errorLimit true
      (events.flatMap (reports settings.strictGenerics)) := by
  refine hruns.invariant (P := fun history t => t.diagnostics.Accounts settings.errorLimit true
    (history.flatMap (reports settings.strictGenerics))) ?_ all.only_true []
    (DiagnosticQueue.accounts_empty _ _)
  intro history t move answer t' _ ht hperform
  rw [flatMap_concat, Move.diagnostics_of_perform hperform]
  exact ht.foldl_push _

/-- An error that is reported leaves an error, or a diagnostic with the same code. -/
theorem exists_kept_of_event {event : Event} {d : Diagnostic} (hevent : event ∈ events)
    (hd : d ∈ reports settings.strictGenerics event) (herror : d.isError = true) :
    ∃ own ∈ s.diagnostics.kept, own.isError = true ∨ own.code = d.code :=
  (accounts_reports hruns).keeps.exists_error (mem_flatMap_of_mem hevent hd) herror

/-- A missing definition that is reported leaves an error. -/
theorem hasErrors_of_event {d : Diagnostic} (hevent : ⟨.step (.report d), ()⟩ ∈ events)
    (herror : d.isError = true) (hcode : d.code = .missingDefinition) :
    s.output.hasErrors = true := by
  obtain ⟨own, hown, hor⟩ := exists_kept_of_event hruns hevent (mem_singleton_self d) herror
  refine any_eq_true.2 ⟨own, mem_mergeSort.2 hown, hor.elim id fun hown' => ?_⟩
  exact ((Linkage.of_runs_all hruns).2.diagnostics own hown (hown'.trans hcode)).1

omit hruns

/-! ### Symbols -/

/-- Where there are no errors, the definitions of all instances are found. -/
theorem finds_of_mem_instances (h : compile program settings = .ok output)
    (herrors : output.hasErrors = false) (hitem : item ∈ output.instances) :
    program.finds item = true := by
  obtain ⟨t, own, t', hgenerate⟩ := performs_generate h hitem
  obtain ⟨events, last, hall, rfl, hpart⟩ := hgenerate.occurs.part
  obtain ⟨finding, found, mid, reporting, hfound, hreport, rfl⟩ := hgenerate.bind
  rw [← hfound.found_eq]
  cases found with
  | true => rfl
  | false =>
    obtain ⟨-, rfl⟩ := hreport.runs.of_ask
    have hevent := hpart.subset (mem_map_of_mem (mem_append_right _ mem_cons_self))
    exact herrors.symm.trans (hasErrors_of_event hall hevent rfl rfl)

/-- A piece that is lowered is a function of the module. -/
theorem defines_of_piece (h : compile program settings = .ok output) {piece : Piece}
    (hpiece : piece ∈ Session.pieces ⟨program, settings⟩ output.instances) :
    output.assembly.defines piece.symbol = true := by
  have hwrites := writes_of_compile_eq_ok h
  generalize Session.pieces _ _ = pieces at hpiece hwrites
  rw [IR.Assembly.defines]
  generalize output.assembly.functions.toList = functions at hwrites ⊢
  induction hwrites with
  | nil => cases hpiece
  | cons hwritten _ ih =>
    rw [any_cons, Bool.or_eq_true]
    obtain rfl | hlater := mem_cons.1 hpiece
    · exact .inl (decide_eq_true hwritten.symbol)
    · exact .inr (ih hlater)

/-- Where there are no errors, an instance of code that was requested is a function of the
module. -/
theorem defines_of_requested
    (hruns : Runs (Move.perform ⟨program, settings⟩) all (.initial settings) events () s)
    (herrors : s.output.hasErrors = false) (hcode : item.kind.isCode = true)
    (hevent : ⟨.step (.require item), symbol⟩ ∈ events) :
    s.assembly.defines (Session.symbol ⟨program, settings⟩ item.symbol) = true := by
  have h := compile_eq_ok_of_runs hruns
  have hledger := (ledger_initial settings).runs hruns
  have hcount := hledger.count_processed (runs_all hruns).2.1
    (mem_flatMap.2 ⟨_, hevent, mem_singleton_self item⟩)
  -- The instance of that kind and symbol need not be the one of this request.
  have hkey : item.key ∈ s.worklist.processed.map WorkItem.key :=
    count_pos_iff.1 (hcount ▸ Nat.one_pos)
  obtain ⟨own, hown, hkey⟩ := mem_map.1 hkey
  obtain ⟨hkind, hsymbol⟩ := Prod.mk.inj hkey
  have hsome : (Session.piece? ⟨program, settings⟩ own).isSome = true := by
    rw [Session.isSome_piece?, hkind, hcode, finds_of_mem_instances h herrors hown]
    rfl
  obtain ⟨piece, hpiece⟩ := Option.isSome_iff_exists.1 hsome
  rw [← hsymbol, ← Session.symbol_of_piece? hpiece]
  exact defines_of_piece h (mem_append_right _ (mem_filterMap.2 ⟨own, hown, hpiece⟩))

/-- The symbols to which a module without errors and without requests put aside refers, in direct
calls, values of functions and dispatch tables, are defined or declared in it, unless they belong to
code that the module at hand is taken to write and does not write. -/
theorem resolved_of_compile_eq_ok (h : compile program settings = .ok output)
    (herrors : output.hasErrors = false) (hdeferred : output.deferred = []) :
    ∀ symbol ∈ output.assembly.symbols, output.assembly.defines symbol = true ∨
      output.assembly.declares symbol = true ∨ Session.Omits ⟨program, settings⟩ symbol := by
  obtain ⟨events, s, hruns, rfl⟩ := runs_of_compile_eq_ok h
  intro symbol hsymbol
  obtain haccounts | hdeclares :=
    (Linkage.of_runs_all hruns).2.assembly symbol (List.mem_append_left _ hsymbol)
  · cases haccounts with
    | declared hevent =>
      exact .inr (.inl (declares_of_event hruns hevent))
    | requested hcode hitem =>
      obtain ⟨_, hevent⟩ := hitem
      exact .inl (defines_of_requested hruns herrors hcode hevent)
    | deferred hevent =>
      exact (deferred_of_event hruns hevent hdeferred).elim
    | @listed name hlists =>
      by_cases hhome : Session.symbol ⟨program, settings⟩ name ∈
          (Session.homePieces ⟨program, settings⟩).map Piece.symbol
      · obtain ⟨piece, hpiece, hname⟩ := List.mem_map.1 hhome
        refine .inl ?_
        have hdefines := defines_of_piece h (List.mem_append_left _ hpiece)
        rwa [hname] at hdefines
      · exact .inr (.inr ⟨⟨name, hlists, rfl⟩, hhome⟩)
  · exact .inr (.inl hdeclares)

/-- Calls of a function at hand, of an imported one and of an instance, the value of a function and
a dispatch table. -/
def crossCalls : Program where
  home := {
    structs := .ofList [{ name := "Dot" }]
    behaviors := .ofList [{ name := "Show", methods := [⟨"show", [], .prim .i32⟩] }]
    impls := [
      { selfTy := .ofName "Dot" [], behavior := some "Show"
        methods := [numbered "show" 1] }]
    functions := .ofList [
      { name := "near", body := some (.mk [] none) },
      { name := "same", generics := ["T"], params := [⟨"x", .ofName "T" []⟩]
        body := some (.mk [] none) },
      { name := "f", params := [⟨"d", .ofName "Dot" []⟩]
        body := some (.mk [.eval (.call {} (.ident {} "near") []),
          .eval (.call {} (.ident {} "far") []),
          .eval (.call {} (.ident {} "same") [.lit {} (.int 1)]),
          .bind "g" none (.functionRef {} "near"),
          .bind "shown" (some (.dyn "Show" [])) (.ident {} "d")] none) }] }
  imports := [{ path := "geo", functions := .ofList [{ name := "far" }] }]

theorem resolved_of_compile_eq_ok_crossCalls :
    ∃ output, compile crossCalls { depth := 9 } = .ok output ∧ output.hasErrors = false ∧
      output.deferred = [] ∧
      output.assembly.symbols =
        ["@tml_near", "@tml_far", "@tml_same__I32", "@tml_near", "@malloc", "@tml_Dot_show"] ∧
      ∀ symbol ∈ output.assembly.symbols, output.assembly.defines symbol = true ∨
        output.assembly.declares symbol = true ∨
        Session.Omits ⟨crossCalls, { depth := 9 }⟩ symbol := by
  obtain ⟨output, hcompile, herrors, hdeferred, hsymbols⟩ := exists_of_compile
    (P := fun output => output.hasErrors = false ∧ output.deferred = [] ∧ output.assembly.symbols =
      ["@tml_near", "@tml_far", "@tml_same__I32", "@tml_near", "@malloc", "@tml_Dot_show"])
    (by decide +kernel : (compile crossCalls { depth := 9 }).toOption.any _)
  exact ⟨output, hcompile, herrors, hdeferred, hsymbols,
    resolved_of_compile_eq_ok hcompile herrors hdeferred⟩

/-- A call of the constructor of a class of another module. -/
def borrowedConstructor : Program where
  home := {
    functions := .ofList [
      { name := "f"
        body := some (.mk [.eval (.call {} (.path {} { segments := ["Point", "new"] })
          [.lit {} (.int 1)])] none) }] }
  imports := [
    { path := "geo"
      classes := .ofList [
        { name := "Point", fields := [{ name := "x", ty := .prim .i32 }]
          constructors := [
            { name := "new", params := [⟨"x", .prim .i32⟩], body := some (.mk [] none) }] }] }]

/-- The constructor of a class of another module is called, but neither defined nor declared. -/
theorem unresolved_of_borrowedConstructor :
    ∃ output, compile borrowedConstructor { depth := 9 } = .ok output ∧
      output.hasErrors = false ∧ output.deferred = [] ∧
      "@tml_Point_new_I32" ∈ output.assembly.symbols ∧
      output.assembly.defines "@tml_Point_new_I32" = false ∧
      output.assembly.declares "@tml_Point_new_I32" = false :=
  exists_of_compile (by decide +kernel)

end Compile

end Monomorph
