import Monomorph.Proofs.Compile.Functions
import Monomorph.Proofs.IR.Constants

/-!
# Coverage only adds markers

A compilation that records the entries of functions does what a compilation without records does.
Its functions have one more line each, a call in front of the others, and the module has the
declaration of what is called and the constants with the names of the functions.

## Main results

* `Step.records_onAssembly`, `Compile.matches_coverage`, `Compile.coverage_adds_markers`.
-/

namespace Monomorph

open List Script

namespace IR

/-- The name under which the entry of a function is recorded. -/
def entryName (symbol : String) : String := String.ofList (symbol.toList.dropWhile (· = '@'))

/-- Whether a constant is named like a coverage marker. -/
def Global.isMarker : Global → Bool
  | bytes name _ => "@.cov.".toList.isPrefixOf name.toList
  | _ => false

/-- Whether a line is a call that records an entry. -/
def Line.isCover : Line → Bool
  | instr (.call none .void (.global symbol) _) => symbol = Assembly.coverSymbol
  | _ => false

/-- A function without the calls that record entries. -/
def Function.uncovered (f : Function) : Function := { f with lines := f.lines.filter (!·.isCover) }

/-- A module without the calls, the markers and the declaration that record entries. -/
def Assembly.uncovered (a : Assembly) : Assembly :=
  { a with
    coverage := false
    markers := []
    globals := a.globals.filter (!·.isMarker)
    declarations := a.declarations.filter (·.symbol ≠ coverSymbol)
    functions := a.functions.map Function.uncovered
    draft := a.draft.uncovered }

/-- The first line of a function, and no other, records an entry, and what it passes is the name of
a constant that holds the name of the function. -/
def Function.RecordsEntry (globals : Array Global) (f : Function) : Prop :=
  ∃ symbol marker rest, f.symbol? = some symbol ∧ f.lines.toList = .covers marker :: rest ∧
    (∀ line ∈ rest, line.isCover = false) ∧
    globals.toList.filter (·.defines marker) = [.bytes marker (entryName symbol)]

/-! ### Two modules -/

/-- A function and the same function with its entry recorded. -/
structure Function.Records (markers : List String) (f f' : Function) : Prop where
  header : f'.header = f.header
  lines : f'.lines.toList = (f.symbol?.map fun symbol =>
    Line.covers (Assembly.markerName (markers.idxOf (entryName symbol)))).toList ++ f.lines.toList
  named : ∀ symbol, f.symbol? = some symbol → entryName symbol ∈ markers

namespace Function.Records

variable {markers markers' : List String} {f f' : Function} (h : f.Records markers f')

include h

theorem mono (hstart : markers <+: markers') : f.Records markers' f' := by
  refine ⟨h.header, ?_, fun symbol hsymbol => hstart.mem (h.named symbol hsymbol)⟩
  rw [h.lines]
  cases hsymbol : f.symbol? with
  | none => rfl
  | some symbol =>
    rw [Option.map_some, Option.map_some, hstart.idxOf_eq_of_mem (h.named symbol hsymbol)]

theorem uncovered_eq : f'.uncovered = f.uncovered := by
  have hlines : f'.lines.filter (!·.isCover) = f.lines.filter (!·.isCover) := by
    rw [← Array.toList_inj, Array.toList_filter, Array.toList_filter, h.lines]
    cases f.symbol? <;> rfl
  rw [uncovered, uncovered, hlines, h.header]

theorem recordsEntry {globals : Array Global} (hpool : Pool Assembly.markerName markers globals)
    (hlines : ∀ line ∈ f.lines.toList, line.isCover = false) {symbol : String}
    (hsymbol : f'.symbol? = some symbol) : f'.RecordsEntry globals := by
  have hown : f.symbol? = some symbol := by rw [← hsymbol, symbol?, symbol?, h.header]
  have hcall := h.lines
  rw [hown] at hcall
  exact ⟨symbol, _, _, hsymbol, hcall, hlines, hpool.filter_idxOf (h.named symbol hown)⟩

end Function.Records

namespace Assembly

/-- A module without records and the same module with records. -/
structure Records (a b : Assembly) : Prop where
  off : a.coverage = false
  on : b.coverage = true
  temps : b.temps = a.temps
  labels : b.labels = a.labels
  types : b.types = a.types
  strings : b.strings = a.strings
  globals : b.globals.filter (!·.isMarker) = a.globals.filter (!·.isMarker)
  declarations : b.declarations.filter (·.symbol ≠ coverSymbol) =
    a.declarations.filter (·.symbol ≠ coverSymbol)
  functions : Forall₂ (Function.Records b.markers) a.functions.toList b.functions.toList
  draft : a.draft.Records b.markers b.draft
  pool : Pool markerName b.markers b.globals

theorem declares_eq {symbol : String} (h : symbol ≠ coverSymbol) (a : Assembly) :
    a.declares symbol =
      (a.declarations.filter (·.symbol ≠ coverSymbol)).any (·.symbol = symbol) := by
  rw [declares, Array.any_filter]
  congr 1
  funext d
  grind

/-- Recording an entry adds a marker and a declaration at most. -/
theorem filter_cover (a : Assembly) (name : String) :
    (a.cover name).declarations.filter (·.symbol ≠ coverSymbol) =
      a.declarations.filter (·.symbol ≠ coverSymbol) ∧
    (a.cover name).globals.filter (!·.isMarker) = a.globals.filter (!·.isMarker) := by
  have hdeclare : (a.declare coverSymbol .void [.ptr]).globals = a.globals ∧
      (a.declare coverSymbol .void [.ptr]).declarations.filter (·.symbol ≠ coverSymbol) =
        a.declarations.filter (·.symbol ≠ coverSymbol) := by
    rw [declare]
    split
    · exact ⟨rfl, rfl⟩
    · exact ⟨rfl, Array.filter_push_of_neg (by simp) (Array.size_push _)⟩
  rw [cover]
  split
  · rw [← hdeclare.1]
    simp only [markerGlobal]
    split
    · exact ⟨hdeclare.2, rfl⟩
    · exact ⟨hdeclare.2, Array.filter_push_of_neg (by simp [Global.isMarker, markerName])
        (Array.size_push _)⟩
  · exact ⟨rfl, rfl⟩

namespace Records

variable {a b : Assembly} (h : a.Records b)

include h

theorem uncovered_eq : b.uncovered = a.uncovered := by
  have hfunctions : b.functions.map Function.uncovered = a.functions.map Function.uncovered := by
    rw [← Array.toList_inj, Array.toList_map, Array.toList_map, ← forall₂_eq_eq_eq]
    exact forall₂_map_left_iff.2 (forall₂_map_right_iff.2
      (h.functions.flip.imp fun _ _ hf => hf.uncovered_eq))
  simp only [uncovered, h.temps, h.labels, h.types, h.strings, h.globals, h.declarations,
    hfunctions, h.draft.uncovered_eq]

theorem append (line : Line) : (a.append line).Records (b.append line) := by
  refine { h with draft := ⟨h.draft.header, ?_, h.draft.named⟩ }
  rw [Assembly.append, Assembly.append, Array.toList_push, Array.toList_push, h.draft.lines,
    append_assoc]
  rfl

theorem finish : a.finish.Records b.finish := by
  refine { h with functions := ?_, draft := ⟨rfl, rfl, fun _ hsymbol => by cases hsymbol⟩ }
  rw [Assembly.finish, Assembly.finish, Array.toList_push, Array.toList_push]
  exact rel_append h.functions (.cons h.draft .nil)

theorem defineType (name : String) (body : Ty) :
    (a.defineType name body).Records (b.defineType name body) := by
  rw [Assembly.defineType, Assembly.defineType, definesType, definesType, h.types]
  split
  · exact h
  · exact { h with types := rfl }

theorem declare (symbol : String) (ret : Ty) (params : List Ty) :
    (a.declare symbol ret params).Records (b.declare symbol ret params) := by
  by_cases hsymbol : symbol = coverSymbol
  · rw [Assembly.declare, Assembly.declare]
    have hdeclarations := h.declarations
    split <;> split <;> exact { h with declarations := by simpa [hsymbol] using hdeclarations }
  · rw [Assembly.declare, Assembly.declare, declares_eq hsymbol, declares_eq hsymbol,
      h.declarations]
    split
    · exact h
    · exact { h with declarations := by rw [Array.filter_push, Array.filter_push, h.declarations] }

theorem addGlobal {g : Global} (hg : ∀ i, g.defines (markerName i) = false) :
    (a.addGlobal g).Records (b.addGlobal g) := by
  refine { h with globals := ?_, pool := h.pool.add hg }
  rw [Assembly.addGlobal, Assembly.addGlobal, Array.filter_push, Array.filter_push, h.globals]

theorem stringGlobal (value : String) :
    (a.stringGlobal value).2.Records (b.stringGlobal value).2 := by
  rw [Assembly.stringGlobal, Assembly.stringGlobal, h.strings]
  split
  · exact h
  · exact { h.addGlobal (defines_markerName _ · value) with strings := rfl }

theorem begin (ret : Ty) (symbol : String) (params : List Typed) :
    ((a.begin (.define ret symbol params)).cover (entryName symbol)).Records
      ((b.begin (.define ret symbol params)).cover (entryName symbol)) := by
  have hfilter := (b.begin (.define ret symbol params)).filter_cover (entryName symbol)
  obtain ⟨declarations, globals, markers, heq, hextends, hmem⟩ :=
    cover_eq (a := b.begin (.define ret symbol params)) h.on (entryName symbol)
  have hoff : (a.begin (.define ret symbol params)).cover (entryName symbol) =
      a.begin (.define ret symbol params) := if_neg (Bool.not_eq_true _ ▸ h.off)
  rw [heq] at hfilter ⊢
  rw [hoff]
  exact { h with
    globals := hfilter.2.trans h.globals
    declarations := hfilter.1.trans h.declarations
    functions := h.functions.imp fun _ _ hf => hf.mono hextends.markers
    draft := ⟨rfl, rfl, fun _ hsymbol => Option.some.inj hsymbol ▸ hmem⟩
    pool := hextends.markerPool h.pool }

end Records

end Assembly

end IR

/-! ### Two runs -/

theorem Step.records_onAssembly {a b : IR.Assembly} (h : a.Records b) (step : Step) :
    (step.onAssembly a).Records (step.onAssembly b) := by
  cases step with
  | fresh => exact { h with temps := congrArg (· + 1) h.temps }
  | freshLabel => exact { h with labels := congrArg (· + 1) h.labels }
  | emit i => exact h.append (.instr i)
  | block l => exact h.append (.label l)
  | defineType name body => exact h.defineType name body
  | declare symbol ret params => exact h.declare symbol ret params
  | stringGlobal value => exact h.stringGlobal value
  | beginFunction ret symbol params => exact h.begin ret symbol params
  | finishFunction => exact h.finish
  | _ => exact h

/-- A state without records and the same state with records. -/
def Build.Records (s t : Build) : Prop :=
  ∃ assembly, t = { s with assembly } ∧ s.assembly.Records assembly

/-- A dispatch table is written under the name of one. -/
def Move.NamesTable : Move → Prop
  | writeTable name _ => "@vtable.".toList <+: name.toList
  | _ => True

theorem Move.NamesTable.matches_perform {move : Move} (hmove : move.NamesTable) {s t : Build}
    (h : s.Records t) (program : Program) (settings : Settings) :
    Matches Build.Records (move.perform ⟨program, { settings with coverage := false }⟩ s)
      (move.perform ⟨program, { settings with coverage := true }⟩ t) := by
  obtain ⟨assembly, rfl, h⟩ := h
  cases move with
  | step own =>
    exact own.matches_perform ⟨rfl, rfl, rfl, rfl, rfl, rfl, h.temps, h.labels, h.strings⟩
      fun _ => ⟨_, rfl, own.records_onAssembly h⟩
  | writeTable name entries =>
    refine .ok _ ⟨_, rfl, h.addGlobal fun i => decide_eq_false ?_⟩
    rintro rfl
    simp [IR.Assembly.markerName, NamesTable] at hmove
  | takeRound =>
    rw [Move.perform, Move.perform, Build.takeRound, Build.takeRound]
    obtain ⟨answer, worklist⟩ := s.worklist.nextRound
    cases answer with
    | error failure => exact .error _
    | ok round => exact .ok _ ⟨assembly, rfl, h⟩
  | _ => exact .ok _ ⟨assembly, rfl, h⟩

/-- A result without what records the entries of functions. -/
def Output.uncovered (o : Output) : Output := { o with assembly := o.assembly.uncovered }

namespace Compile

theorem only_namesTable : all.Only Move.NamesTable := by
  have hsteps {α : Type} (m : Gen α) : (ofGen m).Only Move.NamesTable :=
    only_steps (fun _ => trivial) m
  have hdrain (limit : Nat) : (drain limit).Only Move.NamesTable := by
    induction limit with
    | zero => trivial
    | succ limit ih =>
      refine ((only_perform trivial).bind fun _ => only_forM (fun request =>
        (hsteps _).bind fun _ => only_perform request.table_starts) _).bind fun _ =>
          (only_perform trivial).bind fun answer => ?_
      cases answer with
      | some batch =>
        exact (only_forM (fun item => (only_perform trivial).bind fun _ => hsteps _) batch).bind
          fun _ => ih
      | none => exact (only_perform trivial).bind fun pending => by split <;> trivial
  exact (hsteps _).bind fun _ => (hsteps _).bind fun _ => (only_perform trivial).bind fun _ =>
    (hdrain _).bind fun _ => (only_perform trivial).bind fun _ => only_forM (fun _ => hsteps _) _

/-- With and without records, a compilation ends in states that differ in nothing else. -/
theorem matches_coverage (program : Program) (settings : Settings) : Matches Build.Records
    (all.run (Move.perform ⟨program, { settings with coverage := false }⟩)
      (.initial { settings with coverage := false }))
    (all.run (Move.perform ⟨program, { settings with coverage := true }⟩)
      (.initial { settings with coverage := true })) :=
  matches_run (fun _ hmove _ _ h => hmove.matches_perform h program settings) only_namesTable
    ⟨_, rfl, rfl, rfl, rfl, rfl, rfl, rfl, rfl, rfl, .nil, ⟨rfl, rfl, fun _ h => by cases h⟩,
      fun _ => rfl⟩

/-- Recording the entries of functions adds calls, markers and a declaration to a module, and
nothing else; and if there are no such calls without it, there is one in each function with it. -/
theorem coverage_adds_markers (program : Program) (settings : Settings) :
    (compile program { settings with coverage := true }).map Output.uncovered =
      (compile program { settings with coverage := false }).map Output.uncovered ∧
    ∀ plain output, compile program { settings with coverage := false } = .ok plain →
      compile program { settings with coverage := true } = .ok output →
      (∀ f ∈ plain.assembly.functions.toList, ∀ line ∈ f.lines.toList, line.isCover = false) →
      ∀ f ∈ output.assembly.functions.toList, f.RecordsEntry output.assembly.globals := by
  have hmatches := matches_coverage program settings
  constructor
  · rw [compile, compile]
    generalize all.run (Move.perform ⟨program, { settings with coverage := false }⟩)
      (.initial { settings with coverage := false }) = x,
      all.run (Move.perform ⟨program, { settings with coverage := true }⟩)
        (.initial { settings with coverage := true }) = y at hmatches
    cases hmatches with
    | error => rfl
    | ok _ hrecords =>
      obtain ⟨assembly, rfl, hrecords⟩ := hrecords
      exact congrArg (fun assembly => Except.ok { Build.output _ with assembly })
        hrecords.uncovered_eq
  · intro plain output hplain houtput hlines f' hf'
    have hwrites := writes_of_compile_eq_ok houtput
    obtain ⟨⟨⟨⟩, s⟩, hrun, ⟨⟩⟩ := bind_eq_ok_iff.1 hplain
    obtain ⟨t, hrun', assembly, rfl, hrecords⟩ := hmatches.exists_ok hrun
    rw [compile, hrun'] at houtput
    cases houtput
    obtain ⟨i, hi, rfl⟩ := getElem_of_mem hf'
    have hlength := hrecords.functions.length_eq
    exact (hrecords.functions.get (hlength ▸ hi) hi).recordsEntry hrecords.pool
      (hlines _ (getElem_mem _)) (hwrites.get (hwrites.length_eq ▸ hi) hi).symbol

/-- A method and a constructor. -/
theorem coverage_adds_markers_inheritedSlot :
    ∃ output, compile inheritedSlot { coverage := true } = .ok output ∧
      output.assembly.functions.size = 2 ∧
      ∀ f ∈ output.assembly.functions.toList, f.RecordsEntry output.assembly.globals := by
  obtain ⟨plain, hplain, hlines⟩ := exists_of_compile
    (P := fun plain => ∀ f ∈ plain.assembly.functions.toList, ∀ line ∈ f.lines.toList,
      line.isCover = false) (by decide +kernel : (compile inheritedSlot {}).toOption.any _)
  exact exists_of_compile_and (fun output houtput _ =>
    (coverage_adds_markers inheritedSlot {}).2 plain output hplain houtput hlines)
    (by decide +kernel)

end Compile

end Monomorph
