import Monomorph.Proofs.Compile.Headers

/-!
# The functions of a module

A module consists of the code that was lowered for it: first that of the items of the module at hand
which need no instance, then that of the instances, in the order in which they were handed out. Each
piece of code becomes one function, with a symbol that does not depend on the state.
-/

namespace Monomorph

open List Script

variable {f : FunctionDef} {d : ClassDef} {b : Bindings}

/-! ### Pieces of code -/

/-- What becomes one function. -/
inductive Piece
  /-- A function or method under a binding. -/
  | function (f : FunctionDef) (symbol : String) (b : Bindings) (receiver : Option Receiver)
  /-- A constructor of a class instance under a binding. -/
  | constructor (d : ClassDef) (args : List Ty) (f : FunctionDef) (symbol : String) (b : Bindings)

namespace Piece

/-- The symbol of the function. -/
def symbol : Piece → String
  | function _ symbol _ _ | constructor _ _ _ symbol _ => symbol

/-- The script that writes the function. -/
def script : Piece → Gen Unit
  | function f symbol b receiver => Gen.lowerFunction f symbol b receiver
  | constructor d args f symbol b => Gen.lowerConstructor d args f symbol b

end Piece

/-- The symbol of a function, if its header gives one. -/
def IR.Function.symbol? (f : IR.Function) : Option String :=
  match f.header with
  | some (.define _ symbol _) => some symbol
  | _ => none

namespace Session

variable (session : Session)

/-- The piece of a function of the module at hand. -/
def functionPieces (f : FunctionDef) : List Piece :=
  if f.isReady && !f.isExtern && !(f.isClosureBody && !(session.program.closureParams f).isEmpty)
  then [.function f (session.symbol f.name) .empty none] else []

/-- The piece of a method of a type without parameters. -/
def methodPieces (typeName : String) (receiver : Receiver) (f : FunctionDef) : List Piece :=
  if f.isReady then
    [.function f (session.symbol (Symbol.ofMethod typeName [] f.name [])) .empty
      (if f.hasSelf then some receiver else none)]
  else []

/-- The pieces of an implementation of the module at hand. -/
def implPieces (d : ImplDef) : List Piece :=
  match d.typeName? with
  | none => []
  | some typeName =>
      if d.generics.isEmpty then
        d.methods.flatMap
          (session.methodPieces typeName ⟨d.selfTy, session.program.isReferenceClass typeName⟩)
      else []

/-- The piece of a constructor of a class without parameters. -/
def constructorPiece (d : ClassDef) (f : FunctionDef) : Piece :=
  .constructor d [] f (session.symbol (Ctor.symbolOf d.name (session.program.irs f.paramTypes)))
    .empty

/-- The pieces of a class of the module at hand. -/
def classPieces (d : ClassDef) : List Piece :=
  if d.generics.isEmpty then
    d.constructors.map (session.constructorPiece d) ++
      d.methods.flatMap (session.methodPieces d.name (.ofClass d []))
  else []

/-- The pieces of the items of the module at hand that need no instance. -/
def homePieces : List Piece :=
  session.program.home.functions.items.flatMap session.functionPieces ++
    (session.program.home.impls.flatMap session.implPieces ++
      session.program.home.classes.items.flatMap session.classPieces)

/-- The piece of an instance of a function. -/
def functionPiece (item : WorkItem) (f : FunctionDef) : Piece :=
  .function f (session.symbol item.symbol)
    (.ofArgs (if f.isClosureBody && !f.isGeneric then session.program.closureParams f
      else f.generics) item.args) none

/-- The piece of a method instance of a class, if the class has such a method. -/
def classMethodPiece? (d : ClassDef) (item : WorkItem) (key : MethodKey) : Option Piece :=
  let b := Bindings.ofArgs d.generics item.args
  match (if key.name = "new" then d.constructors.head? else none), d.method? key.name with
  | some f, _ =>
      some (.constructor d item.args f (session.symbol item.symbol)
        (b.extend (.ofArgs f.generics key.args)))
  | none, some f =>
      some (.function f (session.symbol item.symbol) (b.extend (.ofArgs f.generics key.args))
        (if f.hasSelf then some (.ofClass d item.args) else none))
  | none, none => none

/-- The piece of a method instance that a method of an implementation provides. -/
def implMethodPiece (item : WorkItem) (key : MethodKey) (impl : ImplDef) (f : FunctionDef) :
    Piece :=
  let owner := Ty.ofName item.base item.args
  .function f (session.symbol item.symbol)
    ((Ty.matchInto impl.generics impl.selfTy owner .empty).extend (.ofArgs f.generics key.args))
    (if f.hasSelf then some ⟨owner, session.program.isReferenceClass item.base⟩ else none)

/-- The piece of a method instance, if its definition is found. -/
def methodPiece? (item : WorkItem) (key : MethodKey) : Option Piece :=
  match session.program.class? item.base with
  | some d => session.classMethodPiece? d item key
  | none => (session.program.implMethod? item.base key.name).map fun found =>
      session.implMethodPiece item key found.2.1 found.2.2

/-- The piece of an instance, if it is code whose definition is found. -/
def piece? (item : WorkItem) : Option Piece :=
  match item.kind with
  | .func => (session.program.function? item.base).map (session.functionPiece item)
  | .method => item.method.bind (session.methodPiece? item)
  | .struct | .enum | .cls => none

/-- The pieces of a module with given instances. -/
def pieces (instances : List WorkItem) : List Piece :=
  session.homePieces ++ instances.filterMap session.piece?

variable {session}

/-- The constructors of a class without parameters are among the pieces. -/
theorem constructorPiece_mem_pieces (hd : d ∈ session.program.home.classes.items)
    (hgenerics : d.generics.isEmpty = true) (hf : f ∈ d.constructors) {instances : List WorkItem} :
    session.constructorPiece d f ∈ session.pieces instances := by
  refine mem_append_left _ (mem_append_right _ (mem_append_right _ (mem_flatMap.2 ⟨d, hd, ?_⟩)))
  rw [classPieces, hgenerics]
  exact mem_append_left _ (mem_map_of_mem hf)

/-! ### The symbols of pieces -/

variable {item : WorkItem} {piece : Piece}

theorem symbol_of_methodPiece? {key : MethodKey} (h : session.methodPiece? item key = some piece) :
    piece.symbol = session.symbol item.symbol := by
  rw [methodPiece?] at h
  split at h
  · rw [classMethodPiece?] at h
    split at h <;> cases h <;> rfl
  · obtain ⟨found, -, rfl⟩ := Option.map_eq_some_iff.1 h
    rfl

/-- The function of an instance has the symbol of the instance. -/
theorem symbol_of_piece? (h : session.piece? item = some piece) :
    piece.symbol = session.symbol item.symbol := by
  rw [piece?] at h
  split at h
  · obtain ⟨f, -, rfl⟩ := Option.map_eq_some_iff.1 h
    rfl
  · obtain ⟨key, -, h⟩ := Option.bind_eq_some_iff.1 h
    exact symbol_of_methodPiece? h
  all_goals cases h

theorem isSome_methodPiece? (key : MethodKey) :
    (session.methodPiece? item key).isSome = session.program.findsMethod item.base key.name := by
  rw [methodPiece?, Program.findsMethod]
  cases session.program.class? item.base with
  | none => exact Option.isSome_map
  | some d =>
    by_cases hnew : key.name = "new" <;> cases hconstructors : d.constructors <;>
      cases hmethod : d.method? key.name <;>
      simp_all [classMethodPiece?]

/-- The instances that become functions are those of code whose definition is found. -/
theorem isSome_piece? :
    (session.piece? item).isSome = (item.kind.isCode && session.program.finds item) := by
  rw [piece?, Program.finds]
  cases item.kind with
  | func => exact Option.isSome_map
  | method =>
    cases item.method with
    | none => rfl
    | some key => exact isSome_methodPiece? key
  | struct | enum | cls => rfl

end Session

/-! ### What steps do to functions -/

variable {session : Session} {α β : Type} {s s' : Build} {events : Gen.Trace}
  {m : Gen α} {a : α} {Q : Build → α → Prop} {pieces : List Piece} {symbol name : String}
  {key : MethodKey}

/-- Steps that set no bound leave the functions alone, and the header of the draft too. -/
theorem Step.functions_of_perform {step : Step} {answer : step.Answer} (hbound : step.bound? = none)
    (h : step.perform session s = .ok (answer, s')) :
    s'.assembly.functions = s.assembly.functions ∧
      s'.assembly.draft.header = s.assembly.draft.header := by
  obtain ⟨memo, rfl⟩ := eq_of_perform h
  cases hdrafting : step.isDrafting with
  | false =>
    obtain ⟨_, _, _, _, heq⟩ := onAssembly_eq hdrafting s.assembly
    have hassembly : (step.after session s memo).assembly = _ := heq
    constructor <;> rw [hassembly]
  | true =>
    cases step with
    | beginFunction | finishFunction => cases hbound
    | fresh | freshLabel | emit | block => exact ⟨rfl, rfl⟩
    | _ => cases hdrafting

/-- Code that sets no bound leaves the functions alone, and code that only finishes a function adds
it with the header that it had. -/
theorem functions_of_runs (h : session.Runs m s events a s') :
    (bounds events = [] → s'.assembly.functions = s.assembly.functions ∧
      s'.assembly.draft.header = s.assembly.draft.header) ∧
    (bounds events = [.finish] → ∃ code : IR.Function, code.header = s.assembly.draft.header ∧
      s'.assembly.functions = s.assembly.functions.push code) := by
  refine h.invariant (P := fun history t =>
    (bounds history = [] → t.assembly.functions = s.assembly.functions ∧
      t.assembly.draft.header = s.assembly.draft.header) ∧
    (bounds history = [.finish] → ∃ code : IR.Function, code.header = s.assembly.draft.header ∧
      t.assembly.functions = s.assembly.functions.push code)) ?_ m.only_true []
    ⟨fun _ => ⟨rfl, rfl⟩, by rintro ⟨⟩⟩
  -- A step without a bound changes nothing. A step with one has to be the only one, which finishes.
  intro history t step answer t' _ ht hperform
  rw [bounds_append]
  cases hbound : step.bound? with
  | none =>
    obtain ⟨hfunctions, hheader⟩ := Step.functions_of_perform hbound hperform
    rw [show bounds [⟨step, answer⟩] = [] from filterMap_cons_none hbound, append_nil,
      hfunctions, hheader]
    exact ht
  | some bound =>
    rw [show bounds [⟨step, answer⟩] = [bound] from filterMap_cons_some hbound]
    refine ⟨fun hnil => (append_ne_nil_of_right_ne_nil _ (cons_ne_nil _ _) hnil).elim,
      fun hone => ?_⟩
    obtain ⟨hhistory, hfinish⟩ := append_inj' (hone.trans (nil_append _).symm) rfl
    obtain ⟨hfunctions, hheader⟩ := ht.1 hhistory
    cases step with
    | finishFunction =>
      cases hperform
      exact ⟨t.assembly.draft, hheader, congrArg (·.push t.assembly.draft) hfunctions⟩
    | beginFunction =>
      cases hbound
      cases hfinish
    | _ => cases hbound

/-- Code that keeps any discipline inside a function leaves the functions alone. -/
theorem functions_of_inside (hm : (Naming.free session).Ensures .inside s m Q)
    (h : session.Runs m s events a s') :
    s'.assembly.functions = s.assembly.functions :=
  ((functions_of_runs h).1 (hm.ends (Naming.inv_free session .inside s) _ _ _ h
    (Naming.takes_none session events)).2.2.1.sets).1

/-! ### What passages write -/

namespace Compile

variable {program : Program} {settings : Settings} {output : Output}
  {during : Gen.Trace}

/-- A function of a result is what lowering a piece wrote, in the course of the compilation. -/
structure Writes (program : Program) (settings : Settings) (output : Output) (piece : Piece)
    (written : IR.Function) : Prop where
  symbol : written.symbol? = some piece.symbol
  /-- The piece was lowered, and that added the function. -/
  lowered : ∃ s during s', Performs program settings output piece.script s during () s' ∧
    s'.assembly.functions = s.assembly.functions.push written

/-- The functions of a state are those of an earlier one, followed by what lowering pieces wrote. -/
def Extends (program : Program) (settings : Settings) (output : Output) (s s' : Build)
    (pieces : List Piece) : Prop :=
  ∃ added, s'.assembly.functions.toList = s.assembly.functions.toList ++ added ∧
    List.Forall₂ (Writes program settings output) pieces added

theorem extends_nil (h : s'.assembly.functions = s.assembly.functions) :
    Extends program settings output s s' [] :=
  ⟨[], by rw [h, append_nil], .nil⟩

theorem Extends.append {mid : Build} {later : List Piece}
    (h : Extends program settings output s mid pieces)
    (h' : Extends program settings output mid s' later) :
    Extends program settings output s s' (pieces ++ later) := by
  obtain ⟨added, hadded, hpieces⟩ := h
  obtain ⟨more, hmore, hlater⟩ := h'
  exact ⟨added ++ more, by rw [hmore, hadded, append_assoc], rel_append hpieces hlater⟩

/-- Wherever the script is performed, functions are added that lowering the pieces wrote. -/
def Yields (program : Program) (settings : Settings) (output : Output) (m : Gen α)
    (pieces : List Piece) : Prop :=
  ∀ s during a s', Performs program settings output m s during a s' →
    Extends program settings output s s' pieces

theorem Performs.extends (h : Performs program settings output m s during a s')
    (hm : Yields program settings output m pieces) : Extends program settings output s s' pieces :=
  hm s during a s' h

theorem yields_pure (a : α) : Yields program settings output (pure a) [] := by
  intro s during b s' h
  exact extends_nil (by rw [(h.runs.of_pure).2.2])

theorem Yields.bind {f : α → Gen β} {later : List Piece}
    (hm : Yields program settings output m pieces)
    (hf : ∀ a, Yields program settings output (f a) later) :
    Yields program settings output (m >>= f) (pieces ++ later) := by
  intro s during b s' h
  obtain ⟨first, a, mid, rest, hfirst, hrest, -⟩ := h.bind
  exact (hfirst.extends hm).append (hrest.extends (hf a))

theorem Yields.bind_pure {b : β} (hm : Yields program settings output m pieces) :
    Yields program settings output (m >>= fun _ => pure b) pieces := by
  have hbind := hm.bind fun _ => yields_pure b
  rwa [append_nil] at hbind

/-- A script that may be left out. -/
theorem Yields.ite {c : Prop} [Decidable c] {m : Gen Unit}
    (hm : Yields program settings output m pieces) :
    Yields program settings output (if c then m else pure ()) (if c then pieces else []) := by
  split
  · exact hm
  · exact yields_pure ()

theorem Yields.program_bind {f : Program → Gen α}
    (hf : Yields program settings output (f program) pieces) :
    Yields program settings output (Gen.program >>= f) pieces := by
  intro s during a s' h
  obtain ⟨rest, h⟩ := h.program_bind
  exact h.extends hf

/-- A script that goes on with the symbol of a name. -/
theorem Performs.functionSymbol_bind {f : String → Gen α}
    (h : Performs program settings output (Gen.functionSymbol name >>= f) s during a s') :
    ∃ rest, Performs program settings output (f ((⟨program, settings⟩ : Session).symbol name)) s
      rest a s' := by
  obtain ⟨naming, symbol, mid, rest, hname, hrest, -⟩ := h.bind
  obtain ⟨rfl, rfl, -⟩ := Gen.runs_functionSymbol hname.runs
  exact ⟨rest, hrest⟩

theorem Yields.functionSymbol {f : String → Gen α}
    (hf : Yields program settings output (f ((⟨program, settings⟩ : Session).symbol name)) pieces) :
    Yields program settings output (Gen.functionSymbol name >>= f) pieces := by
  intro s during a s' h
  obtain ⟨rest, h⟩ := h.functionSymbol_bind
  exact h.extends hf

/-- A script for the members of a list writes what it writes for each of them. -/
theorem Yields.forM {f : α → Gen PUnit} {l : List α} {pieces : α → List Piece}
    (hf : ∀ a ∈ l, Yields program settings output (f a) (pieces a)) :
    Yields program settings output (l.forM f) (l.flatMap pieces) := by
  induction l with
  | nil => exact yields_pure ()
  | cons a l ih =>
    obtain ⟨ha, hl⟩ := forall_mem_cons.1 hf
    exact ha.bind fun _ => ih hl

/-- Code that keeps any discipline inside a function writes no function. -/
theorem yields_inside (hm : ∀ s, (Naming.free ⟨program, settings⟩).Ensures .inside s m Q) :
    Yields program settings output m [] := by
  intro s during a s' h
  exact extends_nil (functions_of_inside (hm s) h.runs)

/-- A report writes no function. -/
theorem yields_report (d : Diagnostic) : Yields program settings output (Gen.report d) [] := by
  intro s during a s' h
  obtain ⟨-, hevents⟩ := h.runs.of_ask
  exact extends_nil ((functions_of_runs h.runs).1 (by rw [hevents]; rfl)).1

/-- Code that represents types, begins a function and finishes it adds one function. -/
theorem yields_code (piece : Piece) {slots : Gen (List ParamSlot)} {result : Gen IR.Ty}
    {header : List ParamSlot → List IR.Typed} {body : List ParamSlot → IR.Ty → Gen Unit}
    (hscript : piece.script = slots >>= fun params => result >>= fun ret =>
      Gen.beginFunction ret piece.symbol (header params) >>= fun _ => body params ret)
    (hslots : ∀ t, (Naming.free ⟨program, settings⟩).Sound .inside t slots)
    (hresult : ∀ t, (Naming.free ⟨program, settings⟩).Sound .inside t result)
    (hbody : ∀ params ret t, (Naming.free ⟨program, settings⟩).Ok t params →
      (Naming.free ⟨program, settings⟩).Completes t (body params ret)) :
    Yields program settings output piece.script [piece] := by
  intro s during a s' h
  have hruns := h.runs
  rw [hscript] at hruns
  obtain ⟨representing, params, s₁, rest₁, hrepresent, h₁, rfl⟩ := hruns.of_bind
  obtain ⟨returning, ret, s₂, rest₂, hret, h₂, rfl⟩ := h₁.of_bind
  obtain ⟨rest₃, hrest, rfl⟩ := h₂.of_ask_bind rfl
  have hbounds := (hbody params ret _ (fun slot _ => ⟨Ty.over_full slot.ty,
    fun _ _ => trivial⟩) (Naming.inv_free _ .inside _) _ _ _ hrest
    (Naming.takes_none _ rest₃)).2.1
  obtain ⟨hfunctions, -, -, -, lines, hdraft, -⟩ :=
    s₂.beginFunction_code ret piece.symbol (header params)
  obtain ⟨written, hheader, hwritten⟩ := (functions_of_runs hrest).2 hbounds
  rw [hdraft] at hheader
  rw [hfunctions, functions_of_inside (hresult s₁) hret, functions_of_inside (hslots s) hrepresent]
    at hwritten
  have hsymbol : written.symbol? = some piece.symbol := by rw [IR.Function.symbol?, hheader]
  exact ⟨[written], by rw [hwritten, Array.toList_push],
    .cons ⟨hsymbol, s, _, s', h, hwritten⟩ .nil⟩

/-- The code of a function is one function. -/
theorem yields_lowerFunction (receiver : Option Receiver) :
    Yields program settings output (Gen.lowerFunction f symbol b receiver)
      [.function f symbol b receiver] := by
  have hty : ∀ t : Ty, t.Over (Naming.free ⟨program, settings⟩).Name := Ty.over_full
  exact yields_code (.function f symbol b receiver) rfl
    (fun _ => Discipline.sound_paramSlots (fun _ _ => hty _) fun _ _ => hty _)
    (fun _ => Representing.sound_returnType (hty _)) fun _ _ _ hparams =>
      Discipline.completes_functionBody (FunctionDef.over_of_isFull .full f)
        (Discipline.IsFull.allows f b) (fun _ _ => hty _) (fun _ _ => hty _) hparams

/-- The code of a constructor is one function. -/
theorem yields_lowerConstructor {m : Module} (hm : m ∈ program.modules)
    (hmem : d ∈ m.classes.items) (args : List Ty) :
    Yields program settings output (Gen.lowerConstructor d args f symbol b)
      [.constructor d args f symbol b] := by
  have hty : ∀ t : Ty, t.Over (Naming.free ⟨program, settings⟩).Name := Ty.over_full
  have hclass : program.NamesClass d.name := .own hm hmem
  have hd := ((Naming.free ⟨program, settings⟩).program m hm).classes d hmem
  exact yields_code (.constructor d args f symbol b) rfl
    (fun _ => Discipline.sound_paramSlots (fun _ _ => hty _) fun _ _ => hty _)
    (fun _ => Discipline.sound_instanceType hclass hd fun _ _ => hty _) fun _ _ _ hparams =>
      Discipline.completes_constructorBody (FunctionDef.over_of_isFull .full f)
        (Discipline.IsFull.allows f b) (fun _ _ => hty _) hclass hd (fun _ _ => hty _) hparams

/-! ### The module at hand -/

theorem yields_homeFunction : Yields program settings output (Gen.homeFunction f)
      (Session.functionPieces ⟨program, settings⟩ f) :=
  .program_bind (.ite (.functionSymbol (yields_lowerFunction none)))

theorem yields_homeMethod (typeName : String) (receiver : Receiver) :
    Yields program settings output (Gen.homeMethod typeName receiver f)
      (Session.methodPieces ⟨program, settings⟩ typeName receiver f) :=
  .ite (.functionSymbol (yields_lowerFunction _))

theorem yields_homeImpl (d : ImplDef) : Yields program settings output (Gen.homeImpl d)
      (Session.implPieces ⟨program, settings⟩ d) := by
  rw [Gen.homeImpl, Session.implPieces]
  cases d.typeName? with
  | none => exact yields_pure ()
  | some typeName => exact .ite (.program_bind (.forM fun f _ => yields_homeMethod typeName _))

theorem yields_homeClass (hd : d ∈ program.home.classes.items) :
    Yields program settings output (Gen.homeClass d)
      (Session.classPieces ⟨program, settings⟩ d) := by
  refine .ite (.bind ?_ fun _ => .forM fun f _ => yields_homeMethod d.name _)
  rw [map_eq_flatMap]
  refine .forM fun f _ => ?_
  intro t own a t' hown
  obtain ⟨representing, irs, t₁, rest, hirs, hown, -⟩ := hown.bind
  obtain ⟨rfl, -⟩ := (Gen.gives_irs _ _).of_runs hirs.runs
  have hown := hown.extends (.functionSymbol (yields_lowerConstructor mem_cons_self hd []))
  exact (hirs.extends (yields_inside fun _ => Representing.ensures_irTypes fun t _ =>
    Ty.over_full t)).append hown

/-- The functions of the items of the module at hand. -/
theorem yields_homeItems : Yields program settings output Gen.homeItems
      (Session.homePieces ⟨program, settings⟩) :=
  .program_bind ((Yields.forM fun _ _ => yields_homeFunction).bind fun _ =>
    (Yields.forM fun d _ => yields_homeImpl d).bind fun _ =>
      .forM fun _ hd => yields_homeClass hd)

/-! ### Instances -/

variable {item : WorkItem}

theorem yields_generateClassMethod (hd : program.class? name = some d) :
    Yields program settings output (Gen.generateClassMethod d item key)
      (Session.classMethodPiece? ⟨program, settings⟩ d item key).toList := by
  obtain ⟨m, hm, hmem⟩ := Program.mem_of_lookup hd
  refine .functionSymbol ?_
  rw [Session.classMethodPiece?]
  dsimp only
  cases (if key.name = "new" then d.constructors.head? else none) with
  | some f => exact (yields_lowerConstructor hm hmem item.args).bind_pure
  | none =>
    cases d.method? key.name with
    | some f => exact (yields_lowerFunction _).bind_pure
    | none => exact yields_pure _

theorem yields_generateImplMethod : Yields program settings output (Gen.generateImplMethod item key)
      ((program.implMethod? item.base key.name).map fun found =>
        Session.implMethodPiece ⟨program, settings⟩ item key found.2.1 found.2.2).toList := by
  refine .program_bind ?_
  split
  next heq =>
    rw [heq]
    exact yields_pure _
  next origin impl f heq =>
    rw [heq]
    exact .functionSymbol (yields_lowerFunction _).bind_pure

theorem yields_generateMethod : Yields program settings output (Gen.generateMethod item)
      (item.method.bind (Session.methodPiece? ⟨program, settings⟩ item)).toList := by
  rw [Gen.generateMethod]
  cases item.method with
  | none => exact yields_pure _
  | some key =>
    refine .program_bind ?_
    rw [Option.bind_some, Session.methodPiece?]
    dsimp only
    cases hclass : program.class? item.base with
    | some d => exact yields_generateClassMethod hclass
    | none => exact yields_generateImplMethod

/-- Generating from a definition writes what the definition gives. -/
theorem yields_generateFrom {definition : Option α} {f : α → List Ty → String → Gen Unit}
    (hnone : definition = none → pieces = []) (hf : ∀ d, definition = some d →
      Yields program settings output (f d item.args item.symbol) pieces) :
    Yields program settings output (Gen.generateFrom definition f item) pieces := by
  cases definition with
  | none =>
    rw [hnone rfl]
    exact yields_pure _
  | some d => exact (hf d rfl).bind_pure

theorem yields_generateFound : Yields program settings output (Gen.generateFound item)
      (Session.piece? ⟨program, settings⟩ item).toList := by
  have hitem : ∀ t, (Naming.free ⟨program, settings⟩).Ok t item := fun t =>
    ⟨trivial, fun t _ => Ty.over_full t, fun args _ t _ => Ty.over_full t⟩
  refine .program_bind ?_
  rw [Session.piece?]
  cases hkind : item.kind with
  | struct =>
    exact yields_generateFrom (fun _ => rfl) fun d hd =>
      yields_inside fun t => Discipline.sound_defineStruct (hitem t) hkind hd
  | enum =>
    exact yields_generateFrom (fun _ => rfl) fun d hd =>
      yields_inside fun t => Discipline.sound_defineEnum (hitem t) hkind hd
  | cls =>
    exact yields_generateFrom (fun _ => rfl) fun d hd =>
      yields_inside fun t => Discipline.sound_defineClass (hitem t) hkind hd
  | func =>
    refine yields_generateFrom (fun hf => ?_) fun f hf => ?_
    · dsimp only
      rw [hf]
      rfl
    · dsimp only
      rw [hf]
      exact .program_bind (.functionSymbol (yields_lowerFunction none))
  | method => exact yields_generateMethod

/-- The function of an instance. -/
theorem yields_generate : Yields program settings output (Gen.generate item)
      (Session.piece? ⟨program, settings⟩ item).toList := by
  rw [← append_nil (Option.toList _)]
  refine yields_generateFound.bind fun found => ?_
  split
  · exact yields_report _
  · exact yields_pure ()

/-! ### Whole compilations -/

variable {events : List Event} {l : List α}

/-- A move between two pieces of code writes no function. -/
theorem Passes.extends_perform {move : Move} {answer : move.Answer}
    (h : Passes program settings output (perform move) s events answer s')
    (hmove : move.IsBetween) :
    Extends program settings output s s' [] :=
  extends_nil (hmove.sameCode (h.runs.of_ask).1).functions

/-- A script for the members of a list writes what it writes for each of them. -/
theorem Passes.extends_forM {f : α → Compile PUnit} {pieces : α → List Piece}
    (h : Passes program settings output (l.forM f) s events () s')
    (hf : ∀ a ∈ l, ∀ t own t', Passes program settings output (f a) t own () t' →
      Extends program settings output t t' (pieces a)) :
    Extends program settings output s s' (l.flatMap pieces) := by
  induction l generalizing s events with
  | nil =>
    obtain ⟨-, -, rfl⟩ := h.runs.of_pure
    exact extends_nil rfl
  | cons a l ih =>
    obtain ⟨first, _, mid, rest, hfirst, hrest, -⟩ := h.bind
    obtain ⟨ha, hl⟩ := forall_mem_cons.1 hf
    exact (ha s first mid hfirst).append (ih hrest hl)

theorem Passes.extends_each {f : α → Compile PUnit}
    (h : Passes program settings output (l.forM f) s events () s')
    (hf : ∀ a ∈ l, ∀ t own t', Passes program settings output (f a) t own () t' →
      Extends program settings output t t' []) :
    Extends program settings output s s' [] := by
  have hall := h.extends_forM hf
  rwa [flatMap_eq_nil_iff.2 fun _ _ => rfl] at hall

/-- Dispatch tables are no functions. -/
theorem Passes.extends_writeTables (h : Passes program settings output writeTables s events () s') :
    Extends program settings output s s' [] := by
  obtain ⟨_, requests, mid, _, htake, hwrite, -⟩ := h.bind
  refine (htake.extends_perform trivial).append ?_
  refine hwrite.extends_each fun request _ t own t' hown => ?_
  obtain ⟨_, entries, t₁, _, hentries, hwrite, -⟩ := hown.bind
  obtain ⟨own, hentries, -⟩ := hentries.ofGen
  have hrequest : (Naming.free ⟨program, settings⟩).Ok t request := by
    cases request with
    | behavior | cls => exact fun t _ => Ty.over_full t
  have hsame := functions_of_inside (Discipline.ensures_tableEntries hrequest trivial) hentries.runs
  exact (extends_nil hsame).append (hwrite.extends_perform trivial)

/-- The functions of a round. -/
theorem Passes.extends_batch {batch : List WorkItem}
    (h : Passes program settings output (batch.forM Compile.generate) s events () s') :
    Extends program settings output s s'
      (batch.filterMap (Session.piece? ⟨program, settings⟩)) := by
  rw [filterMap_eq_flatMap_toList]
  refine h.extends_forM fun item _ t own t' hown => ?_
  obtain ⟨_, _, t₁, _, hturn, hgenerate, -⟩ := hown.bind
  obtain ⟨own, hgenerate, -⟩ := hgenerate.ofGen
  exact (hturn.extends_perform trivial).append (hgenerate.extends yields_generate)

/-- The functions of all rounds are those of the instances to which they turn. -/
theorem Passes.extends_drain {limit : Nat}
    (h : Passes program settings output (drain limit) s events () s') :
    Extends program settings output s s'
      ((events.flatMap generated).filterMap (Session.piece? ⟨program, settings⟩)) := by
  induction limit generalizing s events with
  | zero =>
    obtain ⟨rfl, -, rfl⟩ := h.runs.of_pure
    exact extends_nil rfl
  | succ limit ih =>
    obtain ⟨writing, _, s₁, rounds, hwrite, hrounds, rfl⟩ := h.bind
    obtain ⟨taking, answer, s₂, rest, htake, hrest, rfl⟩ := hrounds.bind
    have hbefore := hwrite.extends_writeTables.append (htake.extends_perform trivial)
    obtain ⟨-, rfl⟩ := htake.runs.of_ask
    obtain ⟨⟨taken, hadds⟩, -⟩ := runs_writeTables hwrite.runs
    -- Tables add no functions, so that the instances of the batch make up the round.
    rw [flatMap_append, hadds.generated]
    cases answer with
    | none =>
      obtain ⟨asking, pending, s₃, later, hask, hlater, rfl⟩ := hrest.bind
      have hbefore := hbefore.append (hask.extends_perform trivial)
      obtain ⟨-, rfl⟩ := hask.runs.of_ask
      cases pending with
      | true =>
        have hall := hbefore.append (ih hlater)
        exact hall
      | false =>
        obtain ⟨rfl, -, rfl⟩ := hlater.runs.of_pure
        exact hbefore
    | some batch =>
      obtain ⟨generating, _, s₃, later, hbatch, hlater, rfl⟩ := hrest.bind
      have hall := (hbefore.append hbatch.extends_batch).append (ih hlater)
      rw [nil_append, nil_append, ← filterMap_append,
        ← (runs_forM_generate hbatch.runs).generated, ← flatMap_append] at hall
      exact hall

section

variable (h : compile program settings = .ok output)

include h

/-- The functions of a module are, one by one, what lowering the items of the module at hand that
need no instance wrote, followed by what lowering the instances wrote. -/
theorem writes_of_compile_eq_ok : List.Forall₂ (Writes program settings output)
      (Session.pieces ⟨program, settings⟩ output.instances) output.assembly.functions.toList := by
  obtain ⟨s₁, s₂, s₃, last, _, _, draining, _, _, hregister, hhome, hdrain, hinstances, hreport,
    rfl⟩ := phases_of_compile_eq_ok h
  have hafter : Extends program settings last.output s₃ last [] := by
    refine hreport.extends_each fun item _ t own t' hown => ?_
    obtain ⟨own, hown, -⟩ := hown.ofGen
    exact hown.extends (yields_report _)
  have hbefore := hregister.extends (yields_inside fun _ => Discipline.sound_registerCtors)
  obtain ⟨added, hadded, hpieces⟩ := (hbefore.append (hhome.extends yields_homeItems)).append
    (hdrain.extends_drain.append hafter)
  rw [hinstances, nil_append, append_nil] at hpieces
  rw [show last.output.assembly.functions.toList = added from hadded]
  exact hpieces

/-- Every piece of a module is written. -/
theorem exists_writes_of_mem_pieces {piece : Piece}
    (hpiece : piece ∈ Session.pieces ⟨program, settings⟩ output.instances) :
    ∃ written ∈ output.assembly.functions.toList, Writes program settings output piece written := by
  obtain ⟨i, hi, rfl⟩ := getElem_of_mem hpiece
  have hwrites := writes_of_compile_eq_ok h
  exact ⟨_, getElem_mem (hwrites.length_eq ▸ hi), hwrites.get hi (hwrites.length_eq ▸ hi)⟩

/-- The functions with a given symbol are what lowering the pieces with that symbol wrote. -/
theorem writes_of_symbol (symbol : String) : List.Forall₂ (Writes program settings output)
      ((Session.pieces ⟨program, settings⟩ output.instances).filter
        fun piece => piece.symbol = symbol)
      (output.assembly.functions.toList.filter fun written => written.symbol? = some symbol) := by
  refine rel_filter (fun piece written hwritten => ?_) (writes_of_compile_eq_ok h)
  simp only [decide_eq_true_iff, hwritten.symbol, Option.some.injEq]

end

end Compile

end Monomorph
