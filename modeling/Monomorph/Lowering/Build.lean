import Monomorph.Dispatch.Requests
import Monomorph.Diagnostic.Queue
import Monomorph.IR.Assembly
import Monomorph.Layout.Query
import Monomorph.Lowering.Value
import Monomorph.Script
import Monomorph.Settings
import Monomorph.Source.Open
import Monomorph.Ty.Matching

/-!
# The state of a compilation

A compilation reads the program and the settings, and builds up the assembly, the worklist of
instances, the requests for dispatch tables and the diagnostics. The scope belongs to the function
that is being drafted. Code is generated by scripts, whose steps read or change a single part of
what is being built.
-/

namespace Monomorph

/-- What a compilation reads. -/
structure Session where
  program : Program
  settings : Settings
  deriving Inhabited

/-- A constructor that calls can refer to. -/
structure Ctor where
  /-- The symbol of its code. -/
  symbol : String
  /-- The type of the instance that it returns. -/
  ret : IR.Ty
  deriving DecidableEq, Inhabited

/-- What a compilation builds up. -/
structure Build where
  /-- The module text so far. -/
  assembly : IR.Assembly
  /-- The instances requested so far. -/
  worklist : Worklist
  /-- The layouts found so far. -/
  memo : Layout.Memo := {}
  /-- The dispatch tables requested so far. -/
  tables : Dispatch.Requests := {}
  /-- The diagnostics so far. -/
  diagnostics : DiagnosticQueue
  /-- Constructors by overload key. -/
  ctors : List (String × Ctor) := []
  /-- The local names of the function being drafted. -/
  scope : Scope := {}
  deriving DecidableEq, Inhabited

/-- The state in which a compilation starts. -/
def Build.initial (settings : Settings) : Build where
  assembly := { coverage := settings.coverage }
  worklist := { maxRounds := settings.maxRounds }
  diagnostics := { errorLimit := settings.errorLimit }

/-! ### Steps -/

/-- An elementary step of code generation. -/
inductive Step
  /-- Read the program. -/
  | program
  /-- Read how the symbols of functions start. -/
  | symbolStart
  /-- Read how deep expressions may nest. -/
  | depth
  /-- Read the local names. -/
  | scope
  /-- Read the constructors. -/
  | ctors
  /-- Give a local name a meaning. -/
  | bindLocal (name : String) (l : Local)
  /-- Record that a value of some convention was stored in a local. -/
  | storeConv (name : String) (conv : CallConv)
  /-- Register a constructor, unless its key is taken. -/
  | registerCtor (key : String) (ctor : Ctor)
  /-- A temporary that was not used before. -/
  | fresh
  /-- A label number that was not used before. -/
  | freshLabel
  /-- Append an instruction to the function being drafted. -/
  | emit (i : IR.Instr)
  /-- Start a block in the function being drafted. -/
  | block (l : IR.Label)
  /-- Define a type, unless its name is defined already. -/
  | defineType (name : String) (body : IR.Ty)
  /-- Declare a function, unless its symbol is declared already. -/
  | declare (symbol : String) (ret : IR.Ty) (params : List IR.Ty)
  /-- The global that holds a string. -/
  | stringGlobal (value : String)
  /-- Begin a function with no local names. -/
  | beginFunction (ret : IR.Ty) (symbol : String) (params : List IR.Typed)
  | finishFunction
  | report (d : Diagnostic)
  /-- Report the type parameters of an item that only a default could bind. -/
  | reportDefaulted (item : String) (resolution : Resolution) (span : Span)
  | require (item : WorkItem)
  /-- Put aside an instance with open arguments. -/
  | defer (item : WorkItem)
  | requireTable (request : Dispatch.Request)
  | extent (t : Ty)
  /-- The extent of the block of a class instance. -/
  | classExtent (d : ClassDef) (args : List Ty)
  /-- The words for the values of an enum instance. -/
  | payloadWords (d : EnumDef) (args : List Ty)

/-- What a step answers. -/
@[reducible] def Step.Answer : Step → Type
  | program => Program
  | symbolStart | stringGlobal _ | require _ | defer _ | requireTable _ => String
  | depth | fresh | freshLabel => Nat
  | scope => Scope
  | ctors => List (String × Ctor)
  | extent _ | classExtent .. => Extent
  | payloadWords .. => UInt64
  | bindLocal .. | storeConv .. | registerCtor .. | emit _ | block _ | defineType .. | declare ..
  | beginFunction .. | finishFunction | report _ | reportDefaulted .. => Unit

/-- The diagnostic about type parameters that only a default could bind. -/
def Resolution.diagnostic (resolution : Resolution) (item : String) (span : Span)
    (strict : Bool) : Diagnostic where
  code := if strict then .uninferred else .defaulted
  severity := if strict then .error else .warning
  message := "cannot infer type parameter(s) " ++
    String.intercalate ", " resolution.defaulted ++ " of `" ++ item ++ "`; using a default type"
  labels := [⟨span, "type arguments needed here", true⟩]

namespace Build

/-- Register a constructor, unless its key is taken. -/
def registerCtor (s : Build) (key : String) (ctor : Ctor) : Build :=
  if (s.ctors.lookup key).isSome then s else { s with ctors := (key, ctor) :: s.ctors }

/-- Begin a function with no local names. -/
def beginFunction (s : Build) (ret : IR.Ty) (symbol : String) (params : List IR.Typed) : Build :=
  { s with
    scope := {}
    assembly := (s.assembly.begin (.define ret symbol params)).cover
      (String.ofList (symbol.toList.dropWhile (· = '@'))) }

/-- Report a diagnostic. -/
def report (s : Build) (d : Diagnostic) : Build :=
  { s with diagnostics := (s.diagnostics.push d).2 }

/-- Ask for a layout. -/
def query {α : Type} (s : Build) (q : Layout.Query α) : Except Fault (α × Build) :=
  match q.run s.memo with
  | .error fault => .error fault
  | .ok (a, memo) => .ok (a, { s with memo })

end Build

/-- What a step answers and does. -/
def Step.perform (session : Session) : (step : Step) → Build → Except Fault (step.Answer × Build)
  | program, s => .ok (session.program, s)
  | symbolStart, s => .ok (session.settings.symbolStart, s)
  | depth, s => .ok (session.settings.depth, s)
  | scope, s => .ok (s.scope, s)
  | ctors, s => .ok (s.ctors, s)
  | bindLocal name l, s => .ok ((), { s with scope := s.scope.bind name l })
  | storeConv name conv, s => .ok ((), { s with scope := s.scope.storeConv name conv })
  | registerCtor key ctor, s => .ok ((), s.registerCtor key ctor)
  | fresh, s => .ok (s.assembly.freshTemp.1, { s with assembly := s.assembly.freshTemp.2 })
  | freshLabel, s => .ok (s.assembly.freshLabel.1, { s with assembly := s.assembly.freshLabel.2 })
  | emit i, s => .ok ((), { s with assembly := s.assembly.emit i })
  | block l, s => .ok ((), { s with assembly := s.assembly.place l })
  | defineType name body, s => .ok ((), { s with assembly := s.assembly.defineType name body })
  | declare symbol ret params, s =>
    .ok ((), { s with assembly := s.assembly.declare symbol ret params })
  | stringGlobal value, s =>
    .ok ((s.assembly.stringGlobal value).1,
      { s with assembly := (s.assembly.stringGlobal value).2 })
  | beginFunction ret symbol params, s => .ok ((), s.beginFunction ret symbol params)
  | finishFunction, s => .ok ((), { s with assembly := s.assembly.finish })
  | report d, s => .ok ((), s.report d)
  | reportDefaulted item resolution span, s =>
    .ok ((), if resolution.defaulted.isEmpty then s
      else s.report (resolution.diagnostic item span session.settings.strictGenerics))
  | require item, s =>
      let required := s.worklist.require item
      .ok (required.1, { s with worklist := required.2 })
  | defer item, s =>
      let deferred := s.worklist.defer item.kind item.base item.args
      .ok (deferred.1, { s with worklist := deferred.2 })
  | requireTable request, s =>
      let required := s.tables.require request
      .ok (required.1, { s with tables := required.2 })
  | extent t, s => s.query (Layout.extentOf session.program session.settings.depth t)
  | classExtent d args, s =>
    s.query (Layout.classExtent session.program session.settings.depth d args)
  | payloadWords d args, s =>
    s.query (Layout.payloadWords session.program session.settings.depth d args)

/-! ### Scripts -/

/-- A script that generates code. -/
abbrev Gen := Script Step.Answer

namespace Gen

/-- The script of a single step. -/
def perform (step : Step) : Gen step.Answer := .ask step .done

def program : Gen Program := perform .program

def fresh : Gen Nat := perform .fresh

def freshLabel : Gen Nat := perform .freshLabel

def emit (i : IR.Instr) : Gen Unit := perform (.emit i)

def block (l : IR.Label) : Gen Unit := perform (.block l)

def defineType (name : String) (body : IR.Ty) : Gen Unit := perform (.defineType name body)

def declare (symbol : String) (ret : IR.Ty) (params : List IR.Ty) : Gen Unit :=
  perform (.declare symbol ret params)

/-- The global that holds a string. -/
def stringGlobal (value : String) : Gen IR.Operand := do
  return .global (← perform (.stringGlobal value))

/-- The symbol of a function. -/
def functionSymbol (name : String) : Gen String := do
  return "@" ++ (← perform .symbolStart) ++ name

/-- The local called `name`. -/
def findLocal? (name : String) : Gen (Option Local) := do
  return (← perform .scope).find? name

def bindLocal (name : String) (l : Local) : Gen Unit := perform (.bindLocal name l)

def storeConv (name : String) (conv : CallConv) : Gen Unit := perform (.storeConv name conv)

def report (d : Diagnostic) : Gen Unit := perform (.report d)

/-- Report an error at one place. -/
def error (code : Code) (span : Span) (message label : String) : Gen Unit :=
  report (.errorAt code span message label)

/-- Report the type parameters of an item that only a default could bind. -/
def reportDefaulted (item : String) (resolution : Resolution) (span : Span) : Gen Unit :=
  perform (.reportDefaulted item resolution span)

/-- Request an instance and give its symbol. -/
def require (item : WorkItem) : Gen String := perform (.require item)

/-- Put aside an instance with open arguments and give its placeholder. -/
def defer (item : WorkItem) : Gen String := perform (.defer item)

/-- Request an instance, or put it aside when its arguments are open. -/
def request (item : WorkItem) (isOpen : Bool) : Gen String :=
  if isOpen then defer item else require item

/-- Request a dispatch table and give its name. -/
def requireTable (request : Dispatch.Request) : Gen IR.Operand := do
  return .global (← perform (.requireTable request))

def extentOf (t : Ty) : Gen Extent := perform (.extent t)

/-- The size of a type. -/
def sizeOf (t : Ty) : Gen UInt64 := do return (← extentOf t).size

end Gen

end Monomorph
