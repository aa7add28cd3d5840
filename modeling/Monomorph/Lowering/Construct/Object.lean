import Monomorph.Lowering.Invoke.Argument

/-!
# Class instances

An instance of a reference class lives on the heap, starts with the pointer to its dispatch table
and is passed around as its address. An instance of a value class lives in a stack slot and is
copied. Constructors of classes without parameters are told apart by the representations of their
parameters.
-/

namespace Monomorph

namespace Ctor

/-- The key under which a constructor is found. -/
def key (className : String) (params : List IR.Ty) : String :=
  String.join ((className ++ "_new") :: params.map fun t => "_" ++ t.text)

/-- The name of a constructor. -/
def symbolOf (className : String) (params : List IR.Ty) : String :=
  String.join ((className ++ "_new") :: params.map fun t => "_" ++ t.suffix)

end Ctor

/-- The class without parameters whose constructor a path names. -/
def Program.constructed? (p : Program) (path : Path) : Option ClassDef :=
  if path.last? = some "new" then
    (path.qualifier?.bind p.class?).filter fun d => d.generics.isEmpty
  else none

namespace Gen

/-- Register one constructor, unless its key is taken. -/
def registerCtor (d : ClassDef) (f : FunctionDef) : Gen Unit := do
  let params ← irTypes f.paramTypes
  let ret ← instanceType d []
  let key := Ctor.key d.name params
  let symbol ← functionSymbol (Ctor.symbolOf d.name params)
  perform (.registerCtor key ⟨symbol, ret⟩)

/-- Register the constructors of all classes without parameters. -/
def registerCtors : Gen Unit := do
  (← program).modules.forM fun m =>
    (m.classes.items.filter fun d => d.generics.isEmpty).forM fun d =>
      d.constructors.forM (registerCtor d)

/-- A new instance. A reference class takes memory from the heap and stores its dispatch table,
which all ancestor blocks share since they start at the same address. -/
def newInstance (d : ClassDef) (args : List Ty) : Gen IR.Operand := do
  let struct ← classStruct d.name args
  if d.isValue then
    let slot ← alloca struct
    store struct .zero slot
    return slot
  else
    let extent ← perform (.classExtent d args)
    let object ← allocate extent.size
    let table ← requireTable (.cls d.name args)
    store .ptr table object
    return object

/-- An instance as a value: its address, or a copy for a value class. -/
def instanceValue (d : ClassDef) (args : List Ty) (addr : IR.Operand) : Gen Value := do
  let t := Ty.ofName d.name args
  if d.isValue then
    let struct ← classStruct d.name args
    return { operand := ← load struct addr, ir := struct, ty := t }
  else return { operand := addr, ir := .ptr, ty := t }

end Gen

namespace Lowering

/-- Lower expressions without an expected type, keeping their values. -/
def values (l : Lowering) (args : List Expr) : Gen (List Value) :=
  args.mapM fun arg => l.expr arg none

/-- The constructor for arguments of the given representations: the one with exactly these, or
the one without parameters, or else one that is declared. -/
def ctorFor (d : ClassDef) (irs : List IR.Ty) : Gen Ctor := do
  let ctors ← Gen.perform .ctors
  match (ctors.lookup (Ctor.key d.name irs)).or (ctors.lookup (Ctor.key d.name [])) with
  | some ctor => return ctor
  | none =>
      let ret ← Gen.instanceType d []
      let symbol ← Gen.functionSymbol (Ctor.symbolOf d.name irs)
      Gen.declare symbol ret irs
      return ⟨symbol, ret⟩

/-- A call of `new` on a class without parameters; nothing for any other path. -/
def construct (l : Lowering) (path : Path) (args : List Expr) : Gen (Option Value) := do
  match (← Gen.program).constructed? path with
  | none => return none
  | some d =>
      let actual ← l.values args
      let ctor ← ctorFor d (actual.map Value.ir)
      let result ← Gen.call ctor.ret (.global ctor.symbol) (actual.map Value.typed)
      return some (.ofCall result ctor.ret (.ofName d.name []))

end Lowering

end Monomorph
