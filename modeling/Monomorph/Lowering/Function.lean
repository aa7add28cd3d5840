import Monomorph.Lowering.Expr

/-!
# Functions and constructors

The code of a function starts by giving its names their places: captured names in the environment
record, the receiver behind its pointer, parameters in stack slots. A constructor makes the
instance first, runs its body with that instance as receiver and returns it.
-/

namespace Monomorph

/-- The receiver of a method. -/
structure Receiver where
  ty : Ty
  /-- Whether the receiver is the instance pointer itself. -/
  byPointer : Bool
  deriving DecidableEq, Inhabited

namespace Receiver

/-- The receiver of the methods of a class. -/
def ofClass (d : ClassDef) (args : List Ty) : Receiver := ⟨.ofName d.name args, !d.isValue⟩

end Receiver

/-- A parameter with the type that instructions see. -/
structure ParamSlot where
  name : String
  /-- The type of the source. -/
  ty : Ty
  /-- The type that instructions see. -/
  ir : IR.Ty
  deriving DecidableEq, Inhabited

namespace Gen

/-- Parameters under a binding, with the types that instructions see. -/
def paramSlots (b : Bindings) (params : List Param) : Gen (List ParamSlot) :=
  params.mapM fun param => do
    let t := param.ty.subst b
    return ⟨param.name, t, ← irType t⟩

/-- Give captured names their places in the environment record, from a member on. -/
def bindCaptures (record : IR.Ty) : Nat → List ParamSlot → Gen Unit
  | _, [] => pure ()
  | index, c :: rest => do
      let addr ← member record .env index
      bindLocal c.name { storage := .slot addr, ty := c.ty, ir := c.ir }
      bindCaptures record (index + 1) rest

/-- Bind the receiver to the instance pointer, or to the place at that address. -/
def bindSelf (receiver : Receiver) (operand : IR.Operand) : Gen Unit := do
  let ir ← irType receiver.ty
  let storage := if receiver.byPointer then Storage.direct operand else .slot operand
  bindLocal "self" { storage, ty := receiver.ty, ir }

/-- Copy parameters into stack slots. -/
def bindParams (params : List ParamSlot) : Gen Unit :=
  params.forM fun param => do
    let addr ← alloca param.ir
    store param.ir (.arg param.name) addr
    bindLocal param.name { storage := .slot addr, ty := param.ty, ir := param.ir }

def beginFunction (ret : IR.Ty) (symbol : String) (params : List IR.Typed) : Gen Unit :=
  perform (.beginFunction ret symbol params)

def finishFunction : Gen Unit := perform .finishFunction

/-- The parameters of a header. -/
def headerParams (isClosure hasReceiver : Bool) (params : List ParamSlot) : List IR.Typed :=
  (if isClosure then [⟨.ptr, .env⟩] else []) ++ (if hasReceiver then [⟨.ptr, .self⟩] else []) ++
    params.map fun param => ⟨param.ir, .arg param.name⟩

/-- The lowering of one instance. -/
def lowering (b : Bindings) (result : Ty) : Gen Lowering := do
  return .ofDepth b result (← perform .depth)

/-- The code of a function under a binding. -/
def lowerFunction (f : FunctionDef) (symbol : String) (b : Bindings)
    (receiver : Option Receiver) : Gen Unit := do
  let result := f.ret.subst b
  let params ← paramSlots b f.params
  let ret ← returnType result
  beginFunction ret symbol (headerParams f.isClosureBody receiver.isSome params)
  if f.isClosureBody then
    let captures ← paramSlots b f.captures
    bindCaptures (.anon (captures.map ParamSlot.ir)) 0 captures
  match receiver with
  | some r => bindSelf r .self
  | none => pure ()
  bindParams params
  let l ← lowering b result
  let value ←
    match f.body with
    | some body => l.block body (some result)
    | none => pure .unit
  l.emitReturn value
  finishFunction

/-- The code of a constructor of a class instance under a binding. -/
def lowerConstructor (d : ClassDef) (args : List Ty) (f : FunctionDef) (symbol : String)
    (b : Bindings) : Gen Unit := do
  let params ← paramSlots b f.params
  let ret ← instanceType d args
  beginFunction ret symbol (headerParams false false params)
  let object ← newInstance d args
  bindSelf (.ofClass d args) object
  bindParams params
  let l ← lowering b (.ofName d.name args)
  match f.body with
  | some body => discard <| l.block body none
  | none => pure ()
  let value ← instanceValue d args object
  emit (.ret (some value.typed))
  finishFunction

end Gen

end Monomorph
