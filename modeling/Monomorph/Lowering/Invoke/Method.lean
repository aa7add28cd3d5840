import Monomorph.Lowering.Invoke.Dispatch
import Monomorph.Lowering.Invoke.FunctionValue

/-!
# Method calls

A method is looked for in the type of the receiver, with references followed: a behavior's method
on a value known through it, a field of function type, a method of the class or of an ancestor,
and then a method of an implementation. Every method takes its receiver as a pointer: the instance
pointer of a reference class, and the address of the receiver otherwise.
-/

namespace Monomorph

/-- The declared type of the field that a call `receiver.method` could mean: a field of the struct,
or of a class on the chain unless the chain has a method of that name. -/
def Program.calledField? (p : Program) (name method : String) : Option Ty :=
  match p.struct? name with
  | some d => (d.fields.find? fun field => field.name = method).map FieldDef.ty
  | none =>
    match p.class? name with
    | some d =>
        let chain := p.classChain d.name
        if chain.any fun c => (c.method? method).isSome then none
        else chain.findSome? fun c =>
          (c.fields.find? fun field => field.name = method).map FieldDef.ty
    | none => none

/-- The first method of that name that takes a receiver on a chain of classes, with its class and
the position of the class. -/
def ClassDef.methodAmong? (method : String) :
    List ClassDef → Option (Nat × ClassDef × FunctionDef)
  | [] => none
  | d :: ds =>
      match (d.method? method).filter FunctionDef.hasSelf with
      | some f => some (0, d, f)
      | none => (methodAmong? method ds).map fun found => (found.1 + 1, found.2)

namespace Lowering

/-- Whether a method call is the call of a field of function type. -/
def hasCallableField (l : Lowering) (receiver : Expr) (method : String) : Gen Bool := do
  match ← l.evidentType receiver with
  | none => return false
  | some t =>
      let t :=
        match t with
        | .ref _ inner => inner
        | t => t
      match t.nominal? with
      | none => return false
      | some (name, _) =>
        match (← Gen.program).calledField? name method with
        | some fieldTy => return fieldTy.signature?.isSome
        | none => return false

/-- The receiver as a pointer, with its type. References are followed, and an instance of a
reference class gives its own address. -/
def receiver (l : Lowering) (e : Expr) : Gen (Option (IR.Operand × Ty)) := do
  match ← objectCursor (l.place e) e with
  | none => return none
  | some (.pointer operand, t) => return some (operand, t)
  | some (.addr addr, t) =>
      let (addr, t) ←
        match t with
        | .ref _ inner => do pure (← Gen.load .ptr addr, inner)
        | t => pure (addr, t)
      if (← Gen.program).isReference t then return some (← Gen.load .ptr addr, t)
      return some (addr, t)

/-- Bind the own parameters of a method by the arguments of a call. -/
def bindMethod (l : Lowering) (owner : String) (f : FunctionDef) (b : Bindings)
    (args : List Expr) (span : Span) : Gen (Bindings × List Ty × List (Option Value)) := do
  if !f.isGeneric then return (b, [], [])
  let params := f.params.map fun param => param.ty.subst b
  let (resolution, early) ← l.bindItem f.generics [] params args [] none (.prim .unit)
  Gen.reportDefaulted (owner ++ "::" ++ f.name) resolution span
  return (b.extend (.ofArgs f.generics resolution.args), resolution.args, early)

/-- The symbol of a method, which is instantiated if it or its owner is generic. -/
def methodSymbol (owner : String) (ownerArgs : List Ty) (method : String) (methodArgs : List Ty)
    (generic : Bool) : Gen String := do
  if generic then
    let p ← Gen.program
    let name ← Gen.request (.ofMethod owner ownerArgs method methodArgs)
      (p.isOpenList (ownerArgs ++ methodArgs))
    Gen.functionSymbol name
  else Gen.functionSymbol (Symbol.ofMethod owner [] method [])

/-- Call a method of a class or of one of its ancestors. A virtual method of a reference class is
called through the dispatch table of the instance. -/
def callClassMethod (l : Lowering) (d : ClassDef) (classArgs : List Ty) (object : IR.Operand)
    (method : String) (args : List Expr) (span : Span) : Gen (Option Value) := do
  let p ← Gen.program
  match ClassDef.methodAmong? method (p.classChain d.name) with
  | none => return none
  | some (position, owner, f) =>
      let ownerArgs := if position = 0 then classArgs else []
      let (b, methodArgs, early) ←
        l.bindMethod owner.name f (.ofArgs owner.generics ownerArgs) args span
      let sig := Signature.ofDef (owner.name ++ "::" ++ method) f b
      match (if d.isValue then none else p.classSlot? d.name method) with
      | some slot =>
          let table ← Gen.load .ptr object
          return some (← l.callSlot table slot object sig args early span)
      | none =>
          let generic := !ownerArgs.isEmpty || f.isGeneric
          let symbol ← methodSymbol owner.name ownerArgs method methodArgs generic
          if !generic && !p.home.classes.contains owner.name then
            Gen.declareCallee symbol sig true
          return some (← l.directCall (.global symbol) sig args early (some object) span)

/-- Call a method of an implementation for the type of the receiver. -/
def callImplMethod (l : Lowering) (receiverTy : Ty) (name : String) (typeArgs : List Ty)
    (operand : IR.Operand) (method : String) (args : List Expr) (span : Span) :
    Gen (Option Value) := do
  match (← Gen.program).implMethod? name method with
  | none => return none
  | some (origin, impl, f) =>
      if !f.hasSelf then return none
      let (b, methodArgs, early) ←
        l.bindMethod name f (impl.selfTy.matchInto impl.generics receiverTy .empty) args span
      let sig := Signature.ofDef (name ++ "::" ++ method) f b
      let generic := !impl.generics.isEmpty || f.isGeneric
      let symbol ← methodSymbol name typeArgs method methodArgs generic
      if !generic && origin ≠ .home then Gen.declareCallee symbol sig true
      return some (← l.directCall (.global symbol) sig args early (some operand) span)

/-- Call a method of a nominal type: of the class of that name, or of an implementation. -/
def callNominal (l : Lowering) (operand : IR.Operand) (t : Ty) (method : String)
    (args : List Expr) (span : Span) : Gen (Option Value) := do
  match t.nominal? with
  | none => return none
  | some (name, typeArgs) =>
      let own ←
        match (← Gen.program).class? name with
        | some d => l.callClassMethod d typeArgs operand method args span
        | none => pure none
      match own with
      | some v => return some v
      | none => l.callImplMethod t name typeArgs operand method args span

/-- The value of a method call. -/
def methodCall (l : Lowering) (note : Note) (object : Expr) (method : String)
    (args : List Expr) : Gen Value := do
  if ← l.hasCallableField object method then
    return ← l.callField object method args note.span
  match ← l.receiver object with
  | none =>
      l.evaluate args
      return .placeholder .i32 (.prim .i32)
  | some (operand, .dyn behavior behaviorArgs) =>
      l.callBehavior operand behavior behaviorArgs method args note.span
  | some (operand, t) =>
    match ← l.callNominal operand t method args note.span with
    | some v => return v
    | none =>
        l.evaluate args
        Gen.error .unknownMethod note.span
          ("no method `" ++ method ++ "` on type `" ++ t.text ++ "`") "method not found"
        let t := (note.ty.map l.subst).getD (.prim .i32)
        return .placeholder (← Gen.irType t) t

end Lowering

end Monomorph
