import Monomorph.Lowering.Construct.Object
import Monomorph.Lowering.Construct.Variant
import Monomorph.Lowering.Invoke.FunctionValue
import Monomorph.Lowering.Invoke.Intrinsic

/-!
# Names and calls

A called path is tried as each kind of callee in turn, and the first that knows it makes the call:

1. a function of a built-in kind,
2. a variant of an enum,
3. an intrinsic,
4. a generic function,
5. a constructor of a class without parameters,
6. a static method that needs an instance,
7. any other function or static method,
8. a local that holds a function value.
-/

namespace Monomorph

/-! ### Static methods -/

/-- A method without a receiver, together with the type that it belongs to. -/
structure StaticMethod where
  /-- The name of the type. -/
  owner : String
  /-- The generic parameters in front of the method's own. -/
  generics : List String
  /-- The type as the parameters describe it. -/
  pattern : Ty
  definition : FunctionDef
  /-- Whether the module at hand defines it. -/
  isHome : Bool
  deriving Inhabited

namespace Program

/-- A static method of a class. -/
def classStatic? (p : Program) (d : ClassDef) (method : Option FunctionDef) :
    Option StaticMethod :=
  method.map fun f =>
    { owner := d.name
      generics := d.generics
      pattern := d.selfType
      definition := f
      isHome := p.home.classes.contains d.name }

/-- A static method that an implementation for a struct or enum provides. -/
def implStatic? (p : Program) (owner method : String) : Option StaticMethod := do
  let name ← ((p.struct? owner).map StructDef.name).or ((p.enum? owner).map EnumDef.name)
  let (origin, impl, f) ← p.implMethod? name method
  if f.hasSelf then none
  else
    some {
      owner := name
      generics := impl.generics
      pattern := impl.selfTy
      definition := f
      isHome := origin = .home }

/-- The static method that a path names. -/
def staticMethod? (p : Program) (path : Path) : Option StaticMethod := do
  let owner ← path.qualifier?
  let method ← path.last?
  match p.class? owner with
  | some d => p.classStatic? d ((d.method? method).filter fun f => !f.hasSelf)
  | none => p.implStatic? owner method

/-- The static method that a path names, where `new` on a class is its first constructor. -/
def staticOrNew? (p : Program) (path : Path) : Option StaticMethod := do
  let owner ← path.qualifier?
  let method ← path.last?
  match p.class? owner with
  | some d =>
      if method = "new" then p.classStatic? d d.constructors.head?
      else p.staticMethod? path
  | none => p.staticMethod? path

end Program

namespace Lowering

/-! ### Names as values -/

/-- A path as a value: a variant without values, or a function. -/
def pathValue (l : Lowering) (path : Path) (span : Span) (expected : Option Ty) : Gen Value := do
  match ← l.variant path [] span expected with
  | some value => return value
  | none =>
      let joined := path.joined
      if ((← Gen.program).function? joined).isSome then l.functionRef joined span expected
      else
        Gen.error .unknownItem span ("unknown variant or item `" ++ joined ++ "`") "not found"
        return .placeholder .i32 (.prim .i32)

/-- A bare name as a value: a local, a function or a variant. -/
def name (l : Lowering) (name : String) (span : Span) (expected : Option Ty) : Gen Value := do
  match ← Gen.findLocal? name with
  | some { storage := .slot addr, ty, ir, conv } =>
      return { operand := ← Gen.load ir addr, ir, ty, conv }
  | some { storage := .direct operand, ty, ir, .. } => return { operand, ir, ty }
  | none =>
      let p ← Gen.program
      if (p.function? name).isSome then l.functionRef name span expected
      else if (p.enumWithVariant? name).isSome then l.pathValue (.single name) span expected
      else
        Gen.error .unknownName span ("unknown identifier `" ++ name ++ "`")
          "not found in this scope"
        return .placeholder .i32 (.prim .i32)

/-! ### Kinds of callee -/

/-- A call of a generic function, whose instance is requested. -/
def callGeneric (l : Lowering) (path : Path) (args : List Expr) (span : Span)
    (expected : Option Ty) : Gen (Option Value) := do
  let p ← Gen.program
  match (p.function? path.joined).filter FunctionDef.isGeneric with
  | none => return none
  | some f =>
      let (resolution, early) ←
        l.bindItem f.generics path.args f.paramTypes args [f.ret] expected (.prim .unit)
      Gen.reportDefaulted f.name resolution span
      let instanceName ← Gen.request (.plain .func f.name resolution.args)
        (p.isOpenList resolution.args)
      let symbol ← Gen.functionSymbol instanceName
      let sig := Signature.ofDef f.name f (.ofArgs f.generics resolution.args)
      return some (← l.directCall (.global symbol) sig args early none span)

/-- A call of a static method that has generic parameters, its own or those of its type. -/
def callGenericStatic (l : Lowering) (path : Path) (args : List Expr) (span : Span)
    (expected : Option Ty) : Gen (Option Value) := do
  let p ← Gen.program
  match (p.staticOrNew? path).filter fun m => !m.generics.isEmpty || m.definition.isGeneric with
  | none => return none
  | some m =>
      let method := path.last?.getD ""
      let generics := m.generics ++ m.definition.generics
      let (resolution, early) ←
        l.bindItem generics path.args m.definition.paramTypes args
          [m.pattern, m.definition.ret] expected (.prim .unit)
      Gen.reportDefaulted path.joined resolution span
      let b := Bindings.ofArgs generics resolution.args
      let ownerArgs := Ty.substList b ((m.pattern.asNamed?.map Prod.snd).getD [])
      let methodArgs := resolution.args.drop m.generics.length
      let instanceName ← Gen.request (.ofMethod m.owner ownerArgs method methodArgs)
        (p.isOpenList resolution.args)
      let symbol ← Gen.functionSymbol instanceName
      let sig := Signature.ofDef path.joined m.definition b
      let sig :=
        if method = "new" && (p.class? m.owner).isSome then
          { sig with ret := .ofName m.owner ownerArgs }
        else sig
      return some (← l.directCall (.global symbol) sig args early none span)

/-- A call of a function that is neither generic nor the code of a closure. -/
def callPlain (l : Lowering) (f : FunctionDef) (args : List Expr) (span : Span) :
    Gen (Option Value) := do
  if f.isGeneric || f.isClosureBody then return none
  let symbol ← plainSymbol f
  return some (← l.directCall (.global symbol) (.ofDef f.name f .empty) args [] none span)

/-- A call of a static method under its plain name. -/
def callStatic (l : Lowering) (path : Path) (args : List Expr) (span : Span) :
    Gen (Option Value) := do
  match (← Gen.program).staticMethod? path with
  | none => return none
  | some m =>
      let sig := Signature.ofDef path.joined m.definition .empty
      let symbol ← Gen.functionSymbol
        (Symbol.ofMethod m.owner [] (path.last?.getD "") [])
      if !m.isHome then Gen.declareCallee symbol sig false
      return some (← l.directCall (.global symbol) sig args [] none span)

/-- A call of a function or static method as it is defined. -/
def callDefined (l : Lowering) (path : Path) (args : List Expr) (span : Span) :
    Gen (Option Value) := do
  match (← Gen.program).function? path.joined with
  | some f => l.callPlain f args span
  | none => l.callStatic path args span

/-- A call of the function value that a local holds. -/
def callLocal (l : Lowering) (path : Path) (args : List Expr) (span : Span) :
    Gen (Option Value) := do
  match path.segments with
  | [name] =>
      match ← Gen.findLocal? name with
      | none => return none
      | some _ =>
          let callee ← l.name name span none
          return some (← l.callFunction callee args span)
  | _ => return none

/-! ### Calls -/

/-- The kinds of callee that a path can name, in the order in which they are tried. -/
def callStages (l : Lowering) (path : Path) (args : List Expr) (note : Note)
    (expected : Option Ty) : List (Gen (Option Value)) :=
  [l.kindFunction path args,
    l.variant path args note.span expected,
    l.intrinsic path args note,
    l.callGeneric path args note.span expected,
    l.construct path args,
    l.callGenericStatic path args note.span expected,
    l.callDefined path args note.span,
    l.callLocal path args note.span]

/-- The result of the first step that has one. -/
def firstOf : List (Gen (Option Value)) → Gen (Option Value)
  | [] => return none
  | stage :: stages => do
      match ← stage with
      | some value => return some value
      | none => firstOf stages

/-- A call of what a path names. -/
def callPath (l : Lowering) (path : Path) (args : List Expr) (note : Note)
    (expected : Option Ty) : Gen Value := do
  match ← firstOf (l.callStages path args note expected) with
  | some value => return value
  | none =>
      l.evaluate args
      Gen.error .unresolvedCall note.span ("unresolved call to `" ++ path.joined ++ "`")
        "no function, constructor or intrinsic with this name"
      let t := expected.getD (.prim .i32)
      return .placeholder (← Gen.irType t) t

/-- A call. -/
def call (l : Lowering) (note : Note) (callee : Expr) (args : List Expr)
    (expected : Option Ty) : Gen Value := do
  match callee with
  | .path _ path => l.callPath path args note expected
  | .ident _ name => l.callPath (.single name) args note expected
  | .field _ object field => l.callField object field args note.span
  | _ => l.callFunction (← l.expr callee none) args note.span

end Lowering

end Monomorph
