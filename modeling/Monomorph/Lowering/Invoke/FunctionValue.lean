import Monomorph.Lowering.Invoke.Argument
import Monomorph.Lowering.Place

/-!
# Function values

A function value is a pair of a code pointer and an environment pointer. A named function has a
null environment and is called with its arguments alone; a closure has a record of captured
values, which is passed in front of the arguments. Where it is not known which of the two a value
is, the call tests the environment and makes the call that fits.
-/

namespace Monomorph

namespace Lowering

/-- The symbol of a function that is not generic and is referred to, which is declared if the
module at hand does not define it. -/
def plainSymbol (f : FunctionDef) : Gen String := do
  let sig := Signature.ofDef f.name f .empty
  if f.isExtern then
    let symbol := "@" ++ f.name
    Gen.declareCallee symbol sig false
    return symbol
  else
    let symbol ← Gen.functionSymbol f.name
    if !(← Gen.program).home.functions.contains f.name then
      Gen.declareCallee symbol sig false
    return symbol

/-- A named function as a value. A generic function is instantiated by the expected type. -/
def functionRef (l : Lowering) (name : String) (span : Span) (expected : Option Ty) :
    Gen Value := do
  let p ← Gen.program
  match p.function? name with
  | none =>
      Gen.error .unknownName span ("unknown function `" ++ name ++ "`") "not found"
      return .placeholder .fatPtr (.func [] (.prim .unit))
  | some f =>
      let (symbol, t) ←
        if f.isGeneric then do
          let (resolution, _) ←
            l.bindItem f.generics [] [] [] [f.fnType] expected (.prim .unit)
          Gen.reportDefaulted f.name resolution span
          let name ← Gen.request (.plain .func f.name resolution.args)
            (p.isOpenList resolution.args)
          let symbol ← Gen.functionSymbol name
          pure (symbol, f.fnType.subst (.ofArgs f.generics resolution.args))
        else do
          let symbol ← plainSymbol f
          pure (symbol, f.fnType)
      return { operand := .thin symbol, ir := .fatPtr, ty := t, conv := .thin }

/-! ### Closures -/

/-- The symbol of a closure body. A body that mentions type parameters of the function around it is
instantiated for each binding of them. -/
def closureSymbol (l : Lowering) (f : FunctionDef) : Gen String := do
  let p ← Gen.program
  let params := p.closureParams f
  if params.isEmpty then Gen.functionSymbol f.name
  else
    let args := params.map fun name => l.subst (.param name)
    let name ← Gen.request (.plain .func f.name args) (p.isOpenList args)
    Gen.functionSymbol name

/-- Copy captured names into the members of an environment record, from the first on. -/
def storeCaptures (l : Lowering) (record : IR.Ty) (environment : IR.Operand)
    (span : Span) :
    Nat → List (String × IR.Ty) → Gen Unit
  | _, [] => pure ()
  | index, (name, ir) :: rest => do
      let value ← l.expr (.ident { span } name) none
      let slot ← Gen.member record environment index
      Gen.store ir value.operand slot
      l.storeCaptures record environment span (index + 1) rest

/-- A closure as a value: its captured values are copied into a record on the heap, in the order
of its body's captures. -/
def closure (l : Lowering) (body : String) (captures : List String) (span : Span) :
    Gen Value := do
  let failed := Value.placeholder .fatPtr (.closure [] (.prim .unit))
  match ((← Gen.program).function? body).filter FunctionDef.isClosureBody with
  | none =>
      Gen.error .unknownName span ("unknown closure body `" ++ body ++ "`") "not found"
      return failed
  | some f =>
      if f.captures.length ≠ captures.length then
        Gen.error .arity span
          ("closure `" ++ body ++ "` captures " ++ toString f.captures.length ++
            " value(s) but " ++ toString captures.length ++ " were supplied")
          "wrong number of captures"
        return failed
      let types := f.captures.map fun capture => l.subst capture.ty
      let irs ← Gen.irTypes types
      let size ← Gen.sizeOf (.tuple types)
      let environment ← Gen.allocate (max size 1)
      l.storeCaptures (.anon irs) environment span 0 (captures.zip irs)
      let symbol ← l.closureSymbol f
      let r ← Gen.fresh
      Gen.emit (.insertValue r ⟨.fatPtr, .thin symbol⟩ ⟨.ptr, environment⟩ 1)
      return {
        operand := .temp r
        ir := .fatPtr
        ty := .closure (f.paramTypes.map l.subst) (l.subst f.ret)
        conv := .capturing }

end Lowering

/-! ### Calls -/

namespace Gen

/-- Call code with or without an environment, as the environment shows. -/
def callEither (ret : IR.Ty) (code environment : IR.Operand) (args : List IR.Typed) :
    Gen (Option IR.Operand) := do
  let id ← freshLabel
  let isNull ← fresh
  emit (.intEq isNull ⟨.ptr, environment⟩ .null)
  emit (.branch (.temp isNull) (.thin id) (.fat id))
  block (.thin id)
  let thinResult ← call ret code args
  emit (.jump (.merge id))
  block (.fat id)
  let fatResult ← call ret code (⟨.ptr, environment⟩ :: args)
  emit (.jump (.merge id))
  block (.merge id)
  match thinResult, fatResult with
  | some thinValue, some fatValue =>
      let r ← fresh
      emit (.phi r ret thinValue (.thin id) fatValue (.fat id))
      return some (.temp r)
  | _, _ => return none

/-- Call a function value with lowered arguments, by its convention. -/
def callValue (v : Value) (ret : Ty) (args : List IR.Typed) : Gen Value := do
  let retIR ← returnType ret
  let code ← fresh
  emit (.extractValue code ⟨.fatPtr, v.operand⟩ 0)
  let environment ← fresh
  emit (.extractValue environment ⟨.fatPtr, v.operand⟩ 1)
  let result ←
    match v.conv with
    | .thin => call retIR (.temp code) args
    | .capturing => call retIR (.temp code) (⟨.ptr, .temp environment⟩ :: args)
    | .unknown => callEither retIR (.temp code) (.temp environment) args
  return .ofCall result retIR ret

end Gen

namespace Lowering

/-- Call a function value. -/
def callFunction (l : Lowering) (v : Value) (args : List Expr) (span : Span) : Gen Value := do
  match v.ty.signature? with
  | none =>
      l.evaluate args
      Gen.error .badShape span ("value of type `" ++ v.ty.text ++ "` is not callable")
        "not a function"
      return .placeholder .i32 (.prim .i32)
  | some (params, ret) =>
      if !(← l.checkArity "function value" params.length args span) then
        return .placeholder (← Gen.irType ret) ret
      let lowered ← l.arguments params args []
      Gen.callValue v ret lowered

/-- Call the function value that a field holds. A field can be stored to anywhere, so nothing is
known of its convention. -/
def callField (l : Lowering) (object : Expr) (field : String) (args : List Expr) (span : Span) :
    Gen Value := do
  match ← l.fieldPlace object field span with
  | none =>
      l.evaluate args
      return .placeholder .i32 (.prim .i32)
  | some place =>
      if place.ty.signature?.isNone then
        l.evaluate args
        Gen.error .fieldNotFunction span
          ("field `" ++ field ++ "` of type `" ++ place.ty.text ++ "` is not a function")
          "not callable"
        return .placeholder .i32 (.prim .i32)
      let operand ← Gen.load .fatPtr place.addr
      l.callFunction { operand, ir := .fatPtr, ty := place.ty } args span

end Lowering

end Monomorph
