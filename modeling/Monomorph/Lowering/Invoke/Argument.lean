import Monomorph.Lowering.Constant

/-!
# Arguments and direct calls

The arguments of a generic item help to bind its parameters before the call is made. Those whose
type does not show are lowered for that purpose, and their values are used again by the call, so
that no argument is lowered twice.
-/

namespace Monomorph

/-- A callee whose parameters are all bound; the name is used in messages. -/
structure Signature where
  name : String
  params : List Ty
  ret : Ty
  deriving DecidableEq, Inhabited

/-- The signature of a function under a binding. -/
def Signature.ofDef (name : String) (f : FunctionDef) (b : Bindings) : Signature where
  name := name
  params := f.params.map fun param => param.ty.subst b
  ret := f.ret.subst b

namespace Gen

/-- Declare a function that is called but not defined here. -/
def declareCallee (symbol : String) (sig : Signature) (withReceiver : Bool) : Gen Unit := do
  let ret ← returnType sig.ret
  let params ← irTypes sig.params
  declare symbol ret (if withReceiver then .ptr :: params else params)

end Gen

namespace Lowering

/-- Bind parameters by the types of arguments. An argument whose type does not show is lowered,
unless all parameters are bound already; its value is kept for the call. -/
def inferArgs (l : Lowering) (binder : Binder) :
    List Ty → List Expr → Gen (Binder × List (Option Value))
  | param :: params, arg :: args => do
      let (binder, value) ←
        match ← l.evidentType arg with
        | some t => pure (binder.infer param t, none)
        | none =>
            if binder.isComplete then pure (binder, none)
            else do
              let value ← l.expr arg none
              pure (binder.infer param value.ty, some value)
      let (binder, values) ← l.inferArgs binder params args
      return (binder, value :: values)
  | _, _ => return (binder, [])

/-- Lower arguments against parameter types; an argument that was lowered already is used as it
is. -/
def arguments (l : Lowering) :
    List Ty → List Expr → List (Option Value) → Gen (List IR.Typed)
  | param :: params, arg :: args, early => do
      let value ←
        match early.head? with
        | some (some value) => pure value
        | _ => l.expr arg (some param)
      let ir ← Gen.irType param
      let value ← Gen.convertTo value param ir
      let rest ← l.arguments params args early.tail
      return ⟨ir, value.operand⟩ :: rest
  | _, _, _ => return []

/-- Whether the number of arguments is right. If it is not, they are lowered for their effects and
the error is reported. -/
def checkArity (l : Lowering) (name : String) (count : Nat) (args : List Expr) (span : Span) :
    Gen Bool := do
  if args.length = count then return true
  l.evaluate args
  let message := "`" ++ name ++ "` takes " ++ toString count ++ " argument(s) but " ++
    toString args.length ++ " were supplied"
  Gen.error .arity span
    (if args.length < count then message ++ "; missing argument" else message)
    "wrong number of arguments"
  return false

/-- A call of a known callee, with the receiver, if there is one, in front of the arguments. -/
def directCall (l : Lowering) (callee : IR.Operand) (sig : Signature) (args : List Expr)
    (early : List (Option Value)) (receiver : Option IR.Operand) (span : Span) : Gen Value := do
  let ret ← Gen.returnType sig.ret
  if !(← l.checkArity sig.name sig.params.length args span) then
    return .placeholder (← Gen.irType sig.ret) sig.ret
  let lowered ← l.arguments sig.params args early
  let actual :=
    match receiver with
    | some operand => ⟨.ptr, operand⟩ :: lowered
    | none => lowered
  return .ofCall (← Gen.call ret callee actual) ret sig.ret

/-- Bind the parameters of a generic item: explicit arguments first, then the call arguments
against `params`, then the patterns against the expected type. -/
def bindItem (l : Lowering) (generics : List String) (explicit params : List Ty)
    (args : List Expr) (patterns : List Ty) (expected : Option Ty) (fallback : Ty) :
    Gen (Resolution × List (Option Value)) := do
  let binder := ({ params := generics } : Binder).explicitly (explicit.map l.subst)
  let (binder, early) ← l.inferArgs binder params args
  let binder :=
    match expected with
    | some t => patterns.foldl (fun acc pattern => Binder.expect acc pattern t) binder
    | none => binder
  return (binder.resolve fallback, early)

end Lowering

end Monomorph
