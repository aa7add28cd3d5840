import Monomorph.Dispatch.Slots
import Monomorph.Lowering.Invoke.Argument

/-!
# Dynamic dispatch

A value known through a behavior is a pair of a data pointer and a dispatch table. A call takes
the code from the method's slot and passes the data pointer as the receiver.
-/

namespace Monomorph

/-- The slot of a method of a behavior, the behavior and the signature. -/
def Program.behaviorMethod? (p : Program) (behavior method : String) :
    Option (Nat × BehaviorDef × MethodSig) := do
  let slot ← p.behaviorSlot? behavior method
  let d ← p.behavior? behavior
  let sig ← d.methods.find? fun (m : MethodSig) => m.name = method
  return (slot, d, sig)

namespace Lowering

/-- Call the code in a slot of a dispatch table. -/
def callSlot (l : Lowering) (table : IR.Operand) (slot : Nat) (receiver : IR.Operand)
    (sig : Signature) (args : List Expr) (early : List (Option Value)) (span : Span) :
    Gen Value := do
  let r ← Gen.fresh
  Gen.emit (.slot r table slot)
  let callee ← Gen.load .ptr (.temp r)
  l.directCall callee sig args early (some receiver) span

/-- Call a method of a behavior on the value at an address. -/
def callBehavior (l : Lowering) (addr : IR.Operand) (behavior : String) (behaviorArgs : List Ty)
    (method : String) (args : List Expr) (span : Span) : Gen Value := do
  let p ← Gen.program
  match p.behaviorMethod? behavior method with
  | none =>
      l.evaluate args
      Gen.error .behaviorMethod span
        ("behavior `" ++ behavior ++ "` has no method `" ++ method ++ "`")
        "not declared by the behavior"
      return .placeholder .i32 (.prim .i32)
  | some (slot, d, methodSig) =>
      let b := Bindings.ofArgs d.generics behaviorArgs
      let sig : Signature :=
        ⟨behavior ++ "::" ++ method, Ty.substList b methodSig.params, methodSig.ret.subst b⟩
      let dynIR ← Gen.dynType behavior behaviorArgs
      let dataAddr ← Gen.member dynIR addr 0
      let data ← Gen.load .ptr dataAddr
      let tableAddr ← Gen.member dynIR addr 1
      let table ← Gen.load .ptr tableAddr
      l.callSlot table slot data sig args [] span

end Lowering

namespace Gen

/-- Make a value known through a behavior only. The value is copied to the heap, unless it is the
address of an instance already, and paired with the dispatch table of its type. -/
def coerceToDyn (v : Value) (behavior : String) (args : List Ty) : Gen Value := do
  let dynIR ← dynType behavior args
  let data ←
    if v.ir = .ptr && (← program).isReference v.ty then pure v.operand
    else do
      let size ← sizeOf v.ty
      let data ← allocate (max size 1)
      if !v.ir.isVoid && v.ir ≠ .empty then store v.ir v.operand data
      pure data
  let table ← requireTable (.behavior v.ty behavior args)
  let half ← fresh
  emit (.insertValue half ⟨dynIR, .undef⟩ ⟨.ptr, data⟩ 0)
  let whole ← fresh
  emit (.insertValue whole ⟨dynIR, .temp half⟩ ⟨.ptr, table⟩ 1)
  return { operand := .temp whole, ir := dynIR, ty := .dyn behavior args }

end Gen

end Monomorph
