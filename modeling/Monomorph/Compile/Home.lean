import Monomorph.Lowering.Function

/-!
# The items of the module at hand

Every item without generic parameters gets its code at once; the others wait until an instance of
them is requested.
-/

namespace Monomorph

namespace FunctionDef

/-- Whether the function is not generic and has code. -/
def isReady (f : FunctionDef) : Bool := !f.isGeneric && f.body.isSome

end FunctionDef

namespace Gen

/-- The code of a function. The code of a closure that mentions type parameters of the function
around it waits for an instance. -/
def homeFunction (f : FunctionDef) : Gen Unit := do
  if f.isReady && !f.isExtern &&
      !(f.isClosureBody && !((← program).closureParams f).isEmpty) then
    lowerFunction f (← functionSymbol f.name) .empty none

/-- The code of a method of a type without parameters. -/
def homeMethod (typeName : String) (receiver : Receiver) (f : FunctionDef) : Gen Unit := do
  if f.isReady then
    let symbol ← functionSymbol (Symbol.ofMethod typeName [] f.name [])
    lowerFunction f symbol .empty (if f.hasSelf then some receiver else none)

/-- The methods of an implementation without parameters. -/
def homeImpl (d : ImplDef) : Gen Unit := do
  match d.typeName? with
  | none => pure ()
  | some typeName =>
      if d.generics.isEmpty then
        let byPointer := (← program).isReferenceClass typeName
        d.methods.forM (homeMethod typeName ⟨d.selfTy, byPointer⟩)

/-- The constructors and methods of a class without parameters. -/
def homeClass (d : ClassDef) : Gen Unit := do
  if d.generics.isEmpty then
    d.constructors.forM fun f => do
      let params ← irTypes f.paramTypes
      let symbol ← functionSymbol (Ctor.symbolOf d.name params)
      lowerConstructor d [] f symbol .empty
    d.methods.forM (homeMethod d.name (.ofClass d []))

/-- The code of all items that need no instance. -/
def homeItems : Gen Unit := do
  let home := (← program).home
  home.functions.items.forM homeFunction
  home.impls.forM homeImpl
  home.classes.items.forM homeClass

end Gen

end Monomorph
