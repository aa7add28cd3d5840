import Monomorph.Compile.Move
import Monomorph.Dispatch.Slots
import Monomorph.Lowering.Invoke.Argument

/-!
# Dispatch tables

A dispatch table lists the code of each slot. Code that belongs to a generic item is requested as
an instance, and code of another module is declared.
-/

namespace Monomorph

namespace Gen

/-- The entry of a behavior method: a symbol, or nothing if the type does not provide it. -/
def behaviorEntry (selfTy : Ty) (behavior method : String) : Gen (Option String) := do
  let (typeName, typeArgs) := selfTy.nominal?.getD ("", [])
  let provided := ((← program).implOf? typeName behavior).bind fun (origin, impl) =>
    ((impl.method? method).filter fun f => !f.isGeneric).map fun f => (origin, impl, f)
  match provided with
  | none =>
      report {
        code := .behaviorMethod
        message := "`" ++ selfTy.text ++ "` has no implementation of `" ++ behavior ++ "::" ++
          method ++ "`"
        notes := ["the vtable slot is left null"] }
      return none
  | some (origin, impl, f) =>
      if impl.generics.isEmpty then
        let symbol ← functionSymbol (Symbol.ofMethod typeName [] method [])
        if origin ≠ .home then
          let b := Ty.matchInto impl.generics impl.selfTy selfTy .empty
          declareCallee symbol (.ofDef method f b) true
        return some symbol
      else
        let name ← require (.ofMethod typeName typeArgs method [])
        return some (← functionSymbol name)

/-- The entries of the table of a type for a behavior, in the order of its methods. -/
def behaviorEntries (selfTy : Ty) (behavior : String) : Gen (List (Option String)) := do
  let order := ((← program).behaviorOrder? behavior).getD []
  order.mapM (behaviorEntry selfTy behavior)

/-- The entry of a slot of a class: a symbol, or nothing if the method is abstract. -/
def classEntry (className : String) (args : List Ty) (slot : ClassSlot) :
    Gen (Option String) := do
  let p ← program
  match p.class? slot.owner with
  | none => return none
  | some owner =>
    match (owner.method? slot.method).filter fun f => f.body.isSome with
    | none => return none
    | some f =>
        if owner.generics.isEmpty then
          let symbol ← functionSymbol (Symbol.ofMethod owner.name [] slot.method [])
          if !p.home.classes.contains owner.name then
            declareCallee symbol (.ofDef slot.method f .empty) true
          return some symbol
        else
          let ownerArgs := if owner.name = className then args else []
          let name ← require (.ofMethod owner.name ownerArgs slot.method [])
          return some (← functionSymbol name)

/-- The entries of the table of a class instance, root class first. -/
def classEntries (className : String) (args : List Ty) : Gen (List (Option String)) := do
  ((← program).classSlots className).mapM (classEntry className args)

/-- The entries of a requested table. -/
def tableEntries : Dispatch.Request → Gen (List (Option String))
  | .behavior selfTy name _ => behaviorEntries selfTy name
  | .cls name args => classEntries name args

end Gen

namespace Compile

/-- Write a requested table. -/
def writeTable (request : Dispatch.Request) : Compile Unit := do
  perform (.writeTable request.table (← Gen.tableEntries request))

/-- Write all requested tables. -/
def writeTables : Compile Unit := do
  (← perform .takeTables).forM writeTable

end Compile

end Monomorph
