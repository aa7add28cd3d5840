import Monomorph.Source.Program

/-!
# Slots of dispatch tables

A dispatch table of a behavior has one slot for each method, in the order in which the behavior
declares them. A dispatch table of a class has one slot for each virtual method, those of the root
class first; a method that overrides another keeps its slot. Slots are asked for again and again, so
what was found for a name can be kept in a memo.
-/

namespace Monomorph

/-- One slot of the dispatch table of a class. -/
structure ClassSlot where
  method : String
  /-- The class whose code the slot holds. -/
  owner : String
  deriving DecidableEq, Inhabited

namespace ClassSlot

/-- Give a method of `owner` its slot: the slot that it overrides, or a new one at the end. -/
def assign (owner : String) (slots : List ClassSlot) (method : String) : List ClassSlot :=
  match slots with
  | [] => [⟨method, owner⟩]
  | slot :: rest =>
      if slot.method = method then ⟨method, owner⟩ :: rest
      else slot :: assign owner rest method

/-- Give slots to all virtual methods of a class. -/
def assignAll (slots : List ClassSlot) (d : ClassDef) : List ClassSlot :=
  ((d.methods.filter FunctionDef.isVirtual).map FunctionDef.name).foldl (assign d.name) slots

end ClassSlot

namespace Program

/-- The methods of a behavior in the order of their slots. -/
def behaviorOrder? (p : Program) (behavior : String) : Option (List String) :=
  (p.behavior? behavior).map fun d => d.methods.map MethodSig.name

/-- The slot of a method of a behavior. -/
def behaviorSlot? (p : Program) (behavior method : String) : Option Nat :=
  (p.behaviorOrder? behavior).bind fun order => order.findIdx? fun name => name = method

/-- The slots of a class, with the inherited ones. -/
def classSlots (p : Program) (name : String) : List ClassSlot :=
  (p.classChain name).reverse.foldl ClassSlot.assignAll []

/-- The slot of a virtual method of a class. -/
def classSlot? (p : Program) (name method : String) : Option Nat :=
  (p.classSlots name).findIdx? fun slot => slot.method = method

end Program

/-- The slots that were found so far, by name. -/
structure SlotMemo where
  /-- The methods of behaviors. -/
  orders : List (String × List String) := []
  /-- The slots of classes. -/
  classes : List (String × List ClassSlot) := []
  deriving Inhabited

namespace SlotMemo

/-- The methods of a behavior in the order of their slots. An unknown behavior is not kept. -/
def behaviorOrder? (p : Program) (behavior : String) : StateM SlotMemo (Option (List String)) := do
  match (← get).orders.lookup behavior with
  | some order => return some order
  | none =>
      match p.behaviorOrder? behavior with
      | none => return none
      | some order =>
          modify fun memo => { memo with orders := (behavior, order) :: memo.orders }
          return some order

/-- The slot of a method of a behavior. -/
def behaviorSlot? (p : Program) (behavior method : String) : StateM SlotMemo (Option Nat) := do
  let order? ← behaviorOrder? p behavior
  return order?.bind fun order => order.findIdx? fun name => name = method

/-- The slots of a class, with the inherited ones. -/
def classSlots (p : Program) (name : String) : StateM SlotMemo (List ClassSlot) := do
  match (← get).classes.lookup name with
  | some slots => return slots
  | none =>
      let slots := p.classSlots name
      modify fun memo => { memo with classes := (name, slots) :: memo.classes }
      return slots

/-- The slot of a virtual method of a class. -/
def classSlot? (p : Program) (name method : String) : StateM SlotMemo (Option Nat) := do
  return (← classSlots p name).findIdx? fun slot => slot.method = method

end SlotMemo

end Monomorph
