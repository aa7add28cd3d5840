import Monomorph.Lowering.Invoke.Argument
import Monomorph.Proofs.Script.Events

/-!
# The steps that represent a type

Asking for the representation of a type reads the program, defines types and requests instances,
and does nothing else.
-/

namespace Monomorph

/-- The steps by which types are represented. -/
inductive Step.Represents : Step → Prop
  | program : Represents .program
  | defineType (name : String) (body : IR.Ty) : Represents (.defineType name body)
  | require (item : WorkItem) : Represents (.require item)
  | defer (item : WorkItem) : Represents (.defer item)

namespace Gen

open Script

theorem only_perform {E : Step → Prop} {step : Step} (h : E step) : (perform step).Only E :=
  ⟨h, fun _ => trivial⟩

theorem only_request {E : Step → Prop} {item : WorkItem} (hrequire : E (.require item))
    (hdefer : E (.defer item)) (isOpen : Bool) : (request item isOpen).Only E := by
  rw [request]
  split
  · exact only_perform hdefer
  · exact only_perform hrequire

theorem only_dynType (behavior : String) (args : List Ty) :
    (dynType behavior args).Only Step.Represents :=
  .step (.defineType _ _) fun _ => trivial

theorem only_boxedType (name : String) (args : List Ty) {representArgs : Gen (List IR.Ty)}
    (h : representArgs.Only Step.Represents) :
    (boxedType name args representArgs).Only Step.Represents := by
  refine .step (.defineType _ _) fun _ => .step .program fun p => ?_
  split
  · exact h.discard.bind fun _ => trivial
  · exact trivial

/-- A definition is represented by reading the program and requesting instances. -/
theorem only_definedType {E : Step → Prop} (hprogram : E .program)
    (hrequire : ∀ item, E (.require item)) (hdefer : ∀ item, E (.defer item)) (name : String)
    (args : List Ty) : (definedType name args).Only E := by
  have hrequest : ∀ item isOpen, (request item isOpen).Only E := fun item =>
    only_request (hrequire item) (hdefer item)
  refine .step hprogram fun p => ?_
  cases p.struct? name with
  | some d => exact (hrequest _ _).bind fun _ => trivial
  | none =>
    cases p.enum? name with
    | some d => exact (hrequest _ _).bind fun _ => trivial
    | none =>
      cases p.class? name with
      | some d => exact (hrequest _ _).bind fun _ => trivial
      | none => exact trivial

theorem only_nominalType (name : String) (args : List Ty) {representArgs : Gen (List IR.Ty)}
    (h : representArgs.Only Step.Represents) :
    (nominalType name args representArgs).Only Step.Represents := by
  unfold nominalType
  split
  · split
    · exact only_boxedType name _ h
    · exact trivial
  · exact only_definedType .program .require .defer name _

mutual

/-- Representing a type takes only the steps for it. -/
theorem only_irType : (t : Ty) → (irType t).Only Step.Represents
  | .prim kind => by rw [irType]; exact trivial
  | .ref .. | .ptr _ => by rw [irType]; exact trivial
  | .func .. | .closure .. => by rw [irType]; exact trivial
  | .dyn behavior args => by rw [irType]; exact only_dynType behavior args
  | .slice _ => by rw [irType]; exact trivial
  | .tuple elems => by
      rw [irType]
      split
      · exact trivial
      · exact (only_irTypes elems).bind fun _ => trivial
  | .array elem length => by rw [irType]; exact (only_irType elem).bind fun _ => trivial
  | .classRef name => by rw [irType]; exact only_nominalType name [] trivial
  | .named _ name args => by
      rw [irType]
      split
      · exact trivial
      · exact only_nominalType name args (only_irTypes args)

theorem only_irTypes : (ts : List Ty) → (irTypes ts).Only Step.Represents
  | [] => by rw [irTypes]; exact trivial
  | t :: ts => by
      rw [irTypes]
      exact (only_irType t).bind fun _ => (only_irTypes ts).bind fun _ => trivial

end

theorem only_returnType (t : Ty) : (returnType t).Only Step.Represents := by
  rw [returnType]
  split
  · exact trivial
  · exact only_irType t

end Gen

end Monomorph
