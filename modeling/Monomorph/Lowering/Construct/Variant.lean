import Monomorph.Lowering.Invoke.Argument

/-!
# Enum values

An enum value is made in a stack slot: its tag is stored, then its payload, if it has any bytes,
and the whole is loaded. Several payload values are stored as one record.
-/

namespace Monomorph

/-- The enum and the tag that a path names: a bare variant is looked for in all enums, a qualified
one in the enum that the qualifier names. -/
def Program.variant? (p : Program) (path : Path) : Option (EnumDef × Nat) :=
  match path.segments with
  | [variant] => p.enumWithVariant? variant
  | _ => do
      let d ← p.enum? (← path.qualifier?)
      let tag ← d.variantIndex? (← path.last?)
      return (d, tag)

namespace Gen

/-- Put typed operands into the members of a record, from the first on. -/
def fillRecord (record : IR.Ty) : IR.Operand → Nat → List IR.Typed → Gen IR.Operand
  | whole, _, [] => pure whole
  | whole, index, part :: parts => do
      let r ← fresh
      emit (.insertValue r ⟨record, whole⟩ part index)
      fillRecord record (.temp r) (index + 1) parts

/-- Store the payload of a variant at an address: one value as it is, several as a record. -/
def storePayload (payload : List IR.Typed) (addr : IR.Operand) : Gen Unit := do
  match payload with
  | [value] => emit (.store value addr)
  | values =>
      let record := IR.Ty.anon (values.map IR.Typed.ty)
      let whole ← fillRecord record .undef 0 values
      emit (.store ⟨record, whole⟩ addr)

end Gen

namespace Lowering

/-- The type arguments of a variant, and the arguments that were lowered to find them. -/
def variantArgs (l : Lowering) (d : EnumDef) (variant : VariantDef) (path : Path)
    (args : List Expr) (span : Span) (expected : Option Ty) :
    Gen (List Ty × List (Option Value)) := do
  if d.generics.isEmpty then return ([], [])
  let (resolution, early) ←
    l.bindItem d.generics path.args variant.payload args [d.selfType] expected (.prim .i32)
  Gen.reportDefaulted (d.name ++ "::" ++ variant.name) resolution span
  return (resolution.args, early)

/-- Make a value of a variant with a given tag. -/
def makeVariant (l : Lowering) (d : EnumDef) (tag : Nat) (variant : VariantDef) (path : Path)
    (args : List Expr) (span : Span) (expected : Option Ty) : Gen Value := do
  let (typeArgs, early) ← l.variantArgs d variant path args span expected
  let t := Ty.ofName d.name typeArgs
  let ir ← Gen.irType t
  if args.length ≠ variant.payload.length then
    l.evaluate args
    Gen.error .arity span
      ("variant `" ++ d.name ++ "::" ++ variant.name ++ "` takes " ++
        toString variant.payload.length ++ " value(s) but " ++ toString args.length ++
        " were supplied")
      "wrong number of payload values"
    return .placeholder ir t
  let payloadTypes := Ty.substList (.ofArgs d.generics typeArgs) variant.payload
  let payload ← l.arguments payloadTypes args early
  if (← Gen.program).isOpen t then return { operand := .int tag, ir, ty := t }
  let slot ← Gen.alloca ir
  let tagAddr ← Gen.member ir slot 0
  Gen.store .i32 (.int tag) tagAddr
  let isStored ←
    match d.payload? variant typeArgs with
    | some stored => do pure ((← Gen.sizeOf stored) != 0)
    | none => pure false
  if isStored then
    let payloadAddr ← Gen.member ir slot 1
    Gen.storePayload payload payloadAddr
  return { operand := ← Gen.load ir slot, ir, ty := t }

/-- The value of the variant that a path names; nothing if it names none. -/
def variant (l : Lowering) (path : Path) (args : List Expr) (span : Span) (expected : Option Ty) :
    Gen (Option Value) := do
  match (← Gen.program).variant? path with
  | none => return none
  | some (d, tag) =>
    match d.variants[tag]? with
    | none => return none
    | some v => return some (← l.makeVariant d tag v path args span expected)

end Lowering

end Monomorph
