import Monomorph.Lowering.Construct.Object
import Monomorph.Lowering.Place

/-!
# Struct, union and class literals

A struct literal is made in a stack slot: the base value first, stored whole, then the listed
fields, then the declared defaults of fields that neither the literal nor a base provides. A union
literal stores its one field at the start. A class literal makes an instance and fills its fields
where they are.
-/

namespace Monomorph

namespace Lowering

/-- Bind parameters by the initialisers of a literal whose type shows. -/
def inferInits (l : Lowering) (decls : List FieldDef) (binder : Binder) :
    List FieldInit → Gen Binder
  | [] => pure binder
  | init :: inits => do
      let binder ←
        match decls.find? fun decl => decl.name = init.name with
        | none => pure binder
        | some decl => do
            match ← l.evidentType init.value with
            | some t => pure (binder.infer decl.ty t)
            | none => pure binder
      l.inferInits decls binder inits

/-- The binder of a literal: the explicit arguments, then what the initialisers show, then what the
base shows, then what the context expects. -/
def recordBinder (l : Lowering) (item : String) (generics : List String) (decls : List FieldDef)
    (path : Path) (inits : List FieldInit) (base : Option Expr) (expected : Option Ty) :
    Gen Binder := do
  let selfTy := Ty.ofName item (generics.map .param)
  let binder := ({ params := generics } : Binder).explicitly (path.args.map l.subst)
  let binder ← l.inferInits decls binder inits
  let baseTy ←
    match base with
    | some e => l.evidentType e
    | none => pure none
  let binder :=
    match baseTy with
    | some t => binder.infer selfTy t
    | none => binder
  match expected with
  | some t => return binder.expect selfTy t
  | none => return binder

/-- The type arguments of a literal: what its binder resolves to, with the unit type for parameters
that it leaves open. -/
def recordArgs (l : Lowering) (item : String) (generics : List String) (decls : List FieldDef)
    (path : Path) (inits : List FieldInit) (base : Option Expr) (span : Span)
    (expected : Option Ty) : Gen (List Ty) := do
  if generics.isEmpty then return []
  let binder ← l.recordBinder item generics decls path inits base expected
  let resolution := binder.resolve (.prim .unit)
  Gen.reportDefaulted item resolution span
  return resolution.args

/-- The operand of an expression brought to the type of a field, and how it is represented. -/
def fieldOperand (l : Lowering) (e : Expr) (t : Ty) : Gen IR.Typed := do
  let ir ← Gen.irType t
  let value ← Gen.convertTo (← l.expr e (some t)) t ir
  return ⟨ir, value.operand⟩

/-- Store a value in a member of the aggregate at an address. -/
def storeMember (l : Lowering) (e : Expr) (t : Ty) (agg : IR.Ty) (slot : IR.Operand)
    (index : Nat) : Gen Unit := do
  let value ← l.fieldOperand e t
  let addr ← Gen.member agg slot index
  Gen.emit (.store value addr)

/-- Store a value at a place. -/
def storePlace (l : Lowering) (e : Expr) (place : Place) : Gen Unit := do
  let value ← l.fieldOperand e place.ty
  Gen.emit (.store value place.addr)

/-- Report a field that a literal leaves out. -/
def missingField (field item : String) (span : Span) : Gen Unit :=
  Gen.error .field span ("missing field `" ++ field ++ "` in literal of `" ++ item ++ "`")
    "field not initialized"

/-! ### Structs -/

/-- Store the listed fields of a struct literal, and give the positions that were stored. -/
def storeInits (l : Lowering) (d : StructDef) (types : List Ty) (struct : IR.Ty)
    (slot : IR.Operand) : List FieldInit → Gen (List Nat)
  | [] => pure []
  | init :: inits => do
      match (d.fieldIndex? init.name).bind fun index => types[index]?.map fun t => (index, t) with
      | none =>
          discard <| l.expr init.value none
          Gen.error .field init.span
            ("struct `" ++ d.name ++ "` has no field `" ++ init.name ++ "`") "unknown field"
          l.storeInits d types struct slot inits
      | some (index, t) =>
          l.storeMember init.value t struct slot index
          let written ← l.storeInits d types struct slot inits
          return index :: written

/-- Store the defaults of the fields that were not written; `index` is the position of the first
field. -/
def storeDefaults (l : Lowering) (item : String) (struct : IR.Ty) (slot : IR.Operand)
    (written : List Nat) (span : Span) : Nat → List (FieldDef × Ty) → Gen Unit
  | _, [] => pure ()
  | index, (decl, t) :: rest => do
      if !written.contains index then
        match decl.default with
        | some e => l.storeMember e t struct slot index
        | none => missingField decl.name item span
      l.storeDefaults item struct slot written span (index + 1) rest

/-- The value of a struct literal. -/
def structLiteral (l : Lowering) (d : StructDef) (args : List Ty) (inits : List FieldInit)
    (base : Option Expr) (span : Span) : Gen Value := do
  let t := Ty.ofName d.name args
  let struct ← Gen.irType t
  let types := d.fieldTypes args
  let slot ← Gen.alloca struct
  match base with
  | some e => do
      let value ← l.expr e (some t)
      Gen.store value.ir value.operand slot
  | none => pure ()
  let written ← l.storeInits d types struct slot inits
  if base.isNone then
    l.storeDefaults d.name struct slot written span 0 (d.fields.zip types)
  return { operand := ← Gen.load struct slot, ir := struct, ty := t }

/-! ### Unions -/

/-- The value of a union literal, which sets exactly one field. -/
def unionLiteral (l : Lowering) (d : StructDef) (args : List Ty) (inits : List FieldInit)
    (base : Option Expr) (span : Span) : Gen Value := do
  let t := Ty.ofName d.name args
  let struct ← Gen.irType t
  match inits with
  | [init] =>
      if base.isSome then
        Gen.error .unionLiteral span
          ("union `" ++ d.name ++ "` literal cannot use `..base`") "union literal"
      match (d.fieldIndex? init.name).bind fun index => (d.fieldTypes args)[index]? with
      | none =>
          discard <| l.expr init.value none
          Gen.error .field init.span
            ("union `" ++ d.name ++ "` has no field `" ++ init.name ++ "`") "unknown field"
          return .placeholder struct t
      | some fieldTy =>
          let ir ← Gen.irType fieldTy
          let slot ← Gen.alloca struct
          let value ← Gen.convertTo (← l.expr init.value (some fieldTy)) fieldTy ir
          Gen.store ir value.operand slot
          return { operand := ← Gen.load struct slot, ir := struct, ty := t }
  | _ =>
      l.evaluate (inits.map FieldInit.value)
      Gen.error .unionLiteral span
        ("union `" ++ d.name ++ "` literal must set exactly one field, found " ++
          toString inits.length)
        "union literal"
      return .placeholder struct t

/-! ### Classes -/

/-- Fill the listed fields of a class literal, and give the names that were stored. -/
def fillInits (l : Lowering) (d : ClassDef) (args : List Ty) (object : IR.Operand) :
    List FieldInit → Gen (List String)
  | [] => pure []
  | init :: inits => do
      match ← Gen.classField? object d.name args init.name with
      | none =>
          discard <| l.expr init.value none
          Gen.error .field init.span
            ("class `" ++ d.name ++ "` has no field `" ++ init.name ++ "`") "unknown field"
          l.fillInits d args object inits
      | some place =>
          l.storePlace init.value place
          let written ← l.fillInits d args object inits
          return init.name :: written

/-- Fill one field that a class literal does not list with its default. -/
def fillDefault (l : Lowering) (d : ClassDef) (args : List Ty) (object : IR.Operand)
    (span : Span) (decl : FieldDef) : Gen Unit := do
  match decl.default with
  | none => missingField decl.name d.name span
  | some e =>
    match ← Gen.classField? object d.name args decl.name with
    | some place => l.storePlace e place
    | none => pure ()

/-- The value of a class literal. -/
def classLiteral (l : Lowering) (d : ClassDef) (args : List Ty) (inits : List FieldInit)
    (span : Span) : Gen Value := do
  let object ← Gen.newInstance d args
  let written ← l.fillInits d args object inits
  let unlisted := ((← Gen.program).classChain d.name).flatMap fun owner =>
    owner.fields.filter fun decl => !written.contains decl.name
  unlisted.forM (l.fillDefault d args object span)
  Gen.instanceValue d args object

/-! ### Literals -/

/-- The value of a struct, union or class literal. -/
def record (l : Lowering) (path : Path) (inits : List FieldInit) (base : Option Expr) (span : Span)
    (expected : Option Ty) : Gen Value := do
  let p ← Gen.program
  let name := path.joined
  match p.struct? name with
  | some d =>
      let args ← l.recordArgs d.name d.generics d.fields path inits base span expected
      if d.isUnion then l.unionLiteral d args inits base span
      else l.structLiteral d args inits base span
  | none =>
    match p.class? name with
    | some d =>
        let args ← l.recordArgs d.name d.generics d.fields path inits base span expected
        l.classLiteral d args inits span
    | none =>
        l.evaluate (inits.map FieldInit.value)
        Gen.error .unknownItem span ("unknown struct `" ++ name ++ "`")
          "no struct, union or class with this name"
        let t := expected.getD (.prim .unit)
        return .placeholder (← Gen.irType t) t

end Lowering

end Monomorph
