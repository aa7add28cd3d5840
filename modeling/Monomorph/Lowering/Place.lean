import Monomorph.Lowering.Steps

/-!
# Places and fields

A local name and a field of an object have an address of their own; any other expression is put
in a stack slot first. A field is looked for in the type of the object and, while that is a
pointer-like wrapper without such a field, in its payload.
-/

namespace Monomorph

/-- Where the object is in which a field is looked for. -/
inductive Cursor
  /-- At an address. -/
  | addr (addr : IR.Operand)
  /-- The object is the pointer itself. -/
  | pointer (operand : IR.Operand)
  deriving DecidableEq, Inhabited

/-- The address or the pointer. -/
def Cursor.operand : Cursor → IR.Operand
  | .addr operand | .pointer operand => operand

namespace Gen

/-- Step through the base blocks of the given ancestors, nearest first. -/
def throughBases (block : IR.Operand) (blockType : IR.Ty) :
    List ClassDef → Gen (IR.Operand × IR.Ty)
  | [] => pure (block, blockType)
  | ancestor :: ancestors => do
      let base ← member blockType block 0
      let baseType ← classStruct ancestor.name []
      throughBases base baseType ancestors

/-- The classes of a chain up to and including the first that declares a field. -/
def untilField? (field : String) : List ClassDef → Option (List ClassDef × ClassDef × Nat)
  | [] => none
  | d :: ds =>
      match d.fieldIndex? field with
      | some index => some ([], d, index)
      | none => (untilField? field ds).map fun found => (d :: found.1, found.2)

/-- The field of a class instance in the nearest class that declares it. Slot zero of every block
is the base block or the pointer to the dispatch table. -/
def classField? (object : IR.Operand) (name : String) (args : List Ty) (field : String) :
    Gen (Option Place) := do
  match untilField? field ((← program).classChain name) with
  | none => return none
  | some (below, owner, index) =>
      let struct ← classStruct name args
      let (block, blockType) ← throughBases object struct ((below ++ [owner]).drop 1)
      let ownerArgs := if below.isEmpty then args else []
      let addr ← member blockType block (index + 1)
      return ((owner.fieldTypes ownerArgs)[index]?).map fun t => ⟨addr, t⟩

/-- The pointer that a cursor holds or is. -/
def pointerAt : Cursor → Gen IR.Operand
  | .addr addr => load .ptr addr
  | .pointer operand => pure operand

/-- Step from a wrapper to its payload. -/
def peel (cursor : Cursor) (wrapperTy : Ty) (wrapper : Wrapper) (payload : Ty) : Gen Cursor := do
  match wrapper with
  | .raw => return .addr (← pointerAt cursor)
  | .owned | .counted =>
      let boxed ←
        match cursor with
        | .addr addr => do
            let slot ← member (← irType wrapperTy) addr 0
            load .ptr slot
        | .pointer operand => pure operand
      match wrapper.payloadIndex? with
      | some index => return .addr (← member (← countedBlock payload) boxed index)
      | none => return .addr boxed

/-- The field of a struct, union or class, without looking through wrappers. -/
def directField? (cursor : Cursor) (t : Ty) (field : String) : Gen (Option Place) := do
  let p ← program
  match t.declared? with
  | none => return none
  | some (name, args) =>
    match p.struct? name with
    | some d =>
      match d.fieldIndex? field with
      | none => return none
      | some index =>
          let struct ← irType t
          let addr ←
            if d.isUnion then pure cursor.operand else member struct cursor.operand index
          return ((d.fieldTypes args)[index]?).map fun t => ⟨addr, t⟩
    | none =>
      match p.class? name with
      | some d =>
          let object ← if d.isValue then pure cursor.operand else pointerAt cursor
          classField? object name args field
      | none => return none

/-- The field of an object, looked for in the object and then in the payload of at most `layers`
wrappers around each other. -/
def fieldWithin (field : String) (span : Span) : Nat → Cursor → Ty → Gen (Option Place)
  | layers, cursor, t => do
      match ← directField? cursor t field with
      | some place => return some place
      | none =>
        match layers, Wrapper.ofTy? t with
        | layers + 1, some (wrapper, payload) => do
            let inner ← peel cursor t wrapper payload
            discard <| irType payload
            fieldWithin field span layers inner payload
        | _, _ => do
            error .field span ("no field `" ++ field ++ "` on type `" ++ t.text ++ "`")
              "unknown field"
            return none

/-- The field of an object, looked for through all its wrapper layers. -/
def fieldOf (cursor : Cursor) (t : Ty) (field : String) (span : Span) : Gen (Option Place) :=
  fieldWithin field span (Wrapper.depth t) cursor t

end Gen

namespace Lowering

/-- The object of a field access: a name without an address stands for its pointer, and any other
object is at the place that `placeOf` gives. -/
def objectCursor (placeOf : Gen (Option Place)) (object : Expr) : Gen (Option (Cursor × Ty)) := do
  let found ←
    match object with
    | .ident _ name => Gen.findLocal? name
    | _ => pure none
  match found with
  | some { storage := .direct operand, ty, .. } => return some (.pointer operand, ty)
  | _ => return (← placeOf).map fun place => (.addr place.addr, place.ty)

/-- The place of a field of an object whose own place is given. -/
def fieldFrom (placeOf : Gen (Option Place)) (object : Expr) (field : String) (span : Span) :
    Gen (Option Place) := do
  match ← objectCursor placeOf object with
  | none => return none
  | some (cursor, t) => Gen.fieldOf cursor t field span

/-- The place of an expression: names and fields where they are, anything else in a new stack
slot. -/
def place (l : Lowering) : Expr → Gen (Option Place)
  | .ident note name => do
      match ← Gen.findLocal? name with
      | some { storage := .slot addr, ty, .. } => return some ⟨addr, ty⟩
      | some { storage := .direct operand, ty, ir, .. } =>
          return some (← Gen.spill { operand, ir, ty })
      | none => return some (← Gen.spill (← l.expr (.ident note name) none))
  | .field note object name => fieldFrom (l.place object) object name note.span
  | e => do return some (← Gen.spill (← l.expr e none))

/-- The place of a field of an object. -/
def fieldPlace (l : Lowering) (object : Expr) (field : String) (span : Span) :
    Gen (Option Place) :=
  fieldFrom (l.place object) object field span

/-- The value of a field. -/
def fieldValue (l : Lowering) (note : Note) (object : Expr) (field : String) : Gen Value := do
  match ← l.fieldPlace object field note.span with
  | none =>
      let t := (note.ty.map l.subst).getD (.prim .i32)
      return .placeholder (← Gen.irType t) t
  | some place =>
      let ir ← Gen.irType place.ty
      return { operand := ← Gen.load ir place.addr, ir, ty := place.ty }

end Lowering

end Monomorph
