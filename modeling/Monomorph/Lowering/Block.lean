import Monomorph.Lowering.Place

/-!
# Statements and blocks

A statement binds a local, stores in a place, evaluates an expression or returns. Code after a
return stands in a block of its own that is never reached.
-/

namespace Monomorph

namespace Lowering

/-- Return a value as the result type asks. -/
def emitReturn (l : Lowering) (value : Value) : Gen Unit := do
  let ir ← Gen.returnType l.result
  Gen.emit (.ret (if ir.isVoid then none else some ⟨ir, value.operand⟩))

/-- Bind a new local name to a value, in a slot of the declared type. -/
def bindStatement (l : Lowering) (name : String) (ty : Option Ty) (init : Expr) : Gen Unit := do
  let declared := ty.map l.subst
  let value ← l.expr init declared
  let (t, ir) ←
    match declared with
    | some t => do pure (t, ← Gen.irType t)
    | none => pure (value.ty, value.ir)
  let addr ← Gen.alloca ir
  Gen.store ir value.operand addr
  Gen.bindLocal name { storage := .slot addr, ty := t, ir, conv := value.conv }

/-- The place that an assignment stores in, with the name of the local that it belongs to. -/
def targetPlace? (l : Lowering) (target : Expr) (span : Span) :
    Gen (Option (Place × Option String)) := do
  match target with
  | .ident note name =>
      match ← Gen.findLocal? name with
      | some { storage := .slot addr, ty, .. } => return some (⟨addr, ty⟩, some name)
      | some { storage := .direct _, .. } =>
          Gen.error .badShape span ("cannot assign to `" ++ name ++ "`") "not assignable"
          return none
      | none =>
          Gen.error .unknownName note.span ("unknown local `" ++ name ++ "`")
            "not found in this scope"
          return none
  | .field note object field =>
      return (← l.fieldPlace object field note.span).map fun place => (place, none)
  | _ =>
      Gen.error .badShape span "invalid assignment target" "cannot assign to this expression"
      return none

/-- Store a value in a place. -/
def assign (l : Lowering) (target value : Expr) (span : Span) : Gen Unit := do
  match ← l.targetPlace? target span with
  | none => discard <| l.expr value none
  | some (place, name) =>
      let result ← l.expr value (some place.ty)
      let ir ← Gen.irType place.ty
      Gen.store ir result.operand place.addr
      match name with
      | some name => Gen.storeConv name result.conv
      | none => pure ()

/-- A statement. -/
def statement (l : Lowering) : Stmt → Gen Unit
  | .bind name ty init => l.bindStatement name ty init
  | .assign target value span => l.assign target value span
  | .eval e => discard <| l.expr e none
  | .ret value => do
      let result ←
        match value with
        | some e => l.expr e (some l.result)
        | none => pure .unit
      l.emitReturn result
      Gen.deadBlock

/-- A block, whose value is that of its last expression. -/
def block (l : Lowering) (body : Block) (expected : Option Ty) : Gen Value := do
  body.stmts.forM l.statement
  match body.tail with
  | some e => l.expr e expected
  | none => return .unit

end Lowering

end Monomorph
