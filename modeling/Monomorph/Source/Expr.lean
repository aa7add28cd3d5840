import Monomorph.Source.Span
import Monomorph.Ty.Basic

/-!
# Expressions

The resolved expression tree. Every expression carries its span and, where the type checker left
one, its type; a missing type is inferred where it is needed.
-/

namespace Monomorph

/-- A literal value; a floating-point literal is given by the bits of a double. -/
inductive Literal
  | int (value : Int)
  | float (bits : UInt64)
  | bool (value : Bool)
  | str (value : String)
  | unit
  deriving DecidableEq, Inhabited

/-- A path of segments with explicit type arguments for the item that it names. -/
structure Path where
  /-- The segments, outermost first. -/
  segments : List String
  /-- The explicit type arguments. -/
  args : List Ty := []
  deriving DecidableEq, Inhabited

namespace Path

/-- The path of one segment. -/
def single (name : String) : Path := ⟨[name], []⟩

/-- The last segment. -/
def last? (p : Path) : Option String := p.segments.getLast?

/-- The segments before the last, joined; none for a path of fewer than two segments. -/
def qualifier? (p : Path) : Option String :=
  if p.segments.length ≤ 1 then none else some (String.intercalate "::" p.segments.dropLast)

/-- All segments, joined. -/
def joined (p : Path) : String := String.intercalate "::" p.segments

end Path

/-- What every expression carries: its place in the source and its type, if known. -/
structure Note where
  /-- The place in the source. -/
  span : Span := .dummy
  /-- The type that the type checker found. -/
  ty : Option Ty := none
  deriving DecidableEq, Inhabited

mutual

/-- A resolved expression. -/
inductive Expr
  | lit (note : Note) (value : Literal)
  /-- A bare name. -/
  | ident (note : Note) (name : String)
  /-- A path in value position. -/
  | path (note : Note) (path : Path)
  /-- A call of a callee expression. -/
  | call (note : Note) (callee : Expr) (args : List Expr)
  | methodCall (note : Note) (receiver : Expr) (method : String) (args : List Expr)
  /-- A field of an object. -/
  | field (note : Note) (object : Expr) (name : String)
  /-- A struct, union or class literal, possibly filled up from a base value. -/
  | record (note : Note) (path : Path) (inits : List FieldInit) (base : Option Expr)
  /-- A named function as a value. -/
  | functionRef (note : Note) (name : String)
  /-- A closure over captured names; `body` names the function that holds its code. -/
  | closure (note : Note) (body : String) (captures : List String)
  /-- A block as an expression. -/
  | block (note : Note) (body : Block)

/-- An initialiser of one field in a literal. -/
inductive FieldInit
  | mk (name : String) (value : Expr) (span : Span)

/-- A statement. -/
inductive Stmt
  /-- Bind a new local name. -/
  | bind (name : String) (ty : Option Ty) (init : Expr)
  /-- Store a value in a place. -/
  | assign (target value : Expr) (span : Span)
  /-- Evaluate for effect. -/
  | eval (expr : Expr)
  /-- Return from the function. -/
  | ret (value : Option Expr)

/-- Statements and the expression whose value the block has. -/
inductive Block
  | mk (stmts : List Stmt) (tail : Option Expr)

end

/-- The name that an initialiser sets. -/
def FieldInit.name : FieldInit → String
  | .mk name _ _ => name

/-- The value that an initialiser gives. -/
def FieldInit.value : FieldInit → Expr
  | .mk _ value _ => value

/-- The place of an initialiser in the source. -/
def FieldInit.span : FieldInit → Span
  | .mk _ _ span => span

/-- The statements of a block. -/
def Block.stmts : Block → List Stmt
  | .mk stmts _ => stmts

/-- The value expression of a block. -/
def Block.tail : Block → Option Expr
  | .mk _ tail => tail

instance : Inhabited Expr := ⟨.lit {} .unit⟩

instance : Inhabited Block := ⟨.mk [] none⟩

namespace Expr

/-- What an expression carries. -/
def note : Expr → Note
  | lit note _ | ident note _ | path note _ | call note _ _ | methodCall note _ _ _
  | field note _ _ | record note _ _ _ | functionRef note _ | closure note _ _
  | block note _ => note

/-- The place of an expression in the source. -/
def span (e : Expr) : Span := e.note.span

/-- The type that the type checker gave an expression. -/
def ty (e : Expr) : Option Ty := e.note.ty

end Expr

end Monomorph
