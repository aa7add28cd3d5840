import Monomorph.Source.Program
import Monomorph.Text.Sorted

/-!
# Open types

After substitution, a generic parameter that stayed unbound shows up as the name of no known
type. A type with such a name is open, and nothing can be generated for it yet. A closure body
has no parameters of its own; the open names in its code belong to the function around it, and
its instances are told apart by what they stand for.
-/

namespace Monomorph

namespace Program

variable (p : Program)

mutual

/-- Whether a type has a nominal leaf that the program does not know. -/
def isOpen : Ty → Bool
  | .prim _ | .classRef _ => false
  | .named _ name args => if args.isEmpty then !p.knowsType name else isOpenList args
  | .dyn _ args | .tuple args => isOpenList args
  | .ref _ inner | .ptr inner | .slice inner | .array inner _ => isOpen inner
  | .func params ret | .closure params ret => isOpenList params || isOpen ret

/-- Whether one of the types is open. -/
def isOpenList : List Ty → Bool
  | [] => false
  | t :: ts => isOpen t || isOpenList ts

end

theorem isOpenList_eq_any (ts : List Ty) : p.isOpenList ts = ts.any p.isOpen := by
  induction ts with
  | nil => rfl
  | cons t ts ih => simp [isOpenList, ih]

mutual

/-- The nominal leaves of a type that the program does not know, from left to right. -/
def openNames : Ty → List String
  | .prim _ | .classRef _ => []
  | .named _ name args =>
      if args.isEmpty then (if p.knowsType name then [] else [name]) else openNamesList args
  | .dyn _ args | .tuple args => openNamesList args
  | .ref _ inner | .ptr inner | .slice inner | .array inner _ => openNames inner
  | .func params ret | .closure params ret => openNamesList params ++ openNames ret

/-- The unknown leaves of several types. -/
def openNamesList : List Ty → List String
  | [] => []
  | t :: ts => openNames t ++ openNamesList ts

end

/-- The unknown leaves of a type that may be missing. -/
def openNamesOption (t : Option Ty) : List String :=
  match t with
  | none => []
  | some t => p.openNames t

mutual

/-- The unknown type names in an expression: in its own type, in path arguments and in what it is
made of. -/
def openNamesExpr : Expr → List String
  | .lit note _ | .ident note _ | .functionRef note _ | .closure note _ _ =>
      p.openNamesOption note.ty
  | .path note path => p.openNamesOption note.ty ++ p.openNamesList path.args
  | .call note callee args =>
      p.openNamesOption note.ty ++ (openNamesExpr callee ++ openNamesExprs args)
  | .methodCall note receiver _ args =>
      p.openNamesOption note.ty ++ (openNamesExpr receiver ++ openNamesExprs args)
  | .field note object _ => p.openNamesOption note.ty ++ openNamesExpr object
  | .record note path inits base =>
      p.openNamesOption note.ty ++
        (p.openNamesList path.args ++ (openNamesInits inits ++ openNamesMaybe base))
  | .block note body => p.openNamesOption note.ty ++ openNamesBlock body

/-- The unknown type names in an expression that may be missing. -/
def openNamesMaybe : Option Expr → List String
  | none => []
  | some e => openNamesExpr e

/-- The unknown type names in several expressions. -/
def openNamesExprs : List Expr → List String
  | [] => []
  | e :: es => openNamesExpr e ++ openNamesExprs es

/-- The unknown type names in field initialisers. -/
def openNamesInits : List FieldInit → List String
  | [] => []
  | .mk _ value _ :: inits => openNamesExpr value ++ openNamesInits inits

/-- The unknown type names in statements. -/
def openNamesStmts : List Stmt → List String
  | [] => []
  | .bind _ ty init :: stmts =>
      p.openNamesOption ty ++ (openNamesExpr init ++ openNamesStmts stmts)
  | .assign target value _ :: stmts =>
      openNamesExpr target ++ (openNamesExpr value ++ openNamesStmts stmts)
  | .eval e :: stmts => openNamesExpr e ++ openNamesStmts stmts
  | .ret value :: stmts => openNamesMaybe value ++ openNamesStmts stmts

/-- The unknown type names in a block. -/
def openNamesBlock : Block → List String
  | .mk stmts tail => openNamesStmts stmts ++ openNamesMaybe tail

end

/-- The type parameters that a closure body mentions, in increasing order. -/
def closureParams (f : FunctionDef) : List String :=
  Sorted.distinct (p.openNamesList (f.params.map Param.ty) ++
    (p.openNamesList (f.captures.map Param.ty) ++ (p.openNames f.ret ++
      match f.body with
      | none => []
      | some body => p.openNamesBlock body)))

end Program

end Monomorph
