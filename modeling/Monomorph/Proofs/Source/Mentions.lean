import Monomorph.Proofs.Source.Names
import Monomorph.Proofs.Ty.Substitution

/-!
# The types in the code of a closure

A closure body has no parameters of its own. The type parameters that it mentions are the unknown
names of the types that occur in it: of its parameters, its captures and its result, in annotations
and in path arguments. If the function around it binds unknown names only, then these names carry
all that its binding does to the types of the body.
-/

namespace Monomorph

open List

/-! ### Types that occur in code -/

mutual

/-- The types that occur in an expression: its own, path arguments and those of what it is made
of. -/
def Expr.types : Expr → List Ty
  | .lit note _ | .ident note _ | .functionRef note _ | .closure note _ _ => note.ty.toList
  | .path note path => note.ty.toList ++ path.args
  | .call note callee args => note.ty.toList ++ (callee.types ++ Expr.typesList args)
  | .methodCall note receiver _ args => note.ty.toList ++ (receiver.types ++ Expr.typesList args)
  | .field note object _ => note.ty.toList ++ object.types
  | .record note path inits base =>
      note.ty.toList ++ (path.args ++ (FieldInit.typesList inits ++ Expr.typesMaybe base))
  | .block note body => note.ty.toList ++ body.types

/-- The types that occur in an expression that may be missing. -/
def Expr.typesMaybe : Option Expr → List Ty
  | none => []
  | some e => e.types

/-- The types that occur in several expressions. -/
def Expr.typesList : List Expr → List Ty
  | [] => []
  | e :: es => e.types ++ Expr.typesList es

/-- The types that occur in field initialisers. -/
def FieldInit.typesList : List FieldInit → List Ty
  | [] => []
  | .mk _ value _ :: inits => value.types ++ FieldInit.typesList inits

/-- The types that occur in statements. -/
def Stmt.typesList : List Stmt → List Ty
  | [] => []
  | .bind _ ty init :: stmts => ty.toList ++ (init.types ++ Stmt.typesList stmts)
  | .assign target value _ :: stmts => target.types ++ (value.types ++ Stmt.typesList stmts)
  | .eval e :: stmts => e.types ++ Stmt.typesList stmts
  | .ret value :: stmts => Expr.typesMaybe value ++ Stmt.typesList stmts

/-- The types that occur in a block. -/
def Block.types : Block → List Ty
  | .mk stmts tail => Stmt.typesList stmts ++ Expr.typesMaybe tail

end

/-- The types that occur in the definition of a function. -/
def FunctionDef.types (f : FunctionDef) : List Ty :=
  f.params.map Param.ty ++ (f.captures.map Param.ty ++ (f.ret :: f.body.toList.flatMap Block.types))

namespace FunctionDef

variable {f : FunctionDef} {param : Param}

theorem ty_mem_types_of_mem_params (h : param ∈ f.params) : param.ty ∈ f.types :=
  mem_append_left _ (mem_map_of_mem h)

theorem ty_mem_types_of_mem_captures (h : param ∈ f.captures) : param.ty ∈ f.types :=
  mem_append_right _ (mem_append_left _ (mem_map_of_mem h))

theorem ret_mem_types (f : FunctionDef) : f.ret ∈ f.types :=
  mem_append_right _ (mem_append_right _ mem_cons_self)

end FunctionDef

namespace Program

variable (p : Program)

/-! ### Unknown names -/

theorem openNamesOption_eq_flatMap (t : Option Ty) :
    p.openNamesOption t = t.toList.flatMap p.openNames := by
  cases t with
  | none => rfl
  | some t => exact (flatMap_singleton ..).symm

mutual

/-- The unknown names in an expression are those of the types that occur in it. -/
theorem openNamesExpr_eq : (e : Expr) → p.openNamesExpr e = e.types.flatMap p.openNames
  | .lit note _ | .ident note _ | .functionRef note _ | .closure note _ _ =>
      p.openNamesOption_eq_flatMap note.ty
  | .path note path => by
      rw [openNamesExpr, Expr.types, flatMap_append, openNamesOption_eq_flatMap,
        openNamesList_eq_flatMap]
  | .call note callee args | .methodCall note callee _ args => by
      rw [openNamesExpr, Expr.types, flatMap_append, flatMap_append,
        openNamesOption_eq_flatMap, openNamesExpr_eq callee, openNamesExprs_eq args]
  | .field note object _ => by
      rw [openNamesExpr, Expr.types, flatMap_append, openNamesOption_eq_flatMap,
        openNamesExpr_eq object]
  | .record note path inits base => by
      rw [openNamesExpr, Expr.types, flatMap_append, flatMap_append, flatMap_append,
        openNamesOption_eq_flatMap, openNamesList_eq_flatMap, openNamesInits_eq inits,
        openNamesMaybe_eq base]
  | .block note body => by
      rw [openNamesExpr, Expr.types, flatMap_append, openNamesOption_eq_flatMap,
        openNamesBlock_eq body]

theorem openNamesMaybe_eq : (e : Option Expr) →
    p.openNamesMaybe e = (Expr.typesMaybe e).flatMap p.openNames
  | none => rfl
  | some e => openNamesExpr_eq e

theorem openNamesExprs_eq : (es : List Expr) →
    p.openNamesExprs es = (Expr.typesList es).flatMap p.openNames
  | [] => rfl
  | e :: es => by
      rw [openNamesExprs, Expr.typesList, flatMap_append, openNamesExpr_eq e, openNamesExprs_eq es]

theorem openNamesInits_eq : (inits : List FieldInit) →
    p.openNamesInits inits = (FieldInit.typesList inits).flatMap p.openNames
  | [] => rfl
  | .mk _ value _ :: inits => by
      rw [openNamesInits, FieldInit.typesList, flatMap_append, openNamesExpr_eq value,
        openNamesInits_eq inits]

theorem openNamesStmts_eq : (stmts : List Stmt) →
    p.openNamesStmts stmts = (Stmt.typesList stmts).flatMap p.openNames
  | [] => rfl
  | .bind _ ty init :: stmts => by
      rw [openNamesStmts, Stmt.typesList, flatMap_append, flatMap_append,
        openNamesOption_eq_flatMap, openNamesExpr_eq init, openNamesStmts_eq stmts]
  | .assign target value _ :: stmts => by
      rw [openNamesStmts, Stmt.typesList, flatMap_append, flatMap_append,
        openNamesExpr_eq target, openNamesExpr_eq value, openNamesStmts_eq stmts]
  | .eval e :: stmts => by
      rw [openNamesStmts, Stmt.typesList, flatMap_append, openNamesExpr_eq e,
        openNamesStmts_eq stmts]
  | .ret value :: stmts => by
      rw [openNamesStmts, Stmt.typesList, flatMap_append, openNamesMaybe_eq value,
        openNamesStmts_eq stmts]

theorem openNamesBlock_eq : (body : Block) → p.openNamesBlock body = body.types.flatMap p.openNames
  | .mk stmts tail => by
      rw [openNamesBlock, Block.types, flatMap_append, openNamesStmts_eq stmts,
        openNamesMaybe_eq tail]

end

/-- The parameters of a closure body are the unknown names of the types that occur in it. -/
theorem mem_closureParams {f : FunctionDef} {name : String} :
    name ∈ p.closureParams f ↔ ∃ t ∈ f.types, name ∈ p.openNames t := by
  rw [closureParams, Sorted.mem_distinct, ← mem_flatMap, FunctionDef.types,
    flatMap_append, flatMap_append, flatMap_cons, openNamesList_eq_flatMap,
    openNamesList_eq_flatMap]
  cases f.body with
  | none => rfl
  | some body =>
    dsimp only
    rw [Option.toList_some, flatMap_singleton, openNamesBlock_eq]

end Program

/-! ### Binding the unknown names again -/

/-- Names bound to what a function makes of them. -/
theorem Bindings.find?_ofArgs_map (names : List String) (g : String → Ty) (name : String) :
    (ofArgs names (names.map g)).find? name = if name ∈ names then some (g name) else none := by
  have hfold : ∀ (names : List String) (b : Bindings),
      ((names.zip (names.map g)).foldl (fun acc entry => acc.insert entry.1 entry.2) b).find?
        name = if name ∈ names then some (g name) else b.find? name := by
    intro names
    induction names with
    | nil => exact fun _ => rfl
    | cons other names ih =>
      intro b
      rw [map_cons, zip_cons_cons, foldl_cons, ih, find?_insert]
      by_cases hmem : name ∈ names
      · rw [if_pos hmem, if_pos (mem_cons_of_mem _ hmem)]
      · by_cases heq : name = other
        · rw [if_neg hmem, if_pos heq, if_pos (heq ▸ mem_cons_self), heq]
        · rw [if_neg hmem, if_neg heq, if_neg fun h => (mem_cons.1 h).elim heq hmem]
  exact hfold names empty

/-- Bind names again, each to what a binding makes of it. -/
def Bindings.rebind (b : Bindings) (names : List String) : Bindings :=
  ofArgs names (names.map fun name => (Ty.param name).subst b)

namespace Program

variable {p : Program} {b : Bindings} {names : List String}
  (hb : ∀ name t, b.find? name = some t → p.knowsType name = false)
  (hnames : ∀ name ∈ names, p.knowsType name = false)

include hb hnames

/-- Where a binding binds unknown names only, binding the unknown names of a type again replaces the
type as the binding does, up to qualifiers. -/
theorem unqualified_subst_rebind {t : Ty} (h : ∀ name ∈ p.openNames t, name ∈ names) :
    (t.subst (b.rebind names)).unqualified = (t.subst b).unqualified := by
  induction t using Ty.induction_leaves with
  | leaf qualifier name =>
    rw [Ty.subst_param, Ty.subst_param, Bindings.rebind, Bindings.find?_ofArgs_map]
    by_cases hknown : p.knowsType name = true
    · -- a known name is bound by neither
      have hnot : name ∉ names := fun hmem =>
        Bool.false_ne_true ((hnames name hmem).symm.trans hknown)
      have hnone : b.find? name = none := by
        cases hfind : b.find? name with
        | none => rfl
        | some t => exact absurd ((hb name t hfind).symm.trans hknown) Bool.false_ne_true
      rw [if_neg hnot, hnone]
    · have hmem : name ∈ names := by
        refine h name ?_
        rw [openNames, isEmpty_nil, if_pos rfl, if_neg hknown]
        exact mem_singleton_self name
      rw [if_pos hmem, Ty.param, Ty.subst_param]
      cases b.find? name <;> rfl
  | step t hleaf ih =>
    rw [p.openNames_of_leaf?_eq_none hleaf, forall_mem_flatMap] at h
    rw [Ty.subst_of_leaf?_eq_none hleaf, Ty.subst_of_leaf?_eq_none hleaf, Ty.unqualified_eq,
      Ty.unqualified_eq, Ty.mapChildren_mapChildren, Ty.mapChildren_mapChildren]
    rw [Ty.mapChildren_congr fun part hpart => ih part hpart (h part hpart)]

end Program

end Monomorph
