import Mathlib.Logic.Relation
import Monomorph.Proofs.Source.Names

/-!
# The expressions in the code of a function

Lowering a function lowers its body and, part by part, the expressions in it. It also lowers the
defaults of the fields that literals leave out, and the names that closures capture.
-/

namespace Monomorph

open List

/-- The expressions that a statement is made of. -/
def Stmt.parts : Stmt → List Expr
  | bind _ _ init => [init]
  | assign target value _ => [target, value]
  | eval e => [e]
  | ret value => value.toList

/-- The expressions that an expression is made of. -/
def Expr.parts : Expr → List Expr
  | lit .. | ident .. | path .. | functionRef .. | closure .. => []
  | call _ callee args => callee :: args
  | methodCall _ receiver _ args => receiver :: args
  | field _ object _ => [object]
  | record _ _ inits base => inits.map FieldInit.value ++ base.toList
  | block _ body => body.stmts.flatMap Stmt.parts ++ body.tail.toList

theorem Stmt.Over.part {P : Vocabulary} {stmt : Stmt} {part : Expr} (h : stmt.Over P)
    (hpart : part ∈ stmt.parts) : part.Over P := by
  cases stmt with
  | bind name ty init => exact mem_singleton.1 hpart ▸ h.2
  | assign target value span =>
    exact forall_mem_cons.2 ⟨h.1, forall_mem_singleton.2 h.2⟩ part hpart
  | eval e => exact mem_singleton.1 hpart ▸ h
  | ret value =>
    cases value with
    | none => cases hpart
    | some e => exact mem_singleton.1 hpart ▸ h

theorem Expr.Over.part {P : Vocabulary} {whole part : Expr} (h : whole.Over P)
    (hpart : part ∈ whole.parts) : part.Over P := by
  cases whole with
  | lit | ident | path | functionRef | closure => cases hpart
  | call | methodCall =>
    exact forall_mem_cons.2 ⟨h.2.1, Expr.overList_iff.1 h.2.2⟩ part hpart
  | field note object field => exact mem_singleton.1 hpart ▸ h.2
  | record note path inits base =>
    obtain hpart | hpart := mem_append.1 hpart
    · obtain ⟨init, hinit, rfl⟩ := mem_map.1 hpart
      exact Expr.overInits_iff.1 h.2.2.2.1 init hinit
    · exact Expr.overMaybe_iff.1 h.2.2.2.2 part (Option.mem_toList.1 hpart)
  | block note body =>
    obtain ⟨hstmts, htail⟩ := Block.over_iff.1 h.2
    obtain hpart | hpart := mem_append.1 hpart
    · obtain ⟨stmt, hstmt, hpart⟩ := mem_flatMap.1 hpart
      exact (hstmts stmt hstmt).part hpart
    · exact htail part (Option.mem_toList.1 hpart)

/-! ### Defaults in literals -/

/-- The positions of the fields that a literal lists. -/
def StructDef.listed (d : StructDef) (inits : List FieldInit) : List Nat :=
  inits.filterMap fun init => d.fieldIndex? init.name

theorem StructDef.listed_cons (d : StructDef) (init : FieldInit) (inits : List FieldInit) :
    d.listed (init :: inits) = (d.fieldIndex? init.name).toList ++ d.listed inits := by
  rw [listed, filterMap_cons]
  cases d.fieldIndex? init.name <;> rfl

/-- The fields that a class and its ancestors declare and a literal does not list. -/
def Program.unlisted (p : Program) (d : ClassDef) (inits : List FieldInit) : List FieldDef :=
  ((p.classChain d.name).flatMap ClassDef.fields).filter fun decl =>
    inits.all fun init => init.name ≠ decl.name

/-- The defaults that are lowered with a literal, for the fields that it leaves out. -/
def Program.spliced (p : Program) (path : Path) (inits : List FieldInit) (base : Option Expr) :
    List Expr :=
  match p.struct? path.joined with
  | some d =>
      if d.isUnion || base.isSome then []
      else (d.fields.zipIdx.filter fun entry => !(d.listed inits).contains entry.2).filterMap
        fun entry => entry.1.default
  | none =>
    match p.class? path.joined with
    | some d => (p.unlisted d inits).filterMap FieldDef.default
    | none => []

/-- A field of a struct that a literal without a base leaves out is filled with its default. -/
theorem Program.mem_spliced_of_struct? {p : Program} {path : Path} {inits : List FieldInit}
    {d : StructDef} (hd : p.struct? path.joined = some d) (hunion : d.isUnion = false)
    {decl : FieldDef} {i : Nat} (hdecl : d.fields[i]? = some decl)
    (hlisted : (d.listed inits).contains i = false) {e : Expr} (he : decl.default = some e) :
    e ∈ p.spliced path inits none := by
  simp only [spliced, hd, hunion, Option.isSome_none, Bool.or_self, Bool.false_eq_true, if_false]
  refine mem_filterMap.2 ⟨(decl, i), mem_filter.2 ⟨?_, ?_⟩, he⟩
  · exact mem_zipIdx_iff_getElem?.2 hdecl
  · rw [hlisted]
    rfl

/-- A field of a class that a literal leaves out is filled with its default. -/
theorem Program.mem_spliced_of_class? {p : Program} {path : Path} {inits : List FieldInit}
    {base : Option Expr} {d owner : ClassDef} (hstruct : p.struct? path.joined = none)
    (hd : p.class? path.joined = some d) (howner : owner ∈ p.classChain d.name) {decl : FieldDef}
    (hdecl : decl ∈ owner.fields) (hlisted : ∀ init ∈ inits, init.name ≠ decl.name) {e : Expr}
    (he : decl.default = some e) : e ∈ p.spliced path inits base := by
  simp only [spliced, hstruct, hd]
  refine mem_filterMap.2 ⟨decl, mem_filter.2 ⟨mem_flatMap.2 ⟨owner, howner, hdecl⟩,
    all_eq_true.2 fun init hinit => decide_eq_true (hlisted init hinit)⟩, he⟩

/-! ### Code -/

/-- The expressions that are lowered when an expression is taken apart: its parts, the names that a
closure captures, and the defaults of fields that a literal leaves out. -/
def Program.opened (p : Program) (e : Expr) : List Expr :=
  e.parts ++
    match e with
    | .closure note _ captures => captures.map (.ident { span := note.span })
    | .record _ path inits base => p.spliced path inits base
    | _ => []

namespace Program

/-- An expression is lowered with a whole: it is the whole, or the whole opens into it, at any
depth. -/
def OpensInto (p : Program) : Expr → Expr → Prop :=
  Relation.ReflTransGen fun whole part => part ∈ p.opened whole

/-- A statement in the code that is lowered with an expression binds the name. -/
def Binds (p : Program) (whole : Expr) (name : String) : Prop :=
  ∃ note body ty init, p.OpensInto whole (.block note body) ∧ .bind name ty init ∈ body.stmts

/-- The expressions that are lowered with a function. -/
inductive InCode (p : Program) (f : FunctionDef) (e : Expr) : Prop
  | intro {body : Block} (hbody : f.body = some body) (h : p.OpensInto (.block {} body) e)

variable {p : Program} {f : FunctionDef} {whole part e : Expr} {block : Block}

theorem OpensInto.opened (h : p.OpensInto whole e) (hpart : part ∈ p.opened e) :
    p.OpensInto whole part :=
  h.tail hpart

theorem InCode.body (h : f.body = some block) : p.InCode f (.block {} block) := ⟨h, .refl⟩

theorem InCode.opened (h : p.InCode f e) (hpart : part ∈ p.opened e) : p.InCode f part := by
  obtain ⟨hbody, he⟩ := h
  exact ⟨hbody, he.opened hpart⟩

/-- What a whole opens into is among any expressions that hold the whole and what they open into. -/
theorem OpensInto.mem {code : List Expr} (h : p.OpensInto whole e) (hwhole : whole ∈ code)
    (hcode : ∀ own ∈ code, p.opened own ⊆ code) : e ∈ code := by
  induction h with
  | refl => exact hwhole
  | tail _ hpart ih => exact hcode _ ih hpart

/-- A whole that opens into one leaf opens into nothing else. -/
theorem OpensInto.eq_or_eq {leaf : Expr} (h : p.OpensInto whole e)
    (hwhole : p.opened whole = [leaf]) (hleaf : p.opened leaf = []) : e = whole ∨ e = leaf := by
  induction h with
  | refl => exact .inl rfl
  | tail _ hpart ih =>
    obtain rfl | rfl := ih
    · rw [hwhole] at hpart
      exact .inr (mem_singleton.1 hpart)
    · rw [hleaf] at hpart
      cases hpart

theorem InCode.mem {code : List Expr} (h : p.InCode f e) (hbody : f.body = some block)
    (hwhole : .block {} block ∈ code) (hcode : ∀ own ∈ code, p.opened own ⊆ code) : e ∈ code := by
  obtain ⟨hown, he⟩ := h
  rw [hbody] at hown
  cases hown
  exact he.mem hwhole hcode

end Program

end Monomorph
