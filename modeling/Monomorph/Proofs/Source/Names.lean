import Mathlib.Tactic.MkIffOfInductiveProp
import Monomorph.Proofs.Text.Sorted
import Monomorph.Proofs.Ty.Names
import Monomorph.Source.Open

/-!
# The names in a program
-/

namespace Monomorph

open List

variable {P : Vocabulary} {f : FunctionDef} {name : String} {d : ClassDef} {t : Ty} {args : List Ty}
  {variant : VariantDef}

/-! ### Code -/

/-- A type that may be missing. -/
def Ty.OverOption (P : Vocabulary) (t : Option Ty) : Prop := ∀ own ∈ t, own.Over P

theorem Ty.overOption_none : Ty.OverOption P none := nofun

theorem Ty.overOption_some (h : t.Over P) : Ty.OverOption P (some t) := by
  rintro _ ⟨⟩
  exact h

theorem Ty.OverOption.getD {o : Option Ty} (h : OverOption P o) (ht : t.Over P) :
    (o.getD t).Over P := by
  cases o with
  | none => exact ht
  | some t => exact h t rfl

/-- Explicit type arguments whose names are of a certain kind. -/
def Path.Over (P : Vocabulary) (path : Path) : Prop := ∀ t ∈ path.args, t.Over P

theorem Path.over_single (name : String) : (Path.single name).Over P := nofun

mutual

/-- An expression in which all names are of a certain kind. A literal names its type by the last
segment of its path. -/
def Expr.Over (P : Vocabulary) : Expr → Prop
  | .lit note _ | .ident note _ | .functionRef note _ | .closure note _ _ =>
      Ty.OverOption P note.ty
  | .path note path => Ty.OverOption P note.ty ∧ path.Over P
  | .call note callee args | .methodCall note callee _ args =>
      Ty.OverOption P note.ty ∧ callee.Over P ∧ Expr.OverList P args
  | .field note object _ => Ty.OverOption P note.ty ∧ object.Over P
  | .record note path inits base =>
      Ty.OverOption P note.ty ∧ path.Over P ∧ P (path.last?.getD "") ∧ Expr.OverInits P inits ∧
        Expr.OverMaybe P base
  | .block note body => Ty.OverOption P note.ty ∧ body.Over P

/-- An expression that may be missing. -/
def Expr.OverMaybe (P : Vocabulary) : Option Expr → Prop
  | none => True
  | some e => e.Over P

/-- Several expressions. -/
def Expr.OverList (P : Vocabulary) : List Expr → Prop
  | [] => True
  | e :: es => e.Over P ∧ Expr.OverList P es

/-- Several field initialisers. -/
def Expr.OverInits (P : Vocabulary) : List FieldInit → Prop
  | [] => True
  | .mk _ value _ :: inits => value.Over P ∧ Expr.OverInits P inits

/-- Several statements. -/
def Block.OverStmts (P : Vocabulary) : List Stmt → Prop
  | [] => True
  | .bind _ ty init :: stmts => Ty.OverOption P ty ∧ init.Over P ∧ Block.OverStmts P stmts
  | .assign target value _ :: stmts => target.Over P ∧ value.Over P ∧ Block.OverStmts P stmts
  | .eval e :: stmts => e.Over P ∧ Block.OverStmts P stmts
  | .ret value :: stmts => Expr.OverMaybe P value ∧ Block.OverStmts P stmts

/-- A block in which all names are of a certain kind. -/
def Block.Over (P : Vocabulary) : Block → Prop
  | .mk stmts tail => Block.OverStmts P stmts ∧ Expr.OverMaybe P tail

end

/-- A statement in which all names are of a certain kind. -/
def Stmt.Over (P : Vocabulary) : Stmt → Prop
  | .bind _ ty init => Ty.OverOption P ty ∧ init.Over P
  | .assign target value _ => target.Over P ∧ value.Over P
  | .eval e => e.Over P
  | .ret value => Expr.OverMaybe P value

instance [P.IsDecidable] (t : Option Ty) : Decidable (Ty.OverOption P t) :=
  inferInstanceAs (Decidable (∀ own ∈ t, own.Over P))

instance [P.IsDecidable] (path : Path) : Decidable (path.Over P) :=
  inferInstanceAs (Decidable (∀ t ∈ path.args, t.Over P))

mutual

/-- Whether the names in code are of a certain kind can be decided. -/
def Expr.decideOver [P.IsDecidable] : (e : Expr) → Decidable (e.Over P)
  | .lit note _ | .ident note _ | .functionRef note _ | .closure note _ _ =>
      inferInstanceAs (Decidable (Ty.OverOption P note.ty))
  | .path note path => inferInstanceAs (Decidable (Ty.OverOption P note.ty ∧ path.Over P))
  | .call _ callee args | .methodCall _ callee _ args =>
      have := @instDecidableAnd _ _ callee.decideOver (Expr.decideOverList args)
      instDecidableAnd
  | .field _ object _ => @instDecidableAnd _ _ _ object.decideOver
  | .record _ _ inits base =>
      have := @instDecidableAnd _ _ (Expr.decideOverInits inits) (Expr.decideOverMaybe base)
      instDecidableAnd
  | .block _ body => @instDecidableAnd _ _ _ body.decideOver

/-- An expression that may be missing. -/
def Expr.decideOverMaybe [P.IsDecidable] : (e : Option Expr) → Decidable (Expr.OverMaybe P e)
  | none => inferInstanceAs (Decidable True)
  | some e => e.decideOver

/-- Several expressions. -/
def Expr.decideOverList [P.IsDecidable] : (es : List Expr) → Decidable (Expr.OverList P es)
  | [] => inferInstanceAs (Decidable True)
  | e :: es => @instDecidableAnd _ _ e.decideOver (Expr.decideOverList es)

/-- Several field initialisers. -/
def Expr.decideOverInits [P.IsDecidable] :
    (inits : List FieldInit) → Decidable (Expr.OverInits P inits)
  | [] => inferInstanceAs (Decidable True)
  | .mk _ value _ :: inits => @instDecidableAnd _ _ value.decideOver (Expr.decideOverInits inits)

/-- Several statements. -/
def Block.decideOverStmts [P.IsDecidable] :
    (stmts : List Stmt) → Decidable (Block.OverStmts P stmts)
  | [] => inferInstanceAs (Decidable True)
  | .bind _ _ init :: stmts =>
      have := @instDecidableAnd _ _ init.decideOver (Block.decideOverStmts stmts)
      instDecidableAnd
  | .assign target value _ :: stmts =>
      have := @instDecidableAnd _ _ value.decideOver (Block.decideOverStmts stmts)
      @instDecidableAnd _ _ target.decideOver _
  | .eval e :: stmts => @instDecidableAnd _ _ e.decideOver (Block.decideOverStmts stmts)
  | .ret value :: stmts =>
      @instDecidableAnd _ _ (Expr.decideOverMaybe value) (Block.decideOverStmts stmts)

/-- The statements and the value of a block. -/
def Block.decideOver [P.IsDecidable] : (body : Block) → Decidable (body.Over P)
  | .mk stmts tail =>
      @instDecidableAnd _ _ (Block.decideOverStmts stmts) (Expr.decideOverMaybe tail)

end

instance [P.IsDecidable] (e : Expr) : Decidable (e.Over P) := e.decideOver

instance [P.IsDecidable] (body : Block) : Decidable (body.Over P) := body.decideOver

namespace Expr

theorem overList_iff {es : List Expr} : OverList P es ↔ ∀ e ∈ es, e.Over P := by
  induction es with
  | nil => simp [OverList]
  | cons e es ih => simp [OverList, ih]

theorem overInits_iff {inits : List FieldInit} :
    OverInits P inits ↔ ∀ init ∈ inits, init.value.Over P := by
  induction inits with
  | nil => simp [OverInits]
  | cons init inits ih =>
    cases init
    simp [OverInits, FieldInit.value, ih]

theorem overMaybe_iff {e : Option Expr} : OverMaybe P e ↔ ∀ own ∈ e, own.Over P := by
  cases e <;> simp [OverMaybe]

end Expr

theorem Block.overStmts_iff {stmts : List Stmt} :
    OverStmts P stmts ↔ ∀ stmt ∈ stmts, stmt.Over P := by
  induction stmts with
  | nil => simp [OverStmts]
  | cons stmt stmts ih => cases stmt <;> simp [OverStmts, Stmt.Over, ih, and_assoc]

theorem Block.over_iff {body : Block} :
    body.Over P ↔ (∀ stmt ∈ body.stmts, stmt.Over P) ∧ ∀ e ∈ body.tail, e.Over P := by
  obtain ⟨stmts, tail⟩ := body
  rw [Block.Over, overStmts_iff, Expr.overMaybe_iff]
  rfl

section

variable (h : P.IsFull)

include h

theorem Ty.overOption_of_isFull (t : Option Ty) : Ty.OverOption P t :=
  fun own _ => own.over_of_isFull h

theorem Path.over_of_isFull (path : Path) : path.Over P :=
  fun t _ => t.over_of_isFull h

set_option linter.unusedSectionVars false in
mutual

/-- Code is over a vocabulary that holds all names. -/
theorem Expr.over_of_isFull : (e : Expr) → e.Over P
  | .lit note _ | .ident note _ | .functionRef note _ | .closure note _ _ =>
      Ty.overOption_of_isFull h note.ty
  | .path note path => ⟨Ty.overOption_of_isFull h note.ty, path.over_of_isFull h⟩
  | .call note callee args | .methodCall note callee _ args =>
      ⟨Ty.overOption_of_isFull h note.ty, callee.over_of_isFull, Expr.overList_of_isFull args⟩
  | .field note object _ => ⟨Ty.overOption_of_isFull h note.ty, object.over_of_isFull⟩
  | .record note path inits base =>
      ⟨Ty.overOption_of_isFull h note.ty, path.over_of_isFull h, h.type _,
        Expr.overInits_of_isFull inits, Expr.overMaybe_of_isFull base⟩
  | .block note body => ⟨Ty.overOption_of_isFull h note.ty, body.over_of_isFull⟩

theorem Expr.overMaybe_of_isFull : (e : Option Expr) → Expr.OverMaybe P e
  | none => trivial
  | some e => e.over_of_isFull

theorem Expr.overList_of_isFull : (es : List Expr) → Expr.OverList P es
  | [] => trivial
  | e :: es => ⟨e.over_of_isFull, Expr.overList_of_isFull es⟩

theorem Expr.overInits_of_isFull : (inits : List FieldInit) → Expr.OverInits P inits
  | [] => trivial
  | .mk _ value _ :: inits => ⟨value.over_of_isFull, Expr.overInits_of_isFull inits⟩

theorem Block.overStmts_of_isFull : (stmts : List Stmt) → Block.OverStmts P stmts
  | [] => trivial
  | .bind _ ty init :: stmts =>
      ⟨Ty.overOption_of_isFull h ty, init.over_of_isFull, Block.overStmts_of_isFull stmts⟩
  | .assign target value _ :: stmts =>
      ⟨target.over_of_isFull, value.over_of_isFull, Block.overStmts_of_isFull stmts⟩
  | .eval e :: stmts => ⟨e.over_of_isFull, Block.overStmts_of_isFull stmts⟩
  | .ret value :: stmts => ⟨Expr.overMaybe_of_isFull value, Block.overStmts_of_isFull stmts⟩

theorem Block.over_of_isFull : (body : Block) → body.Over P
  | .mk stmts tail => ⟨Block.overStmts_of_isFull stmts, Expr.overMaybe_of_isFull tail⟩

end

end

/-! ### Open names -/

namespace Program

variable (p : Program)

theorem openNamesList_eq_flatMap (ts : List Ty) : p.openNamesList ts = ts.flatMap p.openNames := by
  induction ts with
  | nil => rfl
  | cons t ts ih => rw [openNamesList, ih, flatMap_cons]

theorem openNames_of_leaf?_eq_none (h : t.leaf? = none) :
    p.openNames t = t.children.flatMap p.openNames := by
  cases t with
  | named qualifier name args =>
    cases args with
    | nil => cases h
    | cons arg args => exact p.openNamesList_eq_flatMap (arg :: args)
  | _ => simp [openNames, openNamesList_eq_flatMap, Ty.children]

theorem isOpen_of_leaf?_eq_none (h : t.leaf? = none) : p.isOpen t = t.children.any p.isOpen := by
  cases t with
  | named qualifier name args =>
    cases args with
    | nil => cases h
    | cons arg args => exact p.isOpenList_eq_any (arg :: args)
  | _ => simp [isOpen, isOpenList_eq_any, Ty.children]

/-- The unknown names of a type are those that it mentions and the program does not know. -/
theorem mem_openNames : name ∈ p.openNames t ↔ t.mentions [name] = true ∧ ¬p.knowsType name := by
  induction t using Ty.induction_leaves with
  | leaf qualifier own =>
    simp only [openNames, Ty.mentions, Ty.mentionsList, isEmpty_nil, if_true]
    grind
  | step t hleaf ih =>
    rw [openNames_of_leaf?_eq_none p hleaf, Ty.mentions_eq, hleaf, Option.any_none, Bool.false_or,
      mem_flatMap, any_eq_true]
    constructor
    · rintro ⟨part, hpart, h⟩
      exact ⟨⟨part, hpart, ((ih part hpart).1 h).1⟩, ((ih part hpart).1 h).2⟩
    · rintro ⟨⟨part, hpart, h⟩, hknows⟩
      exact ⟨part, hpart, (ih part hpart).2 ⟨h, hknows⟩⟩

/-- The unknown names of a type are among its names. -/
theorem over_openNames (t : Ty) (h : t.Over P) : ∀ name ∈ p.openNames t, P name := by
  intro name hname
  obtain ⟨_, _, hmem, hoccurs⟩ := Ty.mentions_iff_occurs.1 (p.mem_openNames.1 hname).1
  rw [← mem_singleton.1 hmem]
  exact (Ty.Over.of_occurs hoccurs h).1

theorem over_openNamesList (ts : List Ty) (h : Ty.OverList P ts) :
    ∀ name ∈ p.openNamesList ts, P name := by
  rw [openNamesList_eq_flatMap, forall_mem_flatMap]
  exact fun t ht => p.over_openNames t (Ty.overList_iff.1 h t ht)

theorem over_openNamesOption {t : Option Ty} (h : Ty.OverOption P t) :
    ∀ name ∈ p.openNamesOption t, P name := by
  cases t with
  | none => exact forall_mem_nil _
  | some t => exact p.over_openNames t (h t rfl)

mutual

theorem over_openNamesExpr : {e : Expr} → e.Over P → ∀ name ∈ p.openNamesExpr e, P name
  | .lit _ _, h | .ident _ _, h | .functionRef _ _, h | .closure _ _ _, h =>
      p.over_openNamesOption h
  | .path _ _, h => forall_mem_append.2
      ⟨p.over_openNamesOption h.1, p.over_openNamesList _ (Ty.overList_iff.2 h.2)⟩
  | .call _ _ _, h | .methodCall _ _ _ _, h => forall_mem_append.2
      ⟨p.over_openNamesOption h.1,
        forall_mem_append.2 ⟨over_openNamesExpr h.2.1, over_openNamesExprs h.2.2⟩⟩
  | .field _ _ _, h =>
      forall_mem_append.2 ⟨p.over_openNamesOption h.1, over_openNamesExpr h.2⟩
  | .record _ _ _ _, h => forall_mem_append.2
      ⟨p.over_openNamesOption h.1, forall_mem_append.2
        ⟨p.over_openNamesList _ (Ty.overList_iff.2 h.2.1), forall_mem_append.2
          ⟨over_openNamesInits h.2.2.2.1, over_openNamesMaybe h.2.2.2.2⟩⟩⟩
  | .block _ _, h =>
      forall_mem_append.2 ⟨p.over_openNamesOption h.1, over_openNamesBlock h.2⟩

theorem over_openNamesMaybe : {e : Option Expr} → Expr.OverMaybe P e →
    ∀ name ∈ p.openNamesMaybe e, P name
  | none, _ => forall_mem_nil _
  | some _, h => over_openNamesExpr h

theorem over_openNamesExprs : {es : List Expr} → Expr.OverList P es →
    ∀ name ∈ p.openNamesExprs es, P name
  | [], _ => forall_mem_nil _
  | _ :: _, h => forall_mem_append.2 ⟨over_openNamesExpr h.1, over_openNamesExprs h.2⟩

theorem over_openNamesInits : {inits : List FieldInit} → Expr.OverInits P inits →
    ∀ name ∈ p.openNamesInits inits, P name
  | [], _ => forall_mem_nil _
  | .mk _ _ _ :: _, h => forall_mem_append.2 ⟨over_openNamesExpr h.1, over_openNamesInits h.2⟩

theorem over_openNamesStmts : {stmts : List Stmt} → Block.OverStmts P stmts →
    ∀ name ∈ p.openNamesStmts stmts, P name
  | [], _ => forall_mem_nil _
  | .bind _ _ _ :: _, h => forall_mem_append.2
      ⟨p.over_openNamesOption h.1,
        forall_mem_append.2 ⟨over_openNamesExpr h.2.1, over_openNamesStmts h.2.2⟩⟩
  | .assign _ _ _ :: _, h => forall_mem_append.2
      ⟨over_openNamesExpr h.1,
        forall_mem_append.2 ⟨over_openNamesExpr h.2.1, over_openNamesStmts h.2.2⟩⟩
  | .eval _ :: _, h => forall_mem_append.2 ⟨over_openNamesExpr h.1, over_openNamesStmts h.2⟩
  | .ret _ :: _, h => forall_mem_append.2 ⟨over_openNamesMaybe h.1, over_openNamesStmts h.2⟩

theorem over_openNamesBlock : {body : Block} → body.Over P → ∀ name ∈ p.openNamesBlock body, P name
  | .mk _ _, h => forall_mem_append.2 ⟨over_openNamesStmts h.1, over_openNamesMaybe h.2⟩

end

end Program

/-! ### Definitions -/

/-- A function whose type names are of a certain kind. -/
structure FunctionDef.Over (P : Vocabulary) (f : FunctionDef) : Prop where
  params : ∀ param ∈ f.params, param.ty.Over P
  ret : f.ret.Over P
  captures : ∀ param ∈ f.captures, param.ty.Over P
  body : ∀ body ∈ f.body, body.Over P

/-- A field whose type names are of a certain kind. -/
structure FieldDef.Over (P : Vocabulary) (field : FieldDef) : Prop where
  ty : field.ty.Over P
  default : ∀ e ∈ field.default, e.Over P

/-- A struct whose type names are of a certain kind. -/
structure StructDef.Over (P : Vocabulary) (d : StructDef) : Prop where
  name : P d.name
  fields : ∀ field ∈ d.fields, field.Over P

/-- An enum whose type names are of a certain kind. -/
structure EnumDef.Over (P : Vocabulary) (d : EnumDef) : Prop where
  name : P d.name
  payload : ∀ variant ∈ d.variants, ∀ t ∈ variant.payload, t.Over P

/-- A class whose type names are of a certain kind. -/
structure ClassDef.Over (P : Vocabulary) (d : ClassDef) : Prop where
  name : P d.name
  base : ∀ base ∈ d.base, P base
  fields : ∀ field ∈ d.fields, field.Over P
  constructors : ∀ f ∈ d.constructors, f.Over P
  methods : ∀ f ∈ d.methods, f.Over P

/-- A signature whose type names are of a certain kind. -/
structure MethodSig.Over (P : Vocabulary) (sig : MethodSig) : Prop where
  params : ∀ t ∈ sig.params, t.Over P
  ret : sig.ret.Over P

/-- An implementation whose type names are of a certain kind. -/
structure ImplDef.Over (P : Vocabulary) (d : ImplDef) : Prop where
  selfTy : d.selfTy.Over P
  methods : ∀ f ∈ d.methods, f.Over P

/-- A module whose type names are of a certain kind. -/
structure Module.Over (P : Vocabulary) (m : Module) : Prop where
  functions : ∀ f ∈ m.functions.items, f.Over P
  structs : ∀ d ∈ m.structs.items, d.Over P
  enums : ∀ d ∈ m.enums.items, d.Over P
  classes : ∀ d ∈ m.classes.items, d.Over P
  behaviors : ∀ d ∈ m.behaviors.items, ∀ sig ∈ d.methods, sig.Over P
  impls : ∀ d ∈ m.impls, d.Over P

/-- A program whose type names are of a certain kind. -/
def Program.Over (P : Vocabulary) (p : Program) : Prop := ∀ m ∈ p.modules, m.Over P

section Decidable

variable [P.IsDecidable]

attribute [mk_iff] FunctionDef.Over FieldDef.Over StructDef.Over EnumDef.Over ClassDef.Over
  MethodSig.Over ImplDef.Over Module.Over

instance : DecidablePred (FunctionDef.Over P) := fun f => decidable_of_iff' _ (f.over_iff P)

instance : DecidablePred (FieldDef.Over P) := fun d => decidable_of_iff' _ (d.over_iff P)

instance : DecidablePred (StructDef.Over P) := fun d => decidable_of_iff' _ (d.over_iff P)

instance : DecidablePred (EnumDef.Over P) := fun d => decidable_of_iff' _ (d.over_iff P)

instance : DecidablePred (ClassDef.Over P) := fun d => decidable_of_iff' _ (d.over_iff P)

instance : DecidablePred (MethodSig.Over P) := fun sig => decidable_of_iff' _ (sig.over_iff P)

instance : DecidablePred (ImplDef.Over P) := fun d => decidable_of_iff' _ (d.over_iff P)

instance : DecidablePred (Module.Over P) := fun m => decidable_of_iff' _ (m.over_iff P)

instance (p : Program) : Decidable (p.Over P) :=
  inferInstanceAs (Decidable (∀ m ∈ p.modules, m.Over P))

end Decidable

theorem FunctionDef.over_of_isFull (h : P.IsFull) (f : FunctionDef) : f.Over P where
  params param _ := Ty.over_of_isFull h param.ty
  ret := Ty.over_of_isFull h f.ret
  captures param _ := Ty.over_of_isFull h param.ty
  body body _ := body.over_of_isFull h

theorem Program.over_of_isFull (h : P.IsFull) (p : Program) : p.Over P := by
  have hty : ∀ t : Ty, t.Over P := Ty.over_of_isFull h
  have hfunction : ∀ f : FunctionDef, f.Over P := FunctionDef.over_of_isFull h
  have hfield : ∀ field : FieldDef, field.Over P := fun field =>
    ⟨hty field.ty, fun e _ => e.over_of_isFull h⟩
  exact fun m _ => {
    functions := fun f _ => hfunction f
    structs := fun d _ => ⟨h.type d.name, fun field _ => hfield field⟩
    enums := fun d _ => ⟨h.type d.name, fun _ _ t _ => hty t⟩
    classes := fun d _ => ⟨h.type d.name, fun base _ => h.type base, fun field _ => hfield field,
      fun f _ => hfunction f, fun f _ => hfunction f⟩
    behaviors := fun _ _ sig _ => ⟨fun t _ => hty t, hty sig.ret⟩
    impls := fun d _ => ⟨hty d.selfTy, fun f _ => hfunction f⟩ }

theorem FunctionDef.Over.paramTypes (h : f.Over P) : ∀ t ∈ f.paramTypes, t.Over P :=
  forall_mem_map.2 h.params

theorem FunctionDef.Over.fnType (h : f.Over P) : f.fnType.Over P :=
  ⟨Ty.overList_iff.2 h.paramTypes, h.ret⟩

/-- The unknown type names in a closure body. -/
theorem Program.over_closureParams (p : Program) (h : f.Over P) :
    ∀ name ∈ p.closureParams f, P name := by
  intro name hname
  have hcaptures : ∀ t ∈ f.captures.map Param.ty, t.Over P := forall_mem_map.2 h.captures
  rw [closureParams, Sorted.mem_distinct, mem_append, mem_append, mem_append] at hname
  obtain hname | hname | hname | hname := hname
  · exact p.over_openNamesList _ (Ty.overList_iff.2 h.paramTypes) name hname
  · exact p.over_openNamesList _ (Ty.overList_iff.2 hcaptures) name hname
  · exact p.over_openNames _ h.ret name hname
  · split at hname
    · nomatch hname
    next body hbody => exact p.over_openNamesBlock (h.body body hbody) name hname

theorem FieldDef.over_typesUnder {generics : List String} {fields : List FieldDef}
    (h : ∀ field ∈ fields, field.Over P) (hargs : ∀ t ∈ args, t.Over P) :
    ∀ t ∈ FieldDef.typesUnder generics fields args, t.Over P :=
  forall_mem_map.2 fun field hfield =>
    (h field hfield).ty.subst (Bindings.over_ofArgs hargs generics)

theorem EnumDef.Over.payloadTypes {d : EnumDef} (h : d.Over P) (hvariant : variant ∈ d.variants)
    (hargs : ∀ t ∈ args, t.Over P) :
    ∀ t ∈ Ty.substList (.ofArgs d.generics args) variant.payload, t.Over P :=
  Ty.over_substList (Bindings.over_ofArgs hargs _) (h.payload variant hvariant)

theorem EnumDef.Over.payload? {d : EnumDef} (h : d.Over P) (hvariant : variant ∈ d.variants)
    (hargs : ∀ t ∈ args, t.Over P) (ht : d.payload? variant args = some t) : t.Over P := by
  have htypes := h.payloadTypes hvariant hargs
  rw [EnumDef.payload?] at ht
  split at ht
  · cases ht
  next heq =>
    cases ht
    exact htypes t (by rw [heq]; exact mem_singleton_self t)
  · cases ht
    exact Ty.over_tuple.2 htypes

/-- The implementing type has the name under which the implementation is found. -/
theorem ImplDef.Over.typeName? {d : ImplDef} (h : d.Over P) (hname : d.typeName? = some name) :
    P name := by
  rw [ImplDef.typeName?] at hname
  split at hname
  next heq =>
    cases hname
    exact (heq ▸ h.selfTy : Ty.Over P (.named _ name _)).1
  next heq =>
    cases hname
    exact (heq ▸ h.selfTy : Ty.Over P (.classRef name))
  · cases hname

/-! ### Look-up -/

/-- The method of a class that is found by a name. -/
theorem ClassDef.of_method? (h : d.method? name = some f) : f ∈ d.methods ∧ f.name = name :=
  ⟨mem_of_find?_eq_some h, by simpa using find?_some h⟩

/-- The method of an implementation that is found by a name. -/
theorem ImplDef.of_method? {d : ImplDef} (h : d.method? name = some f) :
    f ∈ d.methods ∧ f.name = name :=
  ⟨mem_of_find?_eq_some h, by simpa using find?_some h⟩

namespace Program

variable {p : Program} {typeName : String} {origin : Origin}

section

variable {α : Type} [HasName α] {table : Module → Table α} {d : α}
  (h : p.lookup table name = some d)

include h

/-- What a look-up finds is in a table of some module, under the name without its qualifier. -/
theorem named_of_lookup : ∃ m ∈ p.modules, d ∈ (table m).items ∧
    HasName.nameOf d = (QualifiedName.ofString name).name := by
  rw [lookup] at h
  split at h
  next heq =>
    obtain ⟨m, hm, hd⟩ := exists_of_findSome?_eq_some h
    exact ⟨m, hm, heq ▸ Table.get?_eq_some_iff.1 hd⟩
  next heq =>
    obtain ⟨m, hm, hd⟩ := exists_of_findSome?_eq_some h
    exact ⟨m, (mem_filter.1 hm).1, heq ▸ Table.get?_eq_some_iff.1 hd⟩

theorem mem_of_lookup : ∃ m ∈ p.modules, d ∈ (table m).items := by
  obtain ⟨m, hm, hd, -⟩ := named_of_lookup h
  exact ⟨m, hm, hd⟩

theorem bare_of_lookup : HasName.nameOf d = (QualifiedName.ofString name).name := by
  obtain ⟨m, -, -, hname⟩ := named_of_lookup h
  exact hname

end

variable (hp : p.Over P) {behavior method : String} {impl : ImplDef}

include hp

theorem Over.function? (h : p.function? name = some f) : f.Over P := by
  obtain ⟨m, hm, hf⟩ := mem_of_lookup h
  exact (hp m hm).functions f hf

theorem Over.struct? {d : StructDef} (h : p.struct? name = some d) : d.Over P := by
  obtain ⟨m, hm, hd⟩ := mem_of_lookup h
  exact (hp m hm).structs d hd

theorem Over.enum? {d : EnumDef} (h : p.enum? name = some d) : d.Over P := by
  obtain ⟨m, hm, hd⟩ := mem_of_lookup h
  exact (hp m hm).enums d hd

theorem Over.class? (h : p.class? name = some d) : d.Over P := by
  obtain ⟨m, hm, hd⟩ := mem_of_lookup h
  exact (hp m hm).classes d hd

theorem Over.behavior? {d : BehaviorDef} (h : p.behavior? name = some d) :
    ∀ sig ∈ d.methods, sig.Over P := by
  obtain ⟨m, hm, hd⟩ := mem_of_lookup h
  exact (hp m hm).behaviors d hd

theorem Over.enumWithVariant? {variant : String} {d : EnumDef} {tag : Nat}
    (h : p.enumWithVariant? variant = some (d, tag)) : d.Over P := by
  obtain ⟨m, hm, h⟩ := exists_of_findSome?_eq_some h
  obtain ⟨d', hd', h⟩ := exists_of_findSome?_eq_some h
  obtain ⟨tag', -, h⟩ := Option.map_eq_some_iff.1 h
  cases h
  exact (hp m hm).enums d hd'

theorem Over.impls {entry : Origin × ImplDef} (h : entry ∈ p.impls) : entry.2.Over P := by
  obtain h | h := mem_append.1 h
  · obtain ⟨d, hd, rfl⟩ := mem_map.1 h
    exact (hp p.home mem_cons_self).impls d hd
  · obtain ⟨m, hm, h⟩ := mem_flatMap.1 h
    obtain ⟨d, hd, rfl⟩ := mem_map.1 h
    exact (hp m (mem_cons_of_mem _ hm)).impls d hd

omit hp in
/-- The implementation of a behavior by a type is an implementation for that type. -/
theorem of_implOf? (h : p.implOf? typeName behavior = some (origin, impl)) :
    (origin, impl) ∈ p.impls ∧ impl.typeName? = some typeName := by
  have hname := find?_some h
  rw [Bool.and_eq_true, decide_eq_true_eq] at hname
  exact ⟨mem_of_find?_eq_some h, hname.1⟩

theorem Over.implOf? {d : ImplDef} (h : p.implOf? typeName behavior = some (origin, d)) :
    d.Over P ∧ P typeName := by
  obtain ⟨himpl, hname⟩ := of_implOf? h
  have hd := hp.impls himpl
  exact ⟨hd, hd.typeName? hname⟩

omit hp in
theorem of_implMethodAmong? {inherent : Bool}
    (h : p.implMethodAmong? inherent typeName method = some (origin, impl, f)) :
    (origin, impl) ∈ p.impls ∧ impl.typeName? = some typeName ∧ impl.method? method = some f := by
  obtain ⟨entry, hentry, h⟩ := exists_of_findSome?_eq_some h
  obtain ⟨f', hf', h⟩ := Option.map_eq_some_iff.1 h
  cases h
  obtain ⟨hentry, hname⟩ := mem_filter.1 hentry
  rw [Bool.and_eq_true, decide_eq_true_eq] at hname
  exact ⟨hentry, hname.1, hf'⟩

omit hp in
/-- The method of a type belongs to an implementation for that type. -/
theorem of_implMethod? (h : p.implMethod? typeName method = some (origin, impl, f)) :
    (origin, impl) ∈ p.impls ∧ impl.typeName? = some typeName ∧ impl.method? method = some f := by
  obtain h | ⟨-, h⟩ := Option.or_eq_some_iff.1 h <;> exact of_implMethodAmong? h

theorem Over.implMethod? {d : ImplDef} (h : p.implMethod? typeName method = some (origin, d, f)) :
    d.Over P ∧ f.Over P ∧ P typeName := by
  obtain ⟨himpl, hname, hf⟩ := of_implMethod? h
  have hd := hp.impls himpl
  exact ⟨hd, hd.methods _ (ImplDef.of_method? hf).1, hd.typeName? hname⟩

omit hp in
/-- The classes of a chain are found under some name. -/
theorem exists_class?_of_mem_chainFrom {limit : Nat} {seen : List String}
    {current : Option ClassDef} (hcurrent : ∀ c ∈ current, ∃ name, p.class? name = some c)
    (h : d ∈ p.chainFrom limit seen current) : ∃ name, p.class? name = some d := by
  induction limit generalizing seen current with
  | zero => cases h
  | succ limit ih =>
    cases current with
    | none => cases h
    | some c =>
      rw [chainFrom] at h
      split at h
      · cases h
      · obtain rfl | h := mem_cons.1 h
        · exact hcurrent d rfl
        · refine ih (fun base hbase => ?_) h
          obtain ⟨name, -, hbase⟩ := Option.bind_eq_some_iff.1 hbase
          exact ⟨name, hbase⟩

omit hp in
theorem exists_class?_of_mem_classChain (h : d ∈ p.classChain name) :
    ∃ own, p.class? own = some d :=
  exists_class?_of_mem_chainFrom (fun _ hc => ⟨name, hc⟩) h

omit hp in
/-- The classes of a chain are classes of the program. -/
theorem mem_of_mem_classChain (h : d ∈ p.classChain name) :
    ∃ m ∈ p.modules, d ∈ m.classes.items := by
  obtain ⟨own, hown⟩ := exists_class?_of_mem_classChain h
  exact mem_of_lookup hown

theorem Over.classChain (h : d ∈ p.classChain name) : d.Over P := by
  obtain ⟨m, hm, hd⟩ := mem_of_mem_classChain h
  exact (hp m hm).classes d hd

omit hp in
/-- The chain of a name is empty unless there is a class of that name. -/
theorem class?_of_mem_classChain (h : d ∈ p.classChain name) : ∃ own, p.class? name = some own := by
  rw [Program.classChain] at h
  cases hclass : p.class? name with
  | some own => exact ⟨own, rfl⟩
  | none =>
    rw [hclass] at h
    cases hcount : p.classCount with
    | zero => rw [hcount] at h; nomatch h
    | succ n => rw [hcount] at h; nomatch h

end Program

end Monomorph
