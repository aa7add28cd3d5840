import Monomorph.Proofs.Lowering.Calls

/-!
# Functions keep a discipline

Expressions nest: how an expression is lowered depends on how those inside it are. By induction on
the depth up to which expressions are followed, whole bodies keep the invariant of a discipline.
Between the beginning and the end of a function the invariant is that of the code inside a
function, and a finished function leaves the other one.
-/

namespace Monomorph

open List Script

namespace Discipline

open Facts Elements Representing

variable {session : Session} {D : Discipline session} {α β : Type} {mode : Mode} {s s' : Build}
  {l : Lowering} {b : Bindings} {params : List ParamSlot} {expected : Option Ty} {note : Note}
  {body : Block} {result : Ty}

/-! ### Statements -/

theorem ok_retValue {ir : IR.Ty} {operand : IR.Operand} (hir : D.Ok s ir)
    (hoperand : D.Ok s operand) :
    D.Ok s (if ir.isVoid then none else some (IR.Typed.mk ir operand)) := by
  split
  · exact ok_none
  · exact ok_some ⟨hir, hoperand⟩

theorem sound_bindStatement (hl : D.Lowers l) {name : String} (hname : D.focus.Binds name)
    {ty : Option Ty} (hty : Ty.OverOption D.Name ty) {init : Expr} (hinit : D.Follows init) :
    D.Sound .inside s (l.bindStatement name ty init) := by
  have hdeclared : Ty.OverOption D.Name (ty.map l.subst) :=
    Lowering.overOption_subst hl.bindings hty
  refine .bind (hl.expr s hinit hdeclared) fun value s₁ _ hvalue => ?_
  have hrest : ∀ (t : Ty) (ir : IR.Ty) s', D.Ord .inside s₁ s' → t.Over D.Name → D.Ok s' ir →
      D.Sound .inside s' (do
        let addr ← Gen.alloca ir
        Gen.store ir value.operand addr
        Gen.bindLocal name { storage := .slot addr, ty := t, ir, conv := value.conv }) := by
    intro t ir s₂ hord ht hir
    refine .bind (sound_alloca hir) fun addr s₃ hord₃ haddr => ?_
    have hir := mono hord₃ hir
    refine .bind (sound_store hir (mono (D.trans hord hord₃) hvalue.1) haddr) fun _ s₄ hord₄ _ => ?_
    exact sound_bindLocal hname ⟨mono hord₄ haddr, ht, mono hord₄ hir⟩
  dsimp only
  split
  next t ht =>
    exact .bind (sound_irType t (hdeclared t ht) s₁) fun ir s₂ hord hir =>
      hrest t ir s₂ hord (hdeclared t ht) hir
  · exact hrest _ _ s₁ (D.refl _ _) hvalue.2.2 hvalue.2.1

theorem sound_targetPlace? (hl : D.Lowers l) {target : Expr} (htarget : D.Follows target)
    (span : Span) : D.Sound .inside s (l.targetPlace? target span) := by
  cases target with
  | ident note name =>
    refine .bind sound_findLocal? fun found s₁ _ hfound => ?_
    split
    · exact .pure (ok_some ⟨⟨(hfound _ rfl).1, (hfound _ rfl).2.1⟩, fun _ _ => trivial⟩)
    · exact .bind (sound_error (by decide)) fun _ _ _ _ => .pure ok_none
    · exact .bind (sound_error (by decide)) fun _ _ _ _ => .pure ok_none
  | field note object field =>
    refine .bind (sound_fieldPlace hl (htarget.part (mem_singleton_self _)) field)
      fun found s₁ _ hfound => .pure ?_
    intro pair hpair
    obtain ⟨place, hplace, rfl⟩ := Option.map_eq_some_iff.1 hpair
    exact ⟨hfound place hplace, fun _ _ => trivial⟩
  | _ => exact .bind (sound_error (by decide)) fun _ _ _ _ => .pure ok_none

theorem sound_assign (hl : D.Lowers l) {target value : Expr} (htarget : D.Follows target)
    (hvalue : D.Follows value) (span : Span) :
    D.Sound .inside s (l.assign target value span) := by
  refine .bind (sound_targetPlace? hl htarget span) fun found s₁ _ hfound => ?_
  split
  · exact ensures_discard (hl.expr s₁ hvalue nofun)
  next place name =>
    obtain ⟨hplace, -⟩ := hfound _ rfl
    refine .bind (hl.expr s₁ hvalue (Ty.overOption_some hplace.2)) fun result s₂ hord₂ hresult => ?_
    refine .bind (sound_irType _ hplace.2 s₂) fun ir s₃ hord₃ hir => ?_
    have hord := D.trans hord₂ hord₃
    refine .bind (sound_store hir (mono hord₃ hresult.1) (mono hord hplace.1)) fun _ s₄ _ _ => ?_
    cases name with
    | some name => exact sound_storeConv _
    | none => exact .pure trivial

/-- A return of a value that may be returned. It ends its block, and the block after it is dead. -/
theorem sound_return {v : Value} (hv : D.Ok s v)
    (hir : D.Ensures .inside s (Gen.returnType l.result) fun s' ir => D.Ok s' ir ∧
      D.focus.Returns (if ir.isVoid then none else some ⟨ir, v.operand⟩)) :
    D.Sound .inside s (do
      l.emitReturn v
      Gen.deadBlock) := by
  rw [Lowering.emitReturn, bind_assoc]
  exact .bind hir fun ir s₁ hord h =>
    D.stop rfl rfl (ok_ret (ok_retValue h.1 (mono hord hv.1))) h.2

/-- A return statement, where any value may be returned. -/
theorem sound_ret (hreturns : ∀ value, D.focus.Returns value) (hresult : l.result.Over D.Name)
    (hexpr : ∀ s {e : Expr}, D.Follows e → D.Sound .inside s (l.expr e (some l.result)))
    (hbody : D.Opens (.block note body)) {value : Option Expr} (hstmt : .ret value ∈ body.stmts) :
    D.Sound .inside s (l.statement (.ret value)) := by
  have hreturn : ∀ (v : Value) s, D.Ok s v → D.Sound .inside s (do
      l.emitReturn v
      Gen.deadBlock) := fun v s hv =>
    sound_return hv ((sound_returnType hresult).weaken fun _ _ hir => ⟨hir, hreturns _⟩)
  cases value with
  | none => exact hreturn .unit s ok_unit
  | some e =>
    have he : D.Follows e := hbody.part (mem_append_left _
      (mem_flatMap.2 ⟨.ret (some e), hstmt, mem_singleton_self e⟩))
    exact .bind (hexpr s he) fun v s₁ _ hv => hreturn v s₁ hv

theorem sound_block (hl : D.Lowers l) (hbody : D.Opens (.block note body))
    (hexpected : Ty.OverOption D.Name expected) : D.Sound .inside s (l.block body expected) := by
  refine .bind (sound_forM (P := fun _ => True) (fun _ _ => trivial) trivial
    fun stmt hstmt s _ => ?_) fun _ s₁ _ _ => ?_
  · have hover := (Block.over_iff.1 hbody.1.2).1 stmt hstmt
    have hpart : ∀ e ∈ stmt.parts, D.Follows e := fun e he =>
      hbody.part (mem_append_left _ (mem_flatMap.2 ⟨stmt, hstmt, he⟩))
    cases stmt with
    | bind name ty init =>
      exact sound_bindStatement hl (D.focus.binds hbody.2 hstmt) hover.1
        (hpart init (mem_singleton_self _))
    | assign target value span =>
      exact sound_assign hl (hpart target mem_cons_self)
        (hpart value (mem_cons_of_mem _ mem_cons_self)) span
    | eval e => exact ensures_discard (hl.expr s (hpart e (mem_singleton_self _)) nofun)
    | ret value => exact hl.ret s hbody hstmt
  · split
    next e he =>
      exact hl.expr s₁ (hbody.part (mem_append_right _ (Option.mem_toList.2 he))) hexpected
    · exact .pure ok_unit

/-! ### Expressions -/

theorem sound_shape (hl : D.Lowers l) {e : Expr} (he : D.Opens e)
    (hexpected : Ty.OverOption D.Name expected) : D.Sound .inside s (l.shape e expected) := by
  have hpart : ∀ part ∈ e.parts, D.Follows part := fun _ => he.part
  obtain ⟨hover, -⟩ := id he
  cases e with
  | lit note value => exact sound_literal value note
  | ident note name => exact sound_name hl name hexpected
  | path note path => exact sound_pathValue hl hover.2 hexpected
  | call note callee args =>
    obtain ⟨hcallee, hargs⟩ := forall_mem_cons.1 hpart
    exact sound_lowerCall hl hargs hover.1 hcallee hexpected
  | methodCall note receiver method args =>
    obtain ⟨hreceiver, hargs⟩ := forall_mem_cons.1 hpart
    exact sound_methodCall hl hargs hover.1 hreceiver
  | field note object field =>
    exact sound_fieldValue hl hover.1 (hpart object (mem_singleton_self _)) field
  | record note path inits base =>
    exact sound_record hl he hexpected
  | functionRef note name => exact sound_functionRef hl name hexpected
  | closure note body captures => exact sound_closure hl he
  | block note body => exact sound_block hl he hexpected

theorem sound_fit {value : Value} (hvalue : D.Ok s value)
    (hexpected : Ty.OverOption D.Name expected) :
    D.Sound .inside s (Lowering.fit value expected) := by
  rw [Lowering.fit]
  split
  next behavior args hbehavior _ =>
    obtain ⟨t, ht, hbehavior⟩ := Option.bind_eq_some_iff.1 hbehavior
    have ht := hexpected t ht
    cases t with
    | dyn name own =>
      cases hbehavior
      exact sound_coerceToDyn hvalue ht.1 (Ty.overList_iff.1 ht.2)
    | _ => cases hbehavior
  · exact .pure hvalue

/-- Code under a binding: its types, the closures in it, and what it returns once the expressions in
it can be lowered. -/
structure Serves (D : Discipline session) (b : Bindings) (t : Ty) : Prop where
  bindings : b.Over D.Name
  result : t.Over D.Name
  closes : D.focus.Closes b
  fails : D.focus.Fails
  ret {depth : Nat} : (∀ s {e : Expr} {expected : Option Ty}, D.Follows e →
    Ty.OverOption D.Name expected →
      D.Sound .inside s ((Lowering.ofDepth b t depth).expr e expected)) →
    ∀ s {note : Note} {body : Block} {value : Option Expr}, D.Opens (.block note body) →
      .ret value ∈ body.stmts →
        D.Sound .inside s ((Lowering.ofDepth b t depth).statement (.ret value))

/-- Where any value may be returned, only the types and the closures matter. -/
theorem Serves.of_closes (hb : b.Over D.Name) (hresult : result.Over D.Name)
    (hcloses : D.focus.Closes b) (hfails : D.focus.Fails)
    (hreturns : ∀ value, D.focus.Returns value) : D.Serves b result where
  bindings := hb
  result := hresult
  closes := hcloses
  fails := hfails
  ret {depth} hexpr s note body value hbody hstmt := by
    have hover : (Lowering.ofDepth b result depth).result.Over D.Name := by
      cases depth <;> exact hresult
    exact sound_ret hreturns hover (fun s _ he => hexpr s he (Ty.overOption_some hover)) hbody hstmt

/-- The lowering of expressions up to a depth keeps a discipline. -/
theorem lowers_ofDepth (h : D.Serves b result) (depth : Nat) :
    D.Lowers (Lowering.ofDepth b result depth) := by
  induction depth with
  | zero =>
    exact ⟨h.bindings, h.result, fun s _ _ _ _ => ensures_fail _ h.fails,
      h.ret fun s _ _ _ _ => ensures_fail _ h.fails, h.closes⟩
  | succ depth ih =>
    have hexpr : ∀ s {e : Expr} {expected : Option Ty}, D.Follows e →
        Ty.OverOption D.Name expected →
          D.Sound .inside s ((Lowering.ofDepth b result (depth + 1)).expr e expected) :=
      fun s _ _ he hexpected => .bind (sound_shape ih he.opens hexpected)
        fun value s₁ _ hvalue => sound_fit hvalue hexpected
    exact ⟨h.bindings, h.result, hexpr, h.ret hexpr, h.closes⟩

theorem ensures_lowering (h : D.Serves b result) :
    D.Ensures mode s (Gen.lowering b result) fun _ l => D.Lowers l :=
  .bind (ensures_step .depth h.fails) fun depth _ _ _ =>
    .pure (lowers_ofDepth h depth)

/-! ### The beginning and the end of a function -/

theorem completes_bind {m : Gen α} {f : α → Gen β} {Q : Build → α → Prop}
    (hm : D.Ensures .inside s m Q)
    (hf : ∀ a s', D.Ord .inside s s' → Q s' a → D.Completes s' (f a)) :
    D.Completes s (m >>= f) := by
  intro hs events b last hrun htakes
  obtain ⟨first, a, mid, rest, hfirst, hrest, rfl⟩ := hrun.of_bind
  obtain ⟨htakes, htakes'⟩ := Takes.append_iff.1 htakes
  obtain ⟨hmid, hord, htraced, ha⟩ := hm.ends hs first a mid hfirst htakes
  obtain ⟨hlast, hfinish, haccepts, hleads⟩ := hf a mid hord ha hmid rest b last hrest htakes'
  refine ⟨hlast, ?_, forall_mem_append.2 ⟨htraced.accepts, haccepts⟩, htraced.leads.append hleads⟩
  rw [bounds_append, hfinish, show bounds first = [] from htraced.sets]
  rfl

/-- A value is returned and the function finished. -/
theorem completes_return {value : Option IR.Typed} (h : D.Ok s value)
    (hreturns : D.focus.Returns value) :
    D.Completes s (Gen.emit (.ret value) >>= fun _ => Gen.finishFunction) := by
  intro hs events a last hrun _
  obtain ⟨rest, hrest, rfl⟩ := hrun.of_ask_bind rfl
  obtain ⟨hperform, rfl⟩ := hrest.of_ask
  cases hperform
  exact ⟨D.finish hs h hreturns, rfl, forall_mem_cons.2 ⟨hreturns, forall_mem_singleton.2 trivial⟩,
    .cons rfl trivial (.cons rfl trivial (.nil _))⟩

/-- A function begins, and its code finishes it. -/
theorem sound_beginFunction {ret : IR.Ty} {params : List IR.Typed} (symbol : String)
    {code : Gen PUnit} (hret : D.Ok s ret) (hparams : D.Ok s params)
    (hcode : ∀ s', D.Completes s' code) :
    D.Sound .outside s (Gen.beginFunction ret symbol params >>= fun _ => code) := by
  refine ⟨fun hs events a last hrun htakes => ?_, fun hmode => by cases hmode⟩
  obtain ⟨rest, hrest, rfl⟩ := hrun.of_ask_bind rfl
  obtain ⟨hlast, hfinish, haccepts, hleads⟩ :=
    hcode _ (D.begin symbol hs hret hparams) rest a last hrest (forall_mem_cons.1 htakes).2
  refine ⟨hlast, by rintro ⟨⟩, ⟨?_, ?_, .cons rfl trivial hleads⟩, trivial⟩
  · rw [← singleton_append, bounds_append, hfinish]
    exact ⟨1, rfl⟩
  · exact forall_mem_cons.2 ⟨trivial, haccepts⟩

/-! ### Parameters -/

/-- A discipline that whole compilations keep. -/
class IsFull (D : Discipline session) : Prop where
  /-- Any function may be lowered under any binding. -/
  allows (f : FunctionDef) (b : Bindings) : D.focus.Allows f b

theorem sound_paramSlots (hb : b.Over D.Name) {params : List Param}
    (hparams : ∀ param ∈ params, param.ty.Over D.Name) :
    D.Sound mode s (Gen.paramSlots b params) := by
  refine sound_mapM (fun _ h => h) fun param hparam s => ?_
  have ht := (hparams param hparam).subst hb
  exact .bind (sound_irType _ ht s) fun ir _ _ hir => .pure ⟨ht, hir⟩

theorem ok_headerParams (isClosure hasReceiver : Bool) (h : D.Ok s params) :
    D.Ok s (Gen.headerParams isClosure hasReceiver params) := by
  refine forall_mem_append.2 ⟨forall_mem_append.2 ⟨?_, ?_⟩, fun typed htyped => ?_⟩
  · cases isClosure with
    | false => exact forall_mem_nil _
    | true => exact forall_mem_singleton.2 ⟨ok_closed rfl, trivial⟩
  · cases hasReceiver with
    | false => exact forall_mem_nil _
    | true => exact forall_mem_singleton.2 ⟨ok_closed rfl, trivial⟩
  · obtain ⟨slot, hslot, rfl⟩ := mem_map.1 htyped
    exact ⟨(h slot hslot).2, trivial⟩

section

variable {f : FunctionDef} {receiver : Option Receiver} {d : ClassDef} {args : List Ty}
  (hbinds : ∀ name, D.focus.Binds name)

include hbinds

theorem sound_bindCaptures {record : IR.Ty} (hrecord : D.Ok s record) (index : Nat)
    {captures : List ParamSlot} (hcaptures : D.Ok s captures) :
    D.Sound .inside s (Gen.bindCaptures record index captures) := by
  induction captures generalizing s index with
  | nil => exact .pure trivial
  | cons c rest ih =>
    obtain ⟨hc, hrest⟩ := forall_mem_cons.1 hcaptures
    have henv : D.Ok s IR.Operand.env := trivial
    refine .bind (sound_member hrecord henv index) fun addr s₁ hord₁ haddr => ?_
    refine .bind (sound_bindLocal (hbinds _) ⟨haddr, hc.1, mono hord₁ hc.2⟩)
      fun _ s₂ hord₂ _ => ?_
    have hord := D.trans hord₁ hord₂
    exact ih (mono hord hrecord) (index + 1) (mono hord hrest)

theorem sound_bindSelf {receiver : Receiver} {operand : IR.Operand}
    (hreceiver : receiver.ty.Over D.Name) (hoperand : D.Ok s operand) :
    D.Sound .inside s (Gen.bindSelf receiver operand) := by
  refine .bind (sound_irType _ hreceiver s) fun ir s₁ hord hir => ?_
  refine sound_bindLocal (hbinds _) ⟨?_, hreceiver, hir⟩
  dsimp only
  split <;> exact mono hord hoperand

theorem sound_bindParams (hparams : D.Ok s params) : D.Sound .inside s (Gen.bindParams params) := by
  refine sound_forM (P := fun s => D.Ok s params) (fun hord h => mono hord h) hparams
    fun param hparam s hparams => ?_
  obtain ⟨hty, hir⟩ := hparams param hparam
  refine .bind (sound_alloca hir) fun addr s₁ hord₁ haddr => ?_
  have hir := mono hord₁ hir
  refine .bind (sound_store hir trivial haddr) fun _ s₂ hord₂ _ => ?_
  exact sound_bindLocal (hbinds _) ⟨mono hord₂ haddr, hty, mono hord₂ hir⟩

end

/-! ### Functions and constructors -/

section

variable {f : FunctionDef} {receiver : Option Receiver} {d : ClassDef} {args : List Ty}
  (hf : f.Over D.Name) (hallows : D.focus.Allows f b) (hb : b.Over D.Name)

include hf hallows hb

omit hb in
theorem opens_body {body : Block} (h : f.body = some body) : D.Opens (.block {} body) := by
  exact ⟨⟨Ty.overOption_none, hf.body body h⟩, D.focus.opens (hallows.code body h)⟩

/-- The places of the captured values and of the receiver come before code that finishes a
function. -/
theorem completes_bindPlaces {rest : Gen Unit} (hreceiver : ∀ r ∈ receiver, r.ty.Over D.Name)
    (hrest : ∀ s', D.Ord .inside s s' → D.Completes s' rest) :
    D.Completes s (do
      if f.isClosureBody then
        let captures ← Gen.paramSlots b f.captures
        Gen.bindCaptures (.anon (captures.map ParamSlot.ir)) 0 captures
      match receiver with
      | some r => Gen.bindSelf r .self
      | none => pure ()
      rest) := by
  have hself : ∀ s', D.Ord .inside s s' → D.Completes s' (do
      match receiver with
      | some r => Gen.bindSelf r .self
      | none => pure ()
      rest) := by
    intro s₄ hord₄
    cases receiver with
    | none => exact hrest s₄ hord₄
    | some r =>
      exact completes_bind (sound_bindSelf hallows.binds (hreceiver r rfl) trivial)
        fun _ s₅ hord₅ _ => hrest s₅ (D.trans hord₄ hord₅)
  dsimp only
  split
  · refine completes_bind (sound_paramSlots hb hf.captures) fun captures s₄ hord₄ hcaptures => ?_
    have hirs : D.Ok s₄ (IR.Ty.anon (captures.map ParamSlot.ir)) :=
      ok_anon (forall_mem_map.2 fun slot hslot => (hcaptures slot hslot).2)
    exact completes_bind (sound_bindCaptures hallows.binds hirs 0 hcaptures)
      fun _ s₅ hord₅ _ => hself s₅ (D.trans hord₄ hord₅)
  · exact hself s (D.refl _ _)

/-- The code of a function after its beginning finishes it. -/
theorem completes_functionBody (hreceiver : ∀ r ∈ receiver, r.ty.Over D.Name)
    (hparams : D.Ok s params) :
    D.Completes s (do
      if f.isClosureBody then
        let captures ← Gen.paramSlots b f.captures
        Gen.bindCaptures (.anon (captures.map ParamSlot.ir)) 0 captures
      match receiver with
      | some r => Gen.bindSelf r .self
      | none => pure ()
      Gen.bindParams params
      let l ← Gen.lowering b (f.ret.subst b)
      let value ←
        match f.body with
        | some body => l.block body (some (f.ret.subst b))
        | none => pure .unit
      l.emitReturn value
      Gen.finishFunction) := by
  have hresult := hf.ret.subst hb
  refine completes_bindPlaces hf hallows hb hreceiver fun s₄ hord₄ => ?_
  refine completes_bind (sound_bindParams hallows.binds (mono hord₄ hparams)) fun _ s₅ _ _ => ?_
  refine completes_bind (ensures_lowering (.of_closes hb hresult hallows.closes hallows.fails
    hallows.returns)) fun l s₆ _ hl => ?_
  have hreturn : ∀ (value : Value) s, D.Ok s value → D.Completes s (do
      l.emitReturn value
      Gen.finishFunction) := by
    intro value s hvalue
    rw [Lowering.emitReturn, bind_assoc]
    refine completes_bind (sound_returnType hl.result) fun ir s₁ hord hir => ?_
    exact completes_return (ok_retValue hir (mono hord hvalue.1)) (hallows.returns _)
  dsimp only
  split
  next body hfbody =>
    exact completes_bind (sound_block hl (opens_body hf hallows hfbody)
      (Ty.overOption_some hresult)) fun value s₇ _ hvalue => hreturn value s₇ hvalue
  · exact hreturn .unit s₆ ok_unit

/-- The code of a function. -/
theorem sound_lowerFunction (symbol : String) (hreceiver : ∀ r ∈ receiver, r.ty.Over D.Name) :
    D.Sound .outside s (Gen.lowerFunction f symbol b receiver) := by
  refine .bind (sound_paramSlots hb hf.params) fun params s₁ _ hparams => ?_
  refine .bind (sound_returnType (hf.ret.subst hb)) fun ret s₂ _ hret => ?_
  exact sound_beginFunction symbol hret (ok_headerParams _ _ hparams) fun _ =>
    completes_functionBody hf hallows hb hreceiver hparams

/-- The code of a constructor after its beginning finishes it. -/
theorem completes_constructorBody (hclass : session.program.NamesClass d.name) (hd : d.Over D.Name)
    (hargs : ∀ t ∈ args, t.Over D.Name) (hparams : D.Ok s params) :
    D.Completes s (do
      let object ← Gen.newInstance d args
      Gen.bindSelf (.ofClass d args) object
      Gen.bindParams params
      let l ← Gen.lowering b (.ofName d.name args)
      match f.body with
      | some body => discard <| l.block body none
      | none => pure ()
      let value ← Gen.instanceValue d args object
      Gen.emit (.ret (some value.typed))
      Gen.finishFunction) := by
  have ht := Ty.over_ofName hd.name hargs
  refine completes_bind (sound_newInstance hclass hd hargs) fun object s₄ hord₄ hobject => ?_
  refine completes_bind (sound_bindSelf hallows.binds ht hobject) fun _ s₅ hord₅ _ => ?_
  refine completes_bind (sound_bindParams hallows.binds (mono (D.trans hord₄ hord₅) hparams))
    fun _ s₆ hord₆ _ => ?_
  refine completes_bind (ensures_lowering (.of_closes hb ht hallows.closes hallows.fails
    hallows.returns)) fun l s₇ hord₇ hl => ?_
  have hobject := mono (D.trans hord₅ (D.trans hord₆ hord₇)) hobject
  have hreturn : ∀ s', D.Ord .inside s₇ s' → D.Completes s' (do
      let value ← Gen.instanceValue d args object
      Gen.emit (.ret (some value.typed))
      Gen.finishFunction) := fun s₈ hord₈ =>
    completes_bind (sound_instanceValue hclass hd hargs (mono hord₈ hobject))
      fun value s₉ _ hvalue => completes_return (ok_some (ok_typed hvalue)) (hallows.returns _)
  dsimp only
  split
  next body hbody =>
    exact completes_bind (ensures_discard (sound_block hl (opens_body hf hallows hbody) nofun))
      fun _ s₈ hord₈ _ => hreturn s₈ hord₈
  · exact hreturn s₇ (D.refl _ _)

/-- The code of a constructor. -/
theorem sound_lowerConstructor (hclass : session.program.NamesClass d.name) (hd : d.Over D.Name)
    (hargs : ∀ t ∈ args, t.Over D.Name) (symbol : String) :
    D.Sound .outside s (Gen.lowerConstructor d args f symbol b) := by
  refine .bind (sound_paramSlots hb hf.params) fun params s₁ _ hparams => ?_
  refine .bind (sound_instanceType hclass hd hargs) fun ret s₂ _ hret => ?_
  exact sound_beginFunction symbol hret (ok_headerParams _ _ hparams) fun _ =>
    completes_constructorBody hf hallows hb hclass hd hargs hparams

end

end Discipline

end Monomorph
