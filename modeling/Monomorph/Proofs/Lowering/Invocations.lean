import Monomorph.Proofs.Lowering.Constructions

/-!
# Function values and intrinsics keep a discipline
-/

namespace Monomorph

open List Script

namespace Discipline

open Facts Elements Representing

variable {session : Session} {D : Discipline session} {mode : Mode} {s s' : Build} {l : Lowering}
  {args : List Expr} {f : FunctionDef} {path : Path} {span : Span} {name : String} {note : Note}
  {captures : List String} {v : Value}

theorem ok_ofDef {b : Bindings} (hf : f.Over D.Name) (hb : b.Over D.Name) (name : String) :
    D.Ok s (Signature.ofDef name f b) := by
  exact ⟨forall_mem_map.2 fun param hparam => (hf.params param hparam).subst hb, hf.ret.subst hb⟩

theorem ok_func (hf : session.program.function? name = some f) {args : List Ty}
    (h : ∀ t ∈ args, t.Over D.Name) (hclosed : session.program.isOpenList args = false) :
    D.Ok s (WorkItem.plain .func f.name args) :=
  ⟨D.code rfl (.of_plain (.func hf args) hclosed), h, ok_none⟩

theorem ok_ofMethod {owner method : String} {ownerArgs methodArgs : List Ty}
    (hgrants : D.focus.Grants (.ofMethod owner ownerArgs method methodArgs))
    (hownerArgs : ∀ t ∈ ownerArgs, t.Over D.Name) (hmethodArgs : ∀ t ∈ methodArgs, t.Over D.Name) :
    D.Ok s (WorkItem.ofMethod owner ownerArgs method methodArgs) :=
  ⟨D.code rfl hgrants, hownerArgs, ok_some hmethodArgs⟩

/-- The symbol that stands for an instance of a generic function. -/
theorem ensures_requestGeneric (hf : session.program.function? name = some f)
    (hgeneric : f.isGeneric = true) {args : List Ty} (h : ∀ t ∈ args, t.Over D.Name) :
    D.Ensures mode s (Gen.request (.plain .func f.name args) (session.program.isOpenList args))
      fun _ own => D.focus.Refers (session.symbol own) :=
  (ensures_request (ok_func hf h) fun _ => D.focus.defers fun _ =>
    ⟨name, f, hf, hgeneric, rfl⟩).weaken fun _ _ h => h rfl

/-- The symbol that stands for a method instance. -/
theorem ensures_requestMethod {owner method : String} {ownerArgs methodArgs : List Ty}
    {isOpen : Bool}
    (hgrants : isOpen = false → D.focus.Grants (.ofMethod owner ownerArgs method methodArgs))
    (hownerArgs : ∀ t ∈ ownerArgs, t.Over D.Name) (hmethodArgs : ∀ t ∈ methodArgs, t.Over D.Name) :
    D.Ensures mode s (Gen.request (.ofMethod owner ownerArgs method methodArgs) isOpen)
      fun _ own => D.focus.Refers (session.symbol own) :=
  (ensures_request (fun hclosed => ok_ofMethod (hgrants hclosed) hownerArgs hmethodArgs)
    fun _ => D.focus.defers (by rintro ⟨⟩)).weaken fun _ _ h => h rfl

/-! ### Function values -/

/-- A function that is not generic is declared, unless the module at hand has one of that name. -/
theorem ensures_plainSymbol (hfind : session.program.function? name = some f)
    (hgeneric : f.isGeneric = false) :
    D.Ensures mode s (Lowering.plainSymbol f) fun _ symbol => D.focus.Refers symbol := by
  have hsig : ∀ s, D.Ok s (Signature.ofDef f.name f .empty) :=
    fun s => ok_ofDef (D.program.function? hfind) Bindings.over_empty _
  rw [Lowering.plainSymbol]
  dsimp only
  split
  · exact .bind (ensures_declareCallee _ (hsig s) _) fun _ _ _ h => .pure h
  next hlinked =>
    refine .functionSymbol (.program ?_)
    refine ensures_declare_when (hsig s) (fun hhome => ?_) fun s₃ _ h => .pure h
    rw [Bool.not_eq_true', Bool.not_eq_false] at hhome
    exact D.focus.listed (.function hfind hgeneric (Bool.eq_false_iff.2 hlinked) hhome)

section

variable (hl : D.Lowers l)

include hl

theorem sound_functionRef (name : String) {expected : Option Ty}
    (hexpected : Ty.OverOption D.Name expected) :
    D.Sound .inside s (l.functionRef name span expected) := by
  refine .program ?_
  split
  · exact sound_refused (by decide) rfl ⟨trivial, trivial⟩
  next f hfind =>
    have hf := D.program.function? hfind
    split
    · rename_i hgeneric
      refine .bind (ensures_bindItem hl (forall_mem_nil _) f.generics
        (forall_mem_nil _) [] _ hexpected trivial) fun found s₂ _ hfound => ?_
      refine .bind sound_reportDefaulted fun _ s₃ _ _ => ?_
      refine .bind (ensures_requestGeneric hfind hgeneric hfound.1.1) fun own s₄ _ hown => ?_
      exact .functionSymbol
        (.pure ⟨hown, ok_closed rfl, hf.fnType.subst (Bindings.over_ofArgs hfound.1.1 _)⟩)
    · rename_i hgeneric
      exact .bind (ensures_plainSymbol hfind (Bool.eq_false_iff.2 hgeneric))
        fun symbol s₂ _ hsymbol => .pure ⟨hsymbol, ok_closed rfl, hf.fnType⟩

/-- The code of a closure is an instance, or a closure body that mentions no type parameter. -/
theorem ensures_closureSymbol (he : D.Opens (.closure note name captures))
    (hfind : session.program.function? name = some f) (hbody : f.isClosureBody = true) :
    D.Ensures .inside s (l.closureSymbol f) fun _ symbol => D.focus.Refers symbol := by
  have hf := D.program.function? hfind
  refine .program ?_
  dsimp only
  split
  next hparams => exact ensures_functionSymbol (D.focus.listed (.closure hfind hbody hparams))
  · refine .bind (ensures_request (ok_func hfind fun t ht => ?_)
      (hl.closes he.2 hfind hbody)) fun own s₂ _ hown => ensures_functionSymbol (hown rfl)
    obtain ⟨name, hname, rfl⟩ := mem_map.1 ht
    exact hl.subst (Ty.over_param (session.program.over_closureParams hf name hname))

theorem sound_storeCaptures {record : IR.Ty} {environment : IR.Operand} (hrecord : D.Ok s record)
    (henvironment : D.Ok s environment) (index : Nat) {captures : List (String × IR.Ty)}
    (hcaptures : D.Ok s captures)
    (hcode : ∀ capture ∈ captures, D.focus.Code (.ident { span } capture.1)) :
    D.Sound .inside s (l.storeCaptures record environment span index captures) := by
  induction captures generalizing s index with
  | nil => exact .pure trivial
  | cons capture captures ih =>
    obtain ⟨name, ir⟩ := capture
    obtain ⟨hcapture, hcaptures⟩ := forall_mem_cons.1 hcaptures
    obtain ⟨hname, hcode⟩ := forall_mem_cons.1 hcode
    have hname : D.Follows (.ident { span } name) := ⟨nofun, hname⟩
    refine .bind (hl.expr s hname nofun) fun value s₁ hord₁ hvalue => ?_
    refine .bind (sound_member (mono hord₁ hrecord) (mono hord₁ henvironment) index)
      fun slot s₂ hord₂ hslot => ?_
    have hord := D.trans hord₁ hord₂
    refine .bind (sound_store (mono hord hcapture.2) (mono hord₂ hvalue.1) hslot)
      fun _ s₃ hord₃ _ => ?_
    have hord := D.trans hord hord₃
    exact ih (mono hord hrecord) (mono hord henvironment) (index + 1) (mono hord hcaptures) hcode

/-- A closure as a value. -/
theorem sound_closure {body : String} (he : D.Opens (.closure note body captures)) :
    D.Sound .inside s (l.closure body captures note.span) := by
  have hfailed : ∀ s, D.Ok s (Value.placeholder .fatPtr (.closure [] (.prim .unit))) :=
    fun s => ok_placeholder (ok_closed rfl) ⟨trivial, trivial⟩
  refine .program ?_
  split
  · exact .bind (sound_error (by decide)) fun _ s₂ _ _ => .pure (hfailed s₂)
  next f hfound =>
    obtain ⟨hfind, hbody⟩ := Option.filter_eq_some_iff.1 hfound
    have hf := D.program.function? hfind
    split
    · exact .bind (sound_error (by decide)) fun _ s₂ _ _ => .pure (hfailed s₂)
    · have htypes : ∀ t ∈ f.captures.map fun capture => l.subst capture.ty, t.Over D.Name :=
        forall_mem_map.2 fun capture hcapture => hl.subst (hf.captures capture hcapture)
      refine .bind (sound_irTypes _ (Ty.overList_iff.2 htypes) s) fun irs s₂ _ hirs => ?_
      refine .bind (sound_sizeOf (Ty.overList_iff.2 htypes)) fun size s₃ hord₃ _ => ?_
      refine .bind (sound_allocate _) fun environment s₄ hord₄ henvironment => ?_
      have hirs := mono (D.trans hord₃ hord₄) hirs
      refine .bind (sound_storeCaptures hl (ok_anon hirs) henvironment 0
        (fun pair hpair => ⟨trivial, hirs _ (of_mem_zip hpair).2⟩)
        fun pair hpair => D.focus.opened he.2 _ (mem_append_right _
          (mem_map_of_mem (of_mem_zip hpair).1))) fun _ s₅ hord₅ _ => ?_
      refine .bind (ensures_closureSymbol hl he hfind hbody) fun symbol s₆ hord₆ hsymbol => ?_
      have henvironment := mono (D.trans hord₅ hord₆) henvironment
      refine ensures_define
        (f := fun r => .insertValue r ⟨.fatPtr, .thin symbol⟩ ⟨.ptr, environment⟩ 1)
        (fun _ => rfl) (fun _ => rfl)
        (fun _ => ⟨ok_pair (ok_closed rfl) (ok_closed rfl), ok_pair hsymbol henvironment⟩)
        fun r s₇ _ hr => .pure ⟨hr, ok_closed rfl, ?_, hl.subst hf.ret⟩
      exact Ty.overList_iff.2 (forall_mem_map.2 fun own hown => hl.subst (hf.paramTypes own hown))

end

theorem sound_callValue {ret : Ty} {args : List IR.Typed} (hv : D.Ok s v) (hret : ret.Over D.Name)
    (hargs : D.Ok s args) : D.Sound .inside s (Gen.callValue v ret args) := by
  refine .bind (sound_returnType hret) fun retIR s₁ hord₁ hretIR => ?_
  have hv := mono hord₁ hv
  refine ensures_define (f := fun r => .extractValue r ⟨.fatPtr, v.operand⟩ 0) (fun _ => rfl)
    (fun _ => rfl)
    (fun _ => ⟨forall_mem_singleton.2 (ok_closed rfl), forall_mem_singleton.2 hv.1⟩)
    fun code s₂ hord₂ hcode => ?_
  refine ensures_define (f := fun r => .extractValue r ⟨.fatPtr, v.operand⟩ 1) (fun _ => rfl)
    (fun _ => rfl)
    (fun _ => ⟨forall_mem_singleton.2 (ok_closed rfl), forall_mem_singleton.2 (mono hord₂ hv.1)⟩)
    fun environment s₃ hord₃ henvironment => ?_
  have hcode := mono hord₃ hcode
  have hretIR := mono (D.trans hord₂ hord₃) hretIR
  have hargs := mono (D.trans hord₁ (D.trans hord₂ hord₃)) hargs
  have hresult : ∀ result s', D.Ord .inside s₃ s' → D.Ok s' result →
      D.Sound .inside s' (pure (Value.ofCall result retIR ret)) :=
    fun result s₄ hord hresult => .pure (ok_ofCall hresult (mono hord hretIR) hret)
  split
  · exact .bind (sound_call hretIR hcode trivial hargs) hresult
  · exact .bind (sound_call hretIR hcode trivial
      (forall_mem_cons.2 ⟨⟨ok_closed rfl, henvironment⟩, hargs⟩)) hresult
  · exact .bind (D.callEither hretIR hcode trivial henvironment hargs) hresult

variable (hl : D.Lowers l) (hargs : ∀ e ∈ args, D.Follows e)

include hl hargs

theorem sound_callFunction (hv : D.Ok s v) : D.Sound .inside s (l.callFunction v args span) := by
  rw [Lowering.callFunction]
  split
  · refine .bind (sound_evaluate hl hargs) fun _ s₁ _ _ => ?_
    exact sound_refused (by decide) rfl trivial
  next params ret hsignature =>
    obtain ⟨hparams, hret⟩ := hv.2.2.signature? hsignature
    refine .bind (sound_checkArity hl hargs _ _) fun fits s₁ hord₁ _ => ?_
    split
    · exact sound_placeholder hret
    · refine .bind (sound_arguments hl hargs hparams nofun) fun lowered s₂ hord₂ hlowered =>
        ?_
      exact sound_callValue (mono (D.trans hord₁ hord₂) hv) hret hlowered

theorem sound_callField {object : Expr} (hobject : D.Follows object) (field : String) :
    D.Sound .inside s (l.callField object field args span) := by
  refine .bind (sound_fieldPlace hl hobject field) fun found s₁ _ hfound => ?_
  cases found with
  | none =>
    exact .bind (sound_evaluate hl hargs) fun _ _ _ _ =>
      .pure (ok_placeholder (ok_closed rfl) trivial)
  | some place =>
    obtain ⟨haddr, hty⟩ := hfound place rfl
    dsimp only
    split
    · refine .bind (sound_evaluate hl hargs) fun _ s₂ _ _ => ?_
      exact sound_refused (by decide) rfl trivial
    · refine .bind (sound_load (ok_closed rfl) haddr) fun operand s₂ _ hoperand => ?_
      exact sound_callFunction hl hargs ⟨hoperand, ok_closed rfl, hty⟩

/-! ### Intrinsics -/

omit hl hargs in
theorem ok_runtime (t : RuntimeTy) : D.Ok s t.ir := by
  cases t <;> exact ok_closed rfl

omit hl hargs in
theorem over_runtime {P : Vocabulary} (t : RuntimeTy) : t.ty.Over P := by
  cases t <;> exact trivial

omit hl hargs in
theorem sound_equality {left right : Value} (hleft : D.Ok s left) (hright : D.Ok s right) :
    D.Sound .inside s (Gen.equality left right) := by
  refine ensures_fresh fun s₁ hord₁ hr => ?_
  have hleft := mono hord₁ hleft
  have hright := mono hord₁ hright
  dsimp only
  split
  · refine .bind (ensures_declare _ (ok_closed rfl) (ok_pair (ok_closed rfl) (ok_closed rfl)))
      fun _ s₂ hord₂ hdeclared => ?_
    exact fills_emit (hr.mono hord₂) rfl rfl (ok_call (ok_closed rfl) trivial
      (ok_pair ⟨ok_closed rfl, mono hord₂ hleft.1⟩ ⟨ok_closed rfl, mono hord₂ hright.1⟩)) hdeclared
      fun s₃ _ hr => .pure hr
  · split
    · exact fills_emit hr rfl rfl
        ⟨forall_mem_singleton.2 hleft.2.1, ok_pair hleft.1 hright.1⟩ trivial
        fun s₂ _ hr => .pure hr
    · split
      · exact fills_emit hr rfl rfl
          ⟨forall_mem_singleton.2 hleft.2.1, ok_pair hleft.1 hright.1⟩ trivial
          fun s₂ _ hr => .pure hr
      · -- The temporary waits while both values are put in memory.
        refine .bind (sound_sizeOf hleft.2.2) fun size s₂ hord₂ _ => ?_
        refine .bind (sound_spill (mono hord₂ hleft)) fun a s₃ hord₃ ha => ?_
        refine .bind (sound_spill (mono (D.trans hord₂ hord₃) hright)) fun b s₄ hord₄ hb => ?_
        refine .bind (ensures_declare _ (ok_closed rfl)
          (forall_mem_cons.2 ⟨ok_closed rfl, ok_pair (ok_closed rfl) (ok_closed rfl)⟩))
          fun _ s₅ hord₅ hdeclared => ?_
        have hr := hr.mono (D.trans (D.trans hord₂ hord₃) (D.trans hord₄ hord₅))
        exact fills_emit hr rfl rfl (ok_call (ok_closed rfl) trivial
          (forall_mem_cons.2 ⟨⟨ok_closed rfl, mono (D.trans hord₄ hord₅) ha.1⟩,
            ok_pair ⟨ok_closed rfl, mono hord₅ hb.1⟩ ⟨ok_closed rfl, trivial⟩⟩)) hdeclared
          fun s₆ _ hr => .pure hr

theorem sound_callRuntime (name symbol : String) (params : List RuntimeTy) (ret : RuntimeTy)
    (hnote : Ty.OverOption D.Name note.ty) :
    D.Sound .inside s (l.callRuntime name symbol params ret args note) := by
  have hcall : ∀ (retTy : Ty) s, retTy.Over D.Name → D.Sound .inside s (do
      if !(← l.checkArity name params.length args note.span) then
        return .placeholder ret.ir retTy
      let lowered ← l.arguments (params.map RuntimeTy.ty) args []
      Gen.declare symbol ret.ir (params.map RuntimeTy.ir)
      return Value.ofCall (← Gen.call ret.ir (.global symbol) lowered) ret.ir retTy) := by
    intro retTy s hretTy
    refine .bind (sound_checkArity hl hargs _ _) fun fits s₁ _ _ => ?_
    split
    · exact .pure (ok_placeholder (ok_runtime ret) hretTy)
    · refine .bind (sound_arguments hl hargs (forall_mem_map.2 fun own _ => over_runtime own) nofun)
        fun lowered s₂ _ hlowered => ?_
      · refine .bind (ensures_declare symbol (ok_runtime ret)
          (forall_mem_map.2 fun own _ => ok_runtime own)) fun _ s₃ hord₃ hdeclared => ?_
        · exact .bind (sound_call (ok_runtime ret) trivial hdeclared
            (mono hord₃ hlowered)) fun _ s₄ _ hresult =>
              .pure (ok_ofCall hresult (ok_runtime ret) hretTy)
  have hty : ∀ t ∈ note.ty.map l.subst, t.Over D.Name := by
    intro t ht
    obtain ⟨own, hown, rfl⟩ := Option.map_eq_some_iff.1 ht
    exact hl.subst (hnote own hown)
  rw [Lowering.callRuntime]
  dsimp only
  split
  next t ht =>
    split
    · exact hcall _ s (over_runtime ret)
    · refine .bind (sound_irType t (hty t ht) s) fun ir s₁ _ _ => hcall _ s₁ ?_
      split
      · exact hty t ht
      · exact over_runtime ret
  · exact hcall _ s (over_runtime ret)

omit hargs in
theorem sound_layoutNumber (hpath : path.Over D.Name) (name : String) (number : Extent → UInt64) :
    D.Sound .inside s (l.layoutNumber path name span number) := by
  rw [Lowering.layoutNumber]
  split
  · exact sound_refused (by decide) rfl trivial
  next t _ hpathArgs =>
    exact .bind (sound_extentOf (hl.subst (hpath t (by rw [hpathArgs]; exact mem_cons_self))))
      fun _ _ _ _ => .pure ⟨trivial, ok_closed rfl, trivial⟩

theorem sound_atomicElem (hpath : path.Over D.Name) :
    D.Sound .inside s (l.atomicElem path args) := by
  rw [Lowering.atomicElem]
  split
  next t _ hpathArgs => exact .pure (hl.subst (hpath t (by rw [hpathArgs]; exact mem_cons_self)))
  · split
    next e he =>
      exact .bind (sound_evidentType hl (hargs e (mem_of_getElem? he)).1) fun t s₁ _ ht =>
        .pure (Ty.OverOption.getD ht trivial)
    · exact .pure trivial

omit hargs in
theorem sound_atomicValue {e : Expr} {elem : Ty} {ir : IR.Ty} (he : D.Follows e)
    (helem : elem.Over D.Name) (hir : D.Ok s ir) : D.Sound .inside s (l.atomicValue e elem ir) := by
  refine .bind (hl.expr s he (Ty.overOption_some helem)) fun value s₁ hord₁ hvalue => ?_
  exact .bind (sound_convertTo hvalue elem ir) fun value s₂ hord₂ hvalue =>
    .pure ⟨mono (D.trans hord₁ hord₂) hir, hvalue.1⟩

theorem sound_atomicAccess (hpath : path.Over D.Name) (access : Access) :
    D.Sound .inside s (l.atomicAccess path args span access) := by
  refine .bind (sound_checkArity hl hargs _ _) fun fits s₁ _ _ => ?_
  split
  · exact .pure (ok_placeholder (ok_closed rfl) trivial)
  · refine .bind (sound_atomicElem hl hargs hpath) fun elem s₂ _ helem => ?_
    refine .bind (sound_irType elem helem s₂) fun ir s₃ _ hir => ?_
    refine .bind (sound_extentOf helem) fun extent s₄ hord₄ _ => ?_
    have hir := mono hord₄ hir
    dsimp only
    split
    · obtain ⟨hpointer, -⟩ := forall_mem_cons.1 hargs
      refine .bind (hl.expr s₄ hpointer nofun) fun pointer s₅ hord₅ hpointer => ?_
      exact ensures_define (f := fun r => .atomicLoad r ir pointer.operand extent.align)
        (fun _ => rfl) (fun _ => rfl)
        (fun _ => ⟨forall_mem_singleton.2 (mono hord₅ hir), forall_mem_singleton.2 hpointer.1⟩)
        fun r s₆ hord₆ hr => .pure ⟨hr, mono (D.trans hord₅ hord₆) hir, helem⟩
    · obtain ⟨hpointer, hargs⟩ := forall_mem_cons.1 hargs
      obtain ⟨he, -⟩ := forall_mem_cons.1 hargs
      refine .bind (hl.expr s₄ hpointer nofun) fun pointer s₅ hord₅ hpointer => ?_
      refine .bind (sound_atomicValue hl he helem (mono hord₅ hir)) fun value s₆ hord₆ hvalue => ?_
      exact .bind (sound_effect rfl rfl
        ⟨forall_mem_singleton.2 hvalue.1, ok_pair hvalue.2 (mono hord₆ hpointer.1)⟩ trivial)
        fun _ _ _ _ => .pure ok_unit
    next op _ _ _ =>
      obtain ⟨hpointer, hargs⟩ := forall_mem_cons.1 hargs
      obtain ⟨he, -⟩ := forall_mem_cons.1 hargs
      refine .bind (hl.expr s₄ hpointer nofun) fun pointer s₅ hord₅ hpointer => ?_
      refine .bind (sound_atomicValue hl he helem (mono hord₅ hir)) fun value s₆ hord₆ hvalue => ?_
      exact ensures_define (f := fun r => .atomicUpdate r op pointer.operand value extent.align)
        (fun _ => rfl) (fun _ => rfl)
        (fun _ => ⟨forall_mem_singleton.2 hvalue.1, ok_pair hvalue.2 (mono hord₆ hpointer.1)⟩)
        fun r s₇ hord₇ hr =>
          .pure ⟨hr, mono (D.trans hord₅ (D.trans hord₆ hord₇)) hir, helem⟩
    · exact .pure ok_unit

omit hargs in
theorem sound_message {arg : Option Expr} (harg : ∀ e ∈ arg, D.Follows e) (default : String) :
    D.Sound .inside s (l.message arg default) := by
  cases arg with
  | some e =>
    exact .bind (hl.expr s (harg e rfl) (Ty.overOption_some trivial)) fun _ _ _ hv =>
      .pure hv.1
  | none => exact sound_stringGlobal default

theorem sound_assertion : D.Sound .inside s (l.assertion args span) := by
  cases args with
  | nil =>
    exact .bind (ensures_discard (sound_checkArity hl hargs _ _)) fun _ _ _ _ =>
      .pure ok_unit
  | cons condition rest =>
    obtain ⟨hcondition, hrest⟩ := forall_mem_cons.1 hargs
    refine .bind (hl.expr s hcondition (Ty.overOption_some trivial)) fun value s₁ _ hvalue => ?_
    refine .bind (sound_message hl (fun e he => hrest e (mem_of_head? he)) _)
      fun text s₂ hord₂ htext => ?_
    exact .bind (D.assertThat (mono hord₂ hvalue.1) htext) fun _ _ _ _ =>
      .pure ok_unit

theorem sound_equalityAssertion (negate : Bool) :
    D.Sound .inside s (l.equalityAssertion args span negate) := by
  rw [Lowering.equalityAssertion.eq_def]
  split
  next first second rest =>
    obtain ⟨hfirst, hargs⟩ := forall_mem_cons.1 hargs
    obtain ⟨hsecond, hrest⟩ := forall_mem_cons.1 hargs
    refine .bind (hl.expr s hfirst nofun) fun left s₁ _ hleft => ?_
    refine .bind (hl.expr s₁ hsecond (Ty.overOption_some hleft.2.2)) fun right s₂ hord₂ hright => ?_
    refine .bind (sound_convertTo hright _ _) fun right s₃ hord₃ hright => ?_
    refine .bind (sound_equality (mono (D.trans hord₂ hord₃) hleft) hright)
      fun equal s₄ _ hequal => ?_
    have htested : ∀ condition s, D.Ok s condition → D.Sound .inside s (do
        let text ← l.message rest.head? (if negate then "assertion failed: values are equal"
            else "assertion failed: values differ")
        Gen.assertThat condition text
        return Value.unit) := by
      intro condition s hcondition
      refine .bind (sound_message hl (fun e he => hrest e (mem_of_head? he)) _)
        fun text s₁ hord₁ htext => ?_
      exact .bind (D.assertThat (mono hord₁ hcondition) htext) fun _ _ _ _ =>
        .pure ok_unit
    cases negate with
    | false => exact htested equal s₄ hequal
    | true =>
      exact ensures_define (f := fun r => .negate r equal) (fun _ => rfl) (fun _ => rfl)
        (fun _ => ⟨nofun, forall_mem_singleton.2 hequal⟩) fun r s₅ _ hr => htested _ s₅ hr
  · exact .bind (ensures_discard (sound_checkArity hl hargs _ _)) fun _ _ _ _ =>
      .pure ok_unit

theorem sound_perform (i : Intrinsic) (hpath : path.Over D.Name)
    (hnote : Ty.OverOption D.Name note.ty) : D.Sound .inside s (l.perform i path args note) := by
  rw [Lowering.perform]
  split
  · exact sound_callRuntime hl hargs _ _ _ _ hnote
  · rw [← bind_assoc]
    exact .bind (D.stop rfl rfl ⟨nofun, nofun⟩ trivial) fun _ _ _ _ => .pure ok_unit
  · exact sound_layoutNumber hl hpath _ _
  · exact sound_layoutNumber hl hpath _ _
  · exact sound_atomicAccess hl hargs hpath _
  · exact .bind (sound_effect rfl rfl ⟨nofun, nofun⟩ trivial) fun _ _ _ _ =>
      .pure ok_unit
  · exact sound_assertion hl hargs
  · exact sound_equalityAssertion hl hargs _
  · refine .bind (sound_message hl (fun e he => hargs e (mem_of_head? he)) _)
      fun text s₁ _ htext => ?_
    rw [← bind_assoc]
    exact .bind (ensures_stopWith htext fun _ => D.stop rfl rfl ⟨nofun, nofun⟩ trivial)
      fun _ _ _ _ => .pure ok_unit

theorem sound_intrinsic (hpath : path.Over D.Name) (hnote : Ty.OverOption D.Name note.ty) :
    D.Sound .inside s (l.intrinsic path args note) := by
  rw [Lowering.intrinsic]
  split
  · exact .pure nofun
  · exact .bind (sound_perform hl hargs _ hpath hnote) fun _ _ _ hv =>
      .pure (ok_some hv)

end Discipline

end Monomorph
