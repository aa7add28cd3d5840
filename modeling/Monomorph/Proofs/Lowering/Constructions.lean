import Monomorph.Proofs.Lowering.Places

/-!
# Instances, literals and enum values keep a discipline
-/

namespace Monomorph

open List Script

namespace Discipline

open Facts Elements Representing

variable {session : Session} {D : Discipline session} {mode : Mode} {s s' : Build} {l : Lowering}
  {inits : List FieldInit} {d : ClassDef} {args : List Ty} {expected : Option Ty}
  {base : Option Expr} {slot addr object : IR.Operand} {path : Path} {span : Span} {name : String}
  {note : Note} {e : Expr} {t : Ty} {struct : IR.Ty}

theorem namesClass_of_class? {p : Program} (h : p.class? name = some d) : p.NamesClass d.name := by
  obtain ⟨m, hm, hd⟩ := Program.mem_of_lookup h
  exact .own hm hd

/-! ### Class instances -/

theorem sound_registerCtor {m : Module} {f : FunctionDef} (hm : m ∈ session.program.modules)
    (hmem : d ∈ m.classes.items) (hgenerics : d.generics.isEmpty = true)
    (hf : f ∈ d.constructors) : D.Sound mode s (Gen.registerCtor d f) := by
  have hd := (D.program m hm).classes d hmem
  refine .bind (ensures_irTypes (hd.constructors f hf).paramTypes) fun params s₁ _ hparams =>
    ?_
  refine .bind (sound_instanceType (.own hm hmem) hd (forall_mem_nil _)) fun ret s₂ _ hret => ?_
  obtain ⟨-, rfl⟩ := hparams
  exact .functionSymbol (ensures_step (.registerCtor ..)
    ⟨⟨d, f, ⟨⟨m, hm, hmem⟩, hgenerics, hf, rfl⟩, rfl⟩, hret,
      D.focus.listed (.constructor hm hmem hgenerics hf)⟩)

theorem sound_registerCtors : D.Sound mode s Gen.registerCtors := by
  refine .program ?_
  refine sound_forM (P := fun _ => True) (fun _ _ => trivial) trivial fun m hm s _ => ?_
  refine sound_forM (P := fun _ => True) (fun _ _ => trivial) trivial fun d hd s _ => ?_
  obtain ⟨hmem, hgenerics⟩ := mem_filter.1 hd
  exact sound_forM (P := fun _ => True) (fun _ _ => trivial) trivial fun f hf s _ =>
    sound_registerCtor hm hmem hgenerics hf

theorem sound_newInstance (hclass : session.program.NamesClass d.name) (hd : d.Over D.Name)
    (hargs : ∀ t ∈ args, t.Over D.Name) : D.Sound .inside s (Gen.newInstance d args) := by
  refine .bind (D.classStruct hclass hd.name hargs) fun struct s₁ _ hstruct => ?_
  split
  · refine .bind (sound_alloca hstruct) fun slot s₂ hord₂ hslot => ?_
    exact .bind (sound_store (mono hord₂ hstruct) trivial hslot) fun _ s₃ hord₃ _ =>
      .pure (mono hord₃ hslot)
  · refine .bind (ensures_step (.classExtent d args) ⟨hd, hargs⟩) fun extent s₂ _ _ => ?_
    refine .bind (sound_allocate _) fun object s₃ _ hobject => ?_
    refine .bind (sound_requireTable hargs) fun table s₄ hord₄ htable => ?_
    exact .bind (sound_store (ok_closed rfl) htable (mono hord₄ hobject))
      fun _ s₅ hord₅ _ => .pure (mono hord₅ (mono hord₄ hobject))

theorem sound_instanceValue (hclass : session.program.NamesClass d.name) (hd : d.Over D.Name)
    (hargs : ∀ t ∈ args, t.Over D.Name) (haddr : D.Ok s addr) :
    D.Sound .inside s (Gen.instanceValue d args addr) := by
  have ht := Ty.over_ofName hd.name hargs
  rw [Gen.instanceValue]
  split
  · refine .bind (D.classStruct hclass hd.name hargs) fun struct s₁ hord₁ hstruct => ?_
    refine .bind (sound_load hstruct (mono hord₁ haddr)) fun operand s₂ hord₂ hoperand => ?_
    exact .pure ⟨hoperand, mono hord₂ hstruct, ht⟩
  · exact .pure ⟨haddr, ok_closed rfl, ht⟩

theorem sound_values (hl : D.Lowers l) {args : List Expr} (hargs : ∀ e ∈ args, D.Follows e) :
    D.Sound .inside s (l.values args) :=
  sound_mapM (fun hord hv => mono hord hv) fun arg harg s => hl.expr s (hargs arg harg) nofun

theorem sound_ctorFor {irs : List IR.Ty} (hclass : session.program.NamesClass d.name)
    (hd : d.Over D.Name) (hirs : D.Ok s irs) : D.Sound .inside s (Lowering.ctorFor d irs) := by
  have hctors : D.Sound .inside s (Gen.perform .ctors) :=
    ensures_perform trivial fun ctors s' hperform hs' _ => by
      cases hperform
      exact D.ctors hs'
  refine .bind hctors fun ctors s₁ hord₁ hctors => ?_
  have hlookup : ∀ key ctor, ctors.lookup key = some ctor → D.Ok s₁ ctor := by
    intro key ctor h
    obtain ⟨pre, post, hentries, -⟩ := lookup_eq_some_iff.1 h
    exact (hctors (key, ctor) (by rw [hentries]; simp)).2
  split
  next ctor hctor =>
    obtain hctor | ⟨-, hctor⟩ := Option.or_eq_some_iff.1 hctor <;> exact .pure (hlookup _ _ hctor)
  · refine .bind (sound_instanceType hclass hd (forall_mem_nil _)) fun ret s₂ hord₂ hret => ?_
    have hirs := mono (D.trans hord₁ hord₂) hirs
    exact .functionSymbol (.bind (ensures_declare _ hret hirs) fun _ s₄ hord₄ hdeclared =>
      .pure ⟨mono hord₄ hret, hdeclared⟩)

theorem sound_construct (hl : D.Lowers l) {args : List Expr}
    (hargs : ∀ e ∈ args, D.Follows e) : D.Sound .inside s (l.construct path args) := by
  refine .program ?_
  split
  · exact .pure nofun
  next d hd =>
    rw [Program.constructed?] at hd
    split at hd
    · obtain ⟨hfound, -⟩ := Option.filter_eq_some_iff.1 hd
      obtain ⟨name, -, hclass⟩ := Option.bind_eq_some_iff.1 hfound
      have hd := D.program.class? hclass
      refine .bind (sound_values hl hargs) fun actual s₂ _ hactual => ?_
      refine .bind (sound_ctorFor (namesClass_of_class? hclass) hd
        (forall_mem_map.2 fun v hv => (hactual v hv).2.1)) fun ctor s₃ hord₃ hctor => ?_
      refine .bind (sound_call hctor.1 trivial hctor.2 (forall_mem_map.2 fun v hv =>
        mono hord₃ (ok_typed (hactual v hv)))) fun result s₄ hord₄ hresult => ?_
      exact .pure (ok_some (ok_ofCall hresult (mono hord₄ hctor.1)
        (Ty.over_ofName hd.name (forall_mem_nil _))))
    · cases hd

/-! ### Literals -/

theorem follows_init (he : D.Opens (.record note path inits base)) :
    ∀ init ∈ inits, D.Follows init.value :=
  fun _ hinit => he.part (mem_append_left _ (mem_map_of_mem hinit))

theorem follows_base (he : D.Opens (.record note path inits base)) : ∀ e ∈ base, D.Follows e :=
  fun _ he' => he.part (mem_append_right _ (Option.mem_toList.2 he'))

variable (hl : D.Lowers l)

include hl

/-- Parameters bound by initialisers. -/
theorem sound_inferInits (decls : List FieldDef) {binder : Binder} (hbinder : binder.Over D.Name)
    (hinits : ∀ init ∈ inits, D.Follows init.value) :
    D.Sound .inside s (l.inferInits decls binder inits) := by
  induction inits generalizing s binder with
  | nil => exact .pure hbinder
  | cons init inits ih =>
    obtain ⟨hinit, hinits⟩ := forall_mem_cons.1 hinits
    rw [Lowering.inferInits]
    split
    · exact ih hbinder hinits
    · refine .bind (sound_evidentType hl hinit.1) fun t s₁ _ ht => ?_
      cases t with
      | none => exact ih hbinder hinits
      | some t => exact ih (hbinder.infer _ (ht t rfl)) hinits

section

variable (hpath : path.Over D.Name) (hinits : ∀ init ∈ inits, D.Follows init.value)
  (hbase : ∀ e ∈ base, D.Follows e) (hexpected : Ty.OverOption D.Name expected)

include hpath hinits hbase hexpected

/-- The binder of a literal. -/
theorem sound_recordBinder (item : String) (generics : List String) (decls : List FieldDef) :
    D.Sound .inside s (l.recordBinder item generics decls path inits base expected) := by
  have hpath : ∀ t ∈ path.args.map l.subst, t.Over D.Name :=
    forall_mem_map.2 fun own hown => hl.subst (hpath own hown)
  refine .bind (sound_inferInits hl decls ((Binder.over_new generics).explicitly hpath) hinits)
    fun binder s₁ _ hbinder => ?_
  cases base with
  | none =>
    cases expected with
    | none => exact .pure hbinder
    | some t => exact .pure (hbinder.expect _ (hexpected t rfl))
  | some e =>
    refine .bind (sound_evidentType hl (hbase e rfl).1) fun baseTy s₂ _ hbaseTy => ?_
    cases baseTy <;> cases expected
    case none.none => exact .pure hbinder
    case none.some t => exact .pure (hbinder.expect _ (hexpected t rfl))
    case some.none u => exact .pure (hbinder.infer _ (hbaseTy u rfl))
    case some.some u t => exact .pure ((hbinder.infer _ (hbaseTy u rfl)).expect _ (hexpected t rfl))

/-- The type arguments of a literal. -/
theorem sound_recordArgs (item : String) (generics : List String) (decls : List FieldDef) :
    D.Sound .inside s (l.recordArgs item generics decls path inits base span expected) := by
  rw [Lowering.recordArgs]
  split
  · exact .pure (forall_mem_nil _)
  · refine .bind (sound_recordBinder hl hpath hinits hbase hexpected item generics decls)
      fun binder s₁ _ hbinder => ?_
    exact .bind sound_reportDefaulted fun _ _ _ _ => .pure (hbinder.args_resolve trivial)

end

theorem sound_fieldOperand (he : D.Follows e) (ht : t.Over D.Name) :
    D.Sound .inside s (l.fieldOperand e t) := by
  refine .bind (sound_irType t ht s) fun ir s₁ _ hir => ?_
  refine .bind (hl.expr s₁ he (Ty.overOption_some ht)) fun value s₂ hord₂ hvalue => ?_
  refine .bind (sound_convertTo hvalue t ir) fun value s₃ hord₃ hvalue => ?_
  exact .pure ⟨mono (D.trans hord₂ hord₃) hir, hvalue.1⟩

theorem sound_storeMember {agg : IR.Ty} (he : D.Follows e) (ht : t.Over D.Name) (hagg : D.Ok s agg)
    (hslot : D.Ok s slot) (index : Nat) : D.Sound .inside s (l.storeMember e t agg slot index) := by
  refine .bind (sound_fieldOperand hl he ht) fun value s₁ hord₁ hvalue => ?_
  refine .bind (sound_member (mono hord₁ hagg) (mono hord₁ hslot) index)
    fun addr s₂ hord₂ haddr => ?_
  exact sound_store (mono hord₂ hvalue.1) (mono hord₂ hvalue.2) haddr

theorem sound_storePlace {place : Place} (he : D.Follows e) (hplace : D.Ok s place) :
    D.Sound .inside s (l.storePlace e place) := by
  refine .bind (sound_fieldOperand hl he hplace.2) fun value s₁ hord₁ hvalue => ?_
  exact sound_store hvalue.1 hvalue.2 (mono hord₁ hplace.1)

/-! ### Structs -/

omit hl in
/-- The types of the fields stand at the positions of the fields. -/
theorem fieldIndex?_eq_none {d : StructDef}
    (h : ((d.fieldIndex? name).bind fun i => (d.fieldTypes args)[i]?.map fun t => (i, t)) = none) :
    d.fieldIndex? name = none := by
  cases hindex : d.fieldIndex? name with
  | none => rfl
  | some i =>
    rw [hindex, Option.bind_some, Option.map_eq_none_iff] at h
    exact (Option.isSome_iff_ne_none.1 (FieldDef.isSome_typesUnder hindex _ _) h).elim

/-- The listed fields are stored. -/
theorem ensures_storeInits {d : StructDef} (htypes : ∀ t ∈ d.fieldTypes args, t.Over D.Name)
    (hstruct : D.Ok s struct) (hslot : D.Ok s slot)
    (hinits : ∀ init ∈ inits, D.Follows init.value) :
    D.Ensures .inside s (l.storeInits d (d.fieldTypes args) struct slot inits) fun _ written =>
      written = d.listed inits := by
  induction inits generalizing s with
  | nil => exact .pure rfl
  | cons init inits ih =>
    obtain ⟨hinit, hinits⟩ := forall_mem_cons.1 hinits
    rw [Lowering.storeInits]
    split
    next hnone =>
      rw [d.listed_cons, fieldIndex?_eq_none hnone]
      refine .bind (ensures_discard (hl.expr s hinit Ty.overOption_none)) fun _ s₁ hord₁ _ => ?_
      refine .bind (sound_error (by decide)) fun _ s₂ hord₂ _ => ?_
      have hord := D.trans hord₁ hord₂
      exact ih (mono hord hstruct) (mono hord hslot) hinits
    next index t hfound =>
      obtain ⟨i, hi, hfound⟩ := Option.bind_eq_some_iff.1 hfound
      obtain ⟨own, hown, heq⟩ := Option.map_eq_some_iff.1 hfound
      cases heq
      have ht := htypes t (mem_of_getElem? hown)
      refine .bind (sound_storeMember hl hinit ht hstruct hslot index) fun _ s₁ hord₁ _ => ?_
      refine .bind (ih (mono hord₁ hstruct) (mono hord₁ hslot) hinits)
        fun written _ _ hwritten => .pure ?_
      rw [hwritten, d.listed_cons, hi]
      rfl

omit hl in
theorem sound_missingField (field item : String) :
    D.Sound mode s (Lowering.missingField field item span) :=
  sound_error (by decide)

theorem sound_storeDefaults (item : String) (hstruct : D.Ok s struct) (hslot : D.Ok s slot)
    {written : List Nat} (index : Nat) {fields : List (FieldDef × Ty)}
    (htypes : ∀ entry ∈ fields, entry.2.Over D.Name)
    (hdefaults : ∀ entry ∈ fields.zipIdx index, written.contains entry.2 = false →
      ∀ e, entry.1.1.default = some e → D.Follows e) :
    D.Sound .inside s (l.storeDefaults item struct slot written span index fields) := by
  induction fields generalizing s index with
  | nil => exact .pure trivial
  | cons entry fields ih =>
    obtain ⟨decl, t⟩ := entry
    obtain ⟨ht, htypes⟩ := forall_mem_cons.1 htypes
    obtain ⟨hdecl, hdefaults⟩ := forall_mem_cons.1 hdefaults
    have hrest : ∀ s', D.Ord .inside s s' → D.Sound .inside s'
        (l.storeDefaults item struct slot written span (index + 1) fields) :=
      fun s' hord => ih (mono hord hstruct) (mono hord hslot) (index + 1) htypes hdefaults
    rw [Lowering.storeDefaults]
    split
    next hunwritten =>
      split
      · rename_i e he
        have he := hdecl (Bool.not_eq_true' _ ▸ hunwritten) e he
        exact .bind (sound_storeMember hl he ht hstruct hslot index)
          fun _ s₁ hord _ => hrest s₁ hord
      · exact .bind (sound_missingField _ _) fun _ s₁ hord _ => hrest s₁ hord
    · exact hrest s (D.refl _ _)

section

variable (hargs : ∀ t ∈ args, t.Over D.Name)

include hargs

theorem sound_structLiteral (he : D.Opens (.record note path inits base)) {d : StructDef}
    (hfound : session.program.struct? path.joined = some d) (hunion : d.isUnion = false) :
    D.Sound .inside s (l.structLiteral d args inits base span) := by
  have hd := D.program.struct? hfound
  have ht := Ty.over_ofName hd.name hargs
  have hinits := follows_init he
  have htypes : ∀ t ∈ d.fieldTypes args, t.Over D.Name := FieldDef.over_typesUnder hd.fields hargs
  refine .bind (sound_irType _ ht s) fun struct s₁ _ hstruct => ?_
  refine .bind (sound_alloca hstruct) fun slot s₂ hord₂ hslot => ?_
  have hstruct := mono hord₂ hstruct
  have hload : ∀ s', D.Ord .inside s₂ s' → D.Sound .inside s' (do
      return ({ operand := ← Gen.load struct slot, ir := struct, ty := .ofName d.name args }
        : Value)) := by
    intro s₃ hord
    exact .bind (sound_load (mono hord hstruct) (mono hord hslot)) fun operand s₄ hord' hoperand =>
        .pure ⟨hoperand, mono (D.trans hord hord') hstruct, ht⟩
  cases base with
  | some e =>
    refine .bind (hl.expr s₂ (follows_base he e rfl) (Ty.overOption_some ht))
      fun value s₃ hord₃ hvalue => ?_
    refine .bind (sound_store hvalue.2.1 hvalue.1 (mono hord₃ hslot)) fun _ s₄ hord₄ _ => ?_
    have hord := D.trans hord₃ hord₄
    exact .bind (ensures_storeInits hl htypes (mono hord hstruct) (mono hord hslot) hinits)
      fun written s₅ hord₅ _ => hload s₅ (D.trans hord hord₅)
  | none =>
    refine .bind (ensures_storeInits hl htypes hstruct hslot hinits)
      fun written s₃ hord₃ hwritten => ?_
    refine .bind (sound_storeDefaults hl d.name (mono hord₃ hstruct) (mono hord₃ hslot) 0
      (fun entry hentry => htypes _ (of_mem_zip hentry).2)
      fun entry hentry hunwritten e hdefault => ?_)
      fun _ s₄ hord₄ _ => hload s₄ (D.trans hord₃ hord₄)
    have hdecl := (getElem?_zip_eq_some.1 (mem_zipIdx_iff_getElem?.1 hentry)).1
    exact ⟨(hd.fields _ (mem_of_getElem? hdecl)).default e hdefault,
      D.focus.opened he.2 e (mem_append_right _
        (Program.mem_spliced_of_struct? hfound hunion hdecl (hwritten ▸ hunwritten) hdefault))⟩

/-! ### Unions -/

theorem sound_unionLiteral {d : StructDef} (hd : d.Over D.Name)
    (hinits : ∀ init ∈ inits, D.Follows init.value) (base : Option Expr) :
    D.Sound .inside s (l.unionLiteral d args inits base span) := by
  have ht := Ty.over_ofName hd.name hargs
  refine .bind (sound_irType _ ht s) fun struct s₁ _ hstruct => ?_
  split
  next init =>
    have hinit := hinits init (mem_singleton_self init)
    refine ensures_when (fun _ => sound_error (by decide)) fun s₂ hord₂ => ?_
    have hstruct := mono hord₂ hstruct
    split
    · refine .bind (ensures_discard (hl.expr s₂ hinit Ty.overOption_none)) fun _ s₃ hord₃ _ => ?_
      exact .bind (sound_error (by decide)) fun _ s₄ hord₄ _ =>
        .pure (ok_placeholder (mono (D.trans hord₃ hord₄) hstruct) ht)
    · rename_i fieldTy hfield
      obtain ⟨index, -, hfield⟩ := Option.bind_eq_some_iff.1 hfield
      have hfieldTy : fieldTy.Over D.Name :=
        FieldDef.over_typesUnder hd.fields hargs fieldTy (mem_of_getElem? hfield)
      refine .bind (sound_irType _ hfieldTy s₂) fun ir s₃ hord₃ hir => ?_
      have hstruct := mono hord₃ hstruct
      refine .bind (sound_alloca hstruct) fun slot s₄ hord₄ hslot => ?_
      refine .bind (hl.expr s₄ hinit (Ty.overOption_some hfieldTy)) fun value s₅ hord₅ hvalue => ?_
      refine .bind (sound_convertTo hvalue fieldTy ir) fun value s₆ hord₆ hvalue => ?_
      have hord := D.trans hord₅ hord₆
      have hslot := mono hord hslot
      refine .bind (sound_store (mono (D.trans hord₄ hord) hir) hvalue.1 hslot)
        fun _ s₇ hord₇ _ => ?_
      have hstruct := mono (D.trans (D.trans hord₄ hord) hord₇) hstruct
      exact .bind (sound_load hstruct (mono hord₇ hslot)) fun operand s₈ hord₈ hoperand =>
        .pure ⟨hoperand, mono hord₈ hstruct, ht⟩
  · refine .bind (sound_evaluate hl (forall_mem_map.2 hinits)) fun _ s₂ hord₂ _ => ?_
    exact .bind (sound_error (by decide)) fun _ s₃ hord₃ _ =>
      .pure (ok_placeholder (mono (D.trans hord₂ hord₃) hstruct) ht)

/-! ### Classes -/

/-- The listed fields that a class of the chain declares are filled. -/
theorem ensures_fillInits (hd : d.Over D.Name) (hobject : D.Ok s object)
    (hinits : ∀ init ∈ inits, D.Follows init.value) :
    D.Ensures .inside s (l.fillInits d args object inits) fun _ written =>
      ∀ init ∈ inits, init.name ∉ written →
        ∀ owner ∈ session.program.classChain d.name, owner.fieldIndex? init.name = none := by
  induction inits generalizing s with
  | nil => exact .pure (forall_mem_nil _)
  | cons init inits ih =>
    obtain ⟨hinit, hinits⟩ := forall_mem_cons.1 hinits
    rw [Lowering.fillInits]
    refine .bind ((sound_classField? hobject hd.name hargs _).and_result fun hrun _ =>
      (Gen.classField?_eq_none_iff hrun).1) fun found s₁ hord₁ ⟨hfound, hnone⟩ => ?_
    have hobject := mono hord₁ hobject
    cases found with
    | none =>
      refine .bind (ensures_discard (hl.expr s₁ hinit Ty.overOption_none)) fun _ s₂ hord₂ _ => ?_
      refine .bind (sound_error (by decide)) fun _ s₃ hord₃ _ => ?_
      exact (ih (mono (D.trans hord₂ hord₃) hobject) hinits).weaken fun _ written hwritten =>
        forall_mem_cons.2 ⟨fun _ => hnone rfl, hwritten⟩
    | some place =>
      refine .bind (sound_storePlace hl hinit (hfound place rfl)) fun _ s₂ hord₂ _ => ?_
      refine .bind (ih (mono hord₂ hobject) hinits) fun written _ _ hwritten =>
        .pure (forall_mem_cons.2 ⟨fun hname => ?_, fun own hown hname => ?_⟩)
      · exact (hname mem_cons_self).elim
      · exact hwritten own hown fun h => hname (mem_cons_of_mem _ h)

theorem sound_fillDefault (hd : d.Over D.Name) (hobject : D.Ok s object) {decl : FieldDef}
    (hdecl : ∀ e, decl.default = some e → D.Follows e) :
    D.Sound .inside s (l.fillDefault d args object span decl) := by
  rw [Lowering.fillDefault]
  split
  · exact sound_missingField _ _
  next e he =>
    refine .bind (sound_classField? hobject hd.name hargs _) fun found s₁ _ hfound => ?_
    cases found with
    | none => exact .pure trivial
    | some place => exact sound_storePlace hl (hdecl e he) (hfound place rfl)

theorem sound_classLiteral (he : D.Opens (.record note path inits base))
    (hstruct : session.program.struct? path.joined = none)
    (hfound : session.program.class? path.joined = some d) :
    D.Sound .inside s (l.classLiteral d args inits span) := by
  have hclass := namesClass_of_class? hfound
  have hd := D.program.class? hfound
  refine .bind (sound_newInstance hclass hd hargs) fun object s₁ _ hobject => ?_
  refine .bind (ensures_fillInits hl hargs hd hobject (follows_init he))
    fun written s₂ hord₂ hwritten => ?_
  refine .program ?_
  have hobject := mono hord₂ hobject
  refine .bind (sound_forM (P := fun s => D.Ok s object) (fun hord h => mono hord h) hobject
      fun decl hdecl s hobject => ?_)
    fun _ s₄ hord₄ _ => sound_instanceValue hclass hd hargs (mono hord₄ hobject)
  obtain ⟨owner, howner, hdecl⟩ := mem_flatMap.1 hdecl
  obtain ⟨hfield, hunwritten⟩ := mem_filter.1 hdecl
  have hlisted : ∀ init ∈ inits, init.name ≠ decl.name := by
    intro init hinit heq
    have hname : init.name ∉ written := by simpa [heq] using hunwritten
    have hnone := findIdx?_eq_none_iff.1 (hwritten init hinit hname owner howner) decl hfield
    exact of_decide_eq_false hnone heq.symm
  exact sound_fillDefault hl hargs hd hobject fun e hdefault =>
    ⟨((D.program.classChain howner).fields decl hfield).default e hdefault,
      D.focus.opened he.2 e (mem_append_right _
        (Program.mem_spliced_of_class? hstruct hfound howner hfield hlisted hdefault))⟩

end

/-- The value of a struct, union or class literal. -/
theorem sound_record (he : D.Opens (.record note path inits base))
    (hexpected : Ty.OverOption D.Name expected) :
    D.Sound .inside s (l.record path inits base span expected) := by
  have hpath := he.1.2.1
  have hinits := follows_init he
  have hbase := follows_base he
  refine .program ?_
  dsimp only
  split
  next d hd =>
    refine .bind (sound_recordArgs hl hpath hinits hbase hexpected d.name d.generics d.fields)
      fun args s₂ _ hargs => ?_
    split
    · exact sound_unionLiteral hl hargs (D.program.struct? hd) hinits base
    · rename_i hunion
      exact sound_structLiteral hl hargs he hd (Bool.eq_false_iff.2 hunion)
  next hstruct =>
    split
    · rename_i d hfound
      refine .bind (sound_recordArgs hl hpath hinits hbase hexpected d.name d.generics d.fields)
        fun args s₂ _ hargs => ?_
      exact sound_classLiteral hl hargs he hstruct hfound
    · refine .bind (sound_evaluate hl (forall_mem_map.2 hinits)) fun _ s₂ _ _ => ?_
      exact .bind (sound_error (by decide)) fun _ s₃ _ _ =>
        sound_placeholder (hexpected.getD trivial)

/-! ### Enum values -/

omit hl in
theorem sound_fillRecord {record : IR.Ty} {whole : IR.Operand} {parts : List IR.Typed}
    (hrecord : D.Ok s record) (hwhole : D.Ok s whole) (hparts : D.Ok s parts) (index : Nat) :
    D.Sound .inside s (Gen.fillRecord record whole index parts) := by
  induction parts generalizing s whole index with
  | nil => exact .pure hwhole
  | cons part parts ih =>
    obtain ⟨hpart, hparts⟩ := forall_mem_cons.1 hparts
    refine ensures_define (f := fun r => .insertValue r ⟨record, whole⟩ part index) (fun _ => rfl)
      (fun _ => rfl) (fun _ => ⟨ok_pair hrecord hpart.1, ok_pair hwhole hpart.2⟩)
      fun r s₁ hord hr => ?_
    exact ih (mono hord hrecord) hr (mono hord hparts) (index + 1)

omit hl in
theorem sound_storePayload {payload : List IR.Typed} (hpayload : D.Ok s payload)
    (haddr : D.Ok s addr) : D.Sound .inside s (Gen.storePayload payload addr) := by
  rw [Gen.storePayload.eq_def]
  split
  next value =>
    have hvalue := hpayload value (mem_singleton_self value)
    exact sound_store hvalue.1 hvalue.2 haddr
  · have hrecord : D.Ok s (IR.Ty.anon (payload.map IR.Typed.ty)) :=
      ok_anon (forall_mem_map.2 fun value hvalue => (hpayload value hvalue).1)
    have hundef : D.Ok s IR.Operand.undef := trivial
    refine .bind (sound_fillRecord hrecord hundef hpayload 0) fun whole s₁ hord hwhole => ?_
    exact sound_store (mono hord hrecord) hwhole (mono hord haddr)

section

variable {args : List Expr} (hpath : path.Over D.Name) (hargs : ∀ e ∈ args, D.Follows e)
  (hexpected : Ty.OverOption D.Name expected)

include hpath hargs hexpected

theorem sound_variantArgs {d : EnumDef} (variant : VariantDef) :
    D.Sound .inside s (l.variantArgs d variant path args span expected) := by
  rw [Lowering.variantArgs]
  split
  · exact .pure ⟨nofun, nofun⟩
  · refine .bind (ensures_bindItem hl hargs _ hpath _ _ hexpected trivial)
      fun found s₁ _ hfound => ?_
    exact .bind sound_reportDefaulted fun _ s₂ hord _ =>
      .pure ⟨hfound.1.1, mono hord hfound.1.2⟩

theorem sound_makeVariant {d : EnumDef} (hd : d.Over D.Name) (tag : Nat) {variant : VariantDef}
    (hvariant : variant ∈ d.variants) :
    D.Sound .inside s (l.makeVariant d tag variant path args span expected) := by
  refine .bind (sound_variantArgs hl hpath hargs hexpected variant) fun found s₁ _ hfound => ?_
  obtain ⟨typeArgs, early⟩ := found
  obtain ⟨htypeArgs, hearly⟩ := hfound
  have ht := Ty.over_ofName hd.name htypeArgs
  refine .bind (sound_irType _ ht s₁) fun ir s₂ hord₂ hir => ?_
  split
  · refine .bind (sound_evaluate hl hargs) fun _ s₃ hord₃ _ => ?_
    exact .bind (sound_error (by decide)) fun _ s₄ hord₄ _ =>
      .pure (ok_placeholder (mono (D.trans hord₃ hord₄) hir) ht)
  · refine .bind (sound_arguments hl hargs (hd.payloadTypes hvariant htypeArgs) (mono hord₂ hearly))
      fun payload s₃ hord₃ hpayload => ?_
    refine .program ?_
    have hir := mono hord₃ hir
    split
    · exact .pure ⟨trivial, hir, ht⟩
    · refine .bind (sound_alloca hir) fun slot s₅ hord₅ hslot => ?_
      have hir := mono hord₅ hir
      refine .bind (sound_member hir hslot 0) fun tagAddr s₆ hord₆ htagAddr => ?_
      refine .bind (sound_store (ok_closed rfl) trivial htagAddr) fun _ s₇ hord₇ _ => ?_
      have hord := D.trans hord₆ hord₇
      have hslot := mono hord hslot
      have hir := mono hord hir
      have hpayload := mono (D.trans hord₅ hord) hpayload
      have hload : ∀ s', D.Ord .inside s₇ s' → D.Sound .inside s' (do
          return ({ operand := ← Gen.load ir slot, ir, ty := .ofName d.name typeArgs }
            : Value)) := by
        intro s₈ hord
        exact .bind (sound_load (mono hord hir) (mono hord hslot)) fun operand s₉ hord' hoperand =>
            .pure ⟨hoperand, mono (D.trans hord hord') hir, ht⟩
      have hstored : ∀ (isStored : Bool) s', D.Ord .inside s₇ s' → D.Sound .inside s' (do
          if isStored then
            let payloadAddr ← Gen.member ir slot 1
            Gen.storePayload payload payloadAddr
          return ({ operand := ← Gen.load ir slot, ir, ty := .ofName d.name typeArgs }
            : Value)) := by
        intro isStored s₈ hord₈
        cases isStored with
        | false => exact hload s₈ hord₈
        | true =>
          refine .bind (sound_member (mono hord₈ hir) (mono hord₈ hslot) 1)
            fun addr s₉ hord₉ haddr => ?_
          have hord := D.trans hord₈ hord₉
          exact .bind (sound_storePayload (mono hord hpayload) haddr)
            fun _ s₁₀ hord₁₀ _ => hload s₁₀ (D.trans hord hord₁₀)
      split
      next stored hfound =>
        exact .bind (sound_sizeOf (hd.payload? hvariant htypeArgs hfound))
          fun size s₈ hord₈ _ => hstored _ s₈ hord₈
      · exact hstored false s₇ (D.refl _ _)

/-- The value of the variant that a path names. -/
theorem sound_variant : D.Sound .inside s (l.variant path args span expected) := by
  refine .program ?_
  split
  · exact .pure nofun
  next d tag hfound =>
    have hd : d.Over D.Name := by
      rw [Program.variant?.eq_def] at hfound
      split at hfound
      · exact D.program.enumWithVariant? hfound
      · simp only [Option.bind_eq_bind, Option.bind_eq_some_iff] at hfound
        obtain ⟨name, -, d', hd', _, -, tag', -, heq⟩ := hfound
        cases heq
        exact D.program.enum? hd'
    split
    · exact .pure nofun
    · rename_i variant hvariant
      exact .bind (sound_makeVariant hl hpath hargs hexpected hd tag (mem_of_getElem? hvariant))
        fun _ _ _ hv => .pure (ok_some hv)

end

end Discipline

end Monomorph
