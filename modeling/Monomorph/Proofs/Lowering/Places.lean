import Monomorph.Proofs.Lowering.Elementary
import Monomorph.Proofs.Lowering.FieldWalk

/-!
# Places, fields and arguments keep a discipline
-/

namespace Monomorph

open List Script

variable {t : Ty}

/-! ### Types that show -/

theorem Wrapper.over_payload {P : Vocabulary} {payload : Ty} {wrapper : Wrapper} (h : t.Over P)
    (hpayload : Wrapper.ofTy? t = some (wrapper, payload)) : payload.Over P := by
  rw [Wrapper.ofTy?.eq_def] at hpayload
  split at hpayload
  · obtain ⟨_, -, heq⟩ := Option.map_eq_some_iff.1 hpayload
    cases heq
    exact h.2.1
  · cases hpayload
    exact h
  · cases hpayload
    exact h
  · cases hpayload

namespace Lowering

variable {P : Vocabulary} {p : Program} {b : Bindings}

theorem overOption_subst {t : Option Ty} (hb : b.Over P) (h : Ty.OverOption P t) :
    Ty.OverOption P (t.map (Ty.subst b)) := by
  intro own hown
  obtain ⟨t, ht, rfl⟩ := Option.map_eq_some_iff.1 hown
  exact (h t ht).subst hb

theorem overOption_or {t t' : Option Ty} (h : Ty.OverOption P t) (h' : Ty.OverOption P t') :
    Ty.OverOption P (t.or t') := by
  intro own hown
  obtain hown | ⟨-, hown⟩ := Option.or_eq_some_iff.1 hown
  · exact h own hown
  · exact h' own hown

theorem over_recordType? {path : Path} (h : P (path.last?.getD "")) :
    Ty.OverOption P (recordType? p path) := by
  intro t ht
  rw [recordType?] at ht
  split at ht
  · dsimp only at ht
    split at ht
    · cases ht
      exact Ty.over_ofName h (forall_mem_nil _)
    · cases ht
  · cases ht

/-- The type that an expression shows is made of types in the code. -/
theorem over_evidentType? (hp : p.Over P) (hb : b.Over P) {scope : Scope}
    (hscope : ∀ name l, scope.find? name = some l → l.ty.Over P) :
    (e : Expr) → e.Over P → Ty.OverOption P (evidentType? p b scope e)
  | .lit note value, h => by
      refine overOption_or (overOption_subst hb h) ?_
      rintro _ ⟨⟩
      cases value <;> exact trivial
  | .ident note name, h => by
      refine overOption_or (overOption_subst hb h) ?_
      intro t ht
      obtain ⟨l, hl, rfl⟩ := Option.map_eq_some_iff.1 ht
      exact hscope name l hl
  | .functionRef note name, h => by
      refine overOption_or (overOption_subst hb h) ?_
      intro t ht
      obtain ⟨f, hf, rfl⟩ := Option.map_eq_some_iff.1 ht
      exact (hp.function? hf).fnType
  | .record note path inits base, h =>
      overOption_or (overOption_subst hb h.1) (over_recordType? h.2.2.1)
  | .block note (.mk _ (some tail)), h =>
      overOption_or (overOption_subst hb h.1) (over_evidentType? hp hb hscope tail h.2.2)
  | .block note (.mk _ none), h | .path note _, h | .call note _ _, h
  | .methodCall note _ _ _, h | .field note _ _, h => overOption_subst hb h.1
  | .closure note _ _, h => overOption_subst hb h

end Lowering

/-! ### Fields and arguments -/

namespace Discipline

open Facts Elements Representing

variable {session : Session} {D : Discipline session} {mode : Mode} {s s' : Build} {l : Lowering}
  {args : List Expr} {cursor : Cursor} {span : Span} {e object : Expr} {name : String}
  {payload : Ty} {placeOf : Gen (Option Place)} {kind : Primitive} {early : List (Option Value)}
  {sig : Signature} {receiver : Option IR.Operand}

/-- A lowering of expressions that keeps a discipline. -/
structure Lowers (D : Discipline session) (l : Lowering) : Prop where
  bindings : l.bindings.Over D.Name
  result : l.result.Over D.Name
  expr (s : Build) {e : Expr} {expected : Option Ty} : D.Follows e →
    Ty.OverOption D.Name expected → D.Sound .inside s (l.expr e expected)
  ret (s : Build) {note : Note} {body : Block} {value : Option Expr} :
    D.Opens (.block note body) → .ret value ∈ body.stmts →
      D.Sound .inside s (l.statement (.ret value))
  closes : D.focus.Closes l.bindings

theorem Lowers.subst (hl : D.Lowers l) (h : t.Over D.Name) : (l.subst t).Over D.Name :=
  h.subst hl.bindings

/-- The type in a note, or a default. -/
theorem Lowers.noteType (hl : D.Lowers l) {t : Option Ty} (h : Ty.OverOption D.Name t)
    {default : Ty} (hdefault : default.Over D.Name) :
    ((t.map l.subst).getD default).Over D.Name := by
  cases t with
  | none => exact hdefault
  | some t => exact hl.subst (h t rfl)

theorem sound_evidentType (hl : D.Lowers l) (he : e.Over D.Name) :
    D.Sound .inside s (l.evidentType e) := by
  refine .program ?_
  refine .bind sound_scope fun scope s₂ _ hscope => ?_
  refine .pure (Lowering.over_evidentType? D.program hl.bindings ?_ e he)
  exact fun name own hown => (ok_find? hscope hown).2.1

/-- What stands for an expression that could not be lowered. -/
theorem sound_placeholder (h : t.Over D.Name) :
    D.Sound mode s (do return Value.placeholder (← Gen.irType t) t) :=
  .bind (sound_irType t h s) fun _ _ _ hir => .pure (ok_placeholder hir h)

/-- An error, and a value that stands for the result. -/
theorem sound_refused {code : Code} {message label : String} {ir : IR.Ty}
    (hcode : code ≠ .missingDefinition) (hir : ir.names = []) (ht : t.Over D.Name) :
    D.Sound mode s (do
      Gen.error code span message label
      return Value.placeholder ir t) :=
  .bind (sound_error hcode) fun _ _ _ _ => .pure (ok_placeholder (ok_closed hir) ht)

/-- Expressions that are lowered for their effects. -/
theorem sound_evaluate (hl : D.Lowers l) {es : List Expr} (hes : ∀ e ∈ es, D.Follows e) :
    D.Sound .inside s (l.evaluate es) :=
  sound_forM (P := fun _ => True) (fun _ _ => trivial) trivial fun e he s _ =>
    ensures_discard (hl.expr s (hes e he) nofun)

/-! ### Fields -/

/-- The classes of a chain have blocks. -/
theorem namesClass_of_mem_classChain {d : ClassDef} (h : d ∈ session.program.classChain name) :
    session.program.NamesClass d.name := by
  obtain ⟨m, hm, hd⟩ := Program.mem_of_mem_classChain h
  exact .own hm hd

theorem sound_throughBases {block : IR.Operand} {blockType : IR.Ty} {ancestors : List ClassDef}
    (hblock : D.Ok s block) (htype : D.Ok s blockType)
    (hancestors : ∀ d ∈ ancestors, session.program.NamesClass d.name ∧ D.Name d.name) :
    D.Sound .inside s (Gen.throughBases block blockType ancestors) := by
  induction ancestors generalizing s block blockType with
  | nil => exact .pure ⟨hblock, htype⟩
  | cons d ds ih =>
    obtain ⟨hd, hds⟩ := forall_mem_cons.1 hancestors
    refine .bind (sound_member htype hblock 0) fun base s₁ _ hbase => ?_
    refine .bind (D.classStruct hd.1 hd.2 (forall_mem_nil _)) fun baseType s₂ hord hbaseType => ?_
    exact ih (mono hord hbase) hbaseType hds

theorem sound_classField? {object : IR.Operand} {args : List Ty} (hobject : D.Ok s object)
    (hname : D.Name name) (hargs : ∀ t ∈ args, t.Over D.Name) (field : String) :
    D.Sound .inside s (Gen.classField? object name args field) := by
  refine .program ?_
  split
  · exact .pure nofun
  next below owner index hfound =>
    have hchain : ∀ d ∈ below ++ [owner], d ∈ session.program.classChain name := by
      obtain ⟨⟨above, hchain⟩, -⟩ := Gen.untilField?_eq_some hfound
      rw [hchain, append_cons below owner above]
      exact fun d hd => mem_append_left above hd
    have howner := hchain owner (mem_append_right _ (mem_singleton_self owner))
    obtain ⟨own, hown⟩ := Program.class?_of_mem_classChain howner
    refine .bind (D.classStruct (.found hown) hname hargs) fun struct s₂ hord₂ hstruct => ?_
    refine .bind (sound_throughBases (mono hord₂ hobject) hstruct fun d hd => ?_)
      fun at_ s₃ _ hat => ?_
    · have hd := hchain d (mem_of_mem_drop hd)
      exact ⟨namesClass_of_mem_classChain hd, (D.program.classChain hd).name⟩
    · refine .bind (sound_member hat.2 hat.1 _) fun addr s₄ _ haddr => .pure ?_
      intro place hplace
      obtain ⟨t, ht, rfl⟩ := Option.map_eq_some_iff.1 hplace
      refine ⟨haddr, FieldDef.over_typesUnder (D.program.classChain howner).fields ?_ t
        (mem_of_getElem? ht)⟩
      split
      · exact hargs
      · exact forall_mem_nil _

theorem sound_pointerAt (h : D.Ok s cursor) : D.Sound .inside s (Gen.pointerAt cursor) := by
  cases cursor with
  | addr addr => exact sound_load (ok_closed rfl) h
  | pointer operand => exact .pure h

/-- From the pointer to the payload, which stands behind two counters in a counted block. -/
theorem sound_payload {boxed : IR.Operand} (hboxed : D.Ok s boxed) (hpayload : payload.Over D.Name)
    (wrapper : Wrapper) :
    D.Sound .inside s (match wrapper.payloadIndex? with
      | some index => do return Cursor.addr (← Gen.member (← Gen.countedBlock payload) boxed index)
      | none => return Cursor.addr boxed) := by
  split
  · refine .bind (sound_countedBlock hpayload) fun block s₁ hord hblock => ?_
    exact .bind (sound_member hblock (mono hord hboxed) _) fun _ _ _ haddr =>
      .pure haddr
  · exact .pure hboxed

theorem sound_peel {wrapperTy : Ty} (h : D.Ok s cursor) (hwrapper : wrapperTy.Over D.Name)
    (hpayload : payload.Over D.Name) (wrapper : Wrapper) :
    D.Sound .inside s (Gen.peel cursor wrapperTy wrapper payload) := by
  have hinner := fun boxed s (h : D.Ok s boxed) => sound_payload h hpayload wrapper
  cases wrapper with
  | raw => exact .bind (sound_pointerAt h) fun _ _ _ haddr => .pure haddr
  | owned | counted =>
    cases cursor with
    | addr addr =>
      refine .bind (sound_irType _ hwrapper s) fun ir s₁ hord hir => ?_
      refine .bind (sound_member hir (mono hord h) 0) fun slot s₂ _ hslot => ?_
      exact .bind (sound_load (ok_closed rfl) hslot) fun boxed s₃ _ hboxed =>
        hinner boxed s₃ hboxed
    | pointer operand => exact hinner operand s h

theorem sound_directField? (hcursor : D.Ok s cursor) (ht : t.Over D.Name) (field : String) :
    D.Sound .inside s (Gen.directField? cursor t field) := by
  refine .program ?_
  split
  · exact .pure nofun
  next name args hdeclared =>
    obtain ⟨hname, hargs⟩ := ht.declared? hdeclared
    split
    · rename_i d hd
      have hd := D.program.struct? hd
      split
      · exact .pure nofun
      · rename_i index hindex
        refine .bind (sound_irType t ht s) fun struct s₂ hord₂ hstruct => ?_
        have hcursor := mono hord₂ hcursor
        refine ensures_ite_bind (fun _ => .pure hcursor)
          (fun _ => sound_member hstruct hcursor index) fun addr s₃ _ haddr => .pure ?_
        intro place hplace
        obtain ⟨fieldTy, hfieldTy, rfl⟩ := Option.map_eq_some_iff.1 hplace
        exact ⟨haddr, FieldDef.over_typesUnder hd.fields hargs fieldTy (mem_of_getElem? hfieldTy)⟩
    · split
      · rename_i d hd
        exact ensures_ite_bind (fun _ => .pure hcursor) (fun _ => sound_pointerAt hcursor)
          fun object s₂ _ hobject => sound_classField? hobject hname hargs field
      · exact .pure nofun

theorem sound_fieldWithin (field : String) {layers : Nat} (hcursor : D.Ok s cursor)
    (ht : t.Over D.Name) : D.Sound .inside s (Gen.fieldWithin field span layers cursor t) := by
  induction layers generalizing s cursor t with
  | zero =>
    rw [Gen.fieldWithin.eq_def]
    refine .bind (sound_directField? hcursor ht field) fun found s₁ _ hfound => ?_
    cases found with
    | some place => exact .pure hfound
    | none => exact .bind (sound_error (by decide)) fun _ _ _ _ => .pure nofun
  | succ layers ih =>
    rw [Gen.fieldWithin.eq_def]
    refine .bind (sound_directField? hcursor ht field) fun found s₁ hord₁ hfound => ?_
    cases found with
    | some place => exact .pure hfound
    | none =>
      dsimp only
      split
      next wrapper payload heq hwrapper =>
        cases heq
        have hpayload := Wrapper.over_payload ht hwrapper
        refine .bind (sound_peel (mono hord₁ hcursor) ht hpayload wrapper)
          fun inner s₂ _ hinner => ?_
        refine .bind (ensures_discard (sound_irType payload hpayload s₂)) fun _ s₃ hord₃ _ => ?_
        exact ih (mono hord₃ hinner) hpayload
      · exact .bind (sound_error (by decide)) fun _ _ _ _ => .pure nofun

theorem sound_fieldOf (hcursor : D.Ok s cursor) (ht : t.Over D.Name) (field : String) :
    D.Sound .inside s (Gen.fieldOf cursor t field span) :=
  sound_fieldWithin field hcursor ht

/-! ### Places -/

theorem sound_objectCursor (h : ∀ s, D.Sound .inside s placeOf) (object : Expr) :
    D.Sound .inside s (Lowering.objectCursor placeOf object) := by
  have hplace : ∀ s, D.Sound .inside s
      (do return (← placeOf).map fun place => (Cursor.addr place.addr, place.ty)) := by
    intro s
    refine .bind (h s) fun place s₁ _ hplace => .pure ?_
    intro pair hpair
    obtain ⟨place, rfl, rfl⟩ := Option.map_eq_some_iff.1 hpair
    exact hplace place rfl
  cases object with
  | ident note name =>
    refine .bind sound_findLocal? fun found s₁ _ hfound => ?_
    dsimp only
    split
    · exact .pure (ok_some ⟨(hfound _ rfl).1, (hfound _ rfl).2.1⟩)
    · exact hplace s₁
  | _ => exact hplace s

theorem sound_fieldFrom (h : ∀ s, D.Sound .inside s placeOf) (object : Expr) (field : String) :
    D.Sound .inside s (Lowering.fieldFrom placeOf object field span) := by
  refine .bind (sound_objectCursor h object) fun found s₁ _ hfound => ?_
  cases found with
  | none => exact .pure nofun
  | some pair => exact sound_fieldOf (hfound pair rfl).1 (hfound pair rfl).2 field

theorem sound_spillExpr (hl : D.Lowers l) (he : D.Follows e) :
    D.Sound .inside s (do return some (← Gen.spill (← l.expr e none))) :=
  .bind (hl.expr s he nofun) fun _ _ _ hv =>
    .bind (sound_spill hv) fun _ _ _ hplace => .pure (ok_some hplace)

theorem sound_place (hl : D.Lowers l) : (e : Expr) → D.Follows e → ∀ s,
    D.Sound .inside s (l.place e)
  | .ident note name, he, s => by
      rw [Lowering.place]
      refine .bind sound_findLocal? fun found s₁ _ hfound => ?_
      split
      · exact .pure (ok_some ⟨(hfound _ rfl).1, (hfound _ rfl).2.1⟩)
      · obtain ⟨hoperand, hty, hir⟩ := hfound _ rfl
        exact .bind (sound_spill ⟨hoperand, hir, hty⟩) fun _ _ _ hplace =>
          .pure (ok_some hplace)
      · exact sound_spillExpr hl he
  | .field note object name, he, s => by
      rw [Lowering.place]
      exact sound_fieldFrom (sound_place hl object (he.part (mem_singleton_self _))) object name
  | .lit .., he, s | .path .., he, s | .call .., he, s | .methodCall .., he, s
  | .record .., he, s | .functionRef .., he, s | .closure .., he, s | .block .., he, s => by
      rw [Lowering.place]
      · exact sound_spillExpr hl he
      · nofun
      · nofun

theorem sound_fieldPlace (hl : D.Lowers l) (he : D.Follows object) (field : String) :
    D.Sound .inside s (l.fieldPlace object field span) :=
  sound_fieldFrom (sound_place hl object he) object field

theorem sound_fieldValue (hl : D.Lowers l) {note : Note} (hnote : Ty.OverOption D.Name note.ty)
    (he : D.Follows object) (field : String) :
    D.Sound .inside s (l.fieldValue note object field) := by
  refine .bind (sound_fieldPlace hl he field) fun found s₁ _ hfound => ?_
  cases found with
  | none =>
    exact sound_placeholder (hl.noteType hnote trivial)
  | some place =>
    obtain ⟨haddr, hty⟩ := hfound place rfl
    refine .bind (sound_irType _ hty s₁) fun ir s₂ hord hir => ?_
    refine .bind (sound_load hir (mono hord haddr)) fun operand s₃ hord' hoperand => ?_
    exact .pure ⟨hoperand, mono hord' hir, hty⟩

/-! ### Constants -/

theorem sound_literal (value : Literal) (note : Note) :
    D.Sound .inside s (l.literal value note expected) := by
  unfold Lowering.literal
  cases value with
  | int n =>
    dsimp only
    split
    · split
      · exact .pure ⟨trivial, ok_primitive _, trivial⟩
      · split
        · exact .pure ⟨trivial, ok_primitive _, trivial⟩
        · exact .pure ⟨trivial, ok_closed rfl, trivial⟩
    · exact .pure ⟨trivial, ok_closed rfl, trivial⟩
  | float bits => exact .pure ⟨trivial, ok_primitive _, trivial⟩
  | bool b => exact .pure ⟨trivial, ok_closed rfl, trivial⟩
  | str text =>
    exact .bind (sound_stringGlobal text) fun _ _ _ hoperand =>
      .pure ⟨hoperand, ok_closed rfl, trivial⟩
  | unit => exact .pure ok_unit

theorem sound_defaultOf (kind : Primitive) : D.Sound .inside s (Lowering.defaultOf kind) := by
  cases kind with
  | unit | never => exact .pure ok_unit
  | str =>
    exact .bind (sound_stringGlobal "") fun _ _ _ hoperand =>
      .pure ⟨hoperand, ok_closed rfl, trivial⟩
  | _ => exact .pure (ok_placeholder (ok_primitive _) trivial)

theorem ok_bounds {bounds : IR.Operand × IR.Operand} (h : kind.bounds? = some bounds) :
    D.Ok s bounds := by
  cases kind <;> cases h <;> exact ⟨trivial, trivial⟩

theorem ok_one {operand : IR.Operand} (h : kind.one? = some operand) : D.Ok s operand := by
  cases kind <;> cases h <;> trivial

variable (hl : D.Lowers l) (hargs : ∀ e ∈ args, D.Follows e)

include hl hargs

theorem sound_kindFunction : D.Sound .inside s (l.kindFunction path args) := by
  rw [Lowering.kindFunction]
  split
  next kind name _ _ =>
    dsimp only
    split
    · exact .bind (sound_defaultOf kind) fun _ _ _ hv => .pure (ok_some hv)
    · exact .bind (sound_defaultOf kind) fun _ _ _ hv => .pure (ok_some hv)
    · refine .pure fun v hv => ?_
      obtain ⟨operand, hoperand, rfl⟩ := Option.map_eq_some_iff.1 hv
      exact ⟨ok_one hoperand, ok_primitive kind, trivial⟩
    · refine .pure fun v hv => ?_
      obtain ⟨bounds, hbounds, rfl⟩ := Option.map_eq_some_iff.1 hv
      exact ⟨(ok_bounds hbounds).1, ok_primitive kind, trivial⟩
    · refine .pure fun v hv => ?_
      obtain ⟨bounds, hbounds, rfl⟩ := Option.map_eq_some_iff.1 hv
      exact ⟨(ok_bounds hbounds).2, ok_primitive kind, trivial⟩
    · rename_i arg _
      refine .bind (hl.expr s (hargs arg (mem_singleton_self arg)) nofun) fun v s₁ _ hv => ?_
      exact .bind (sound_convert hv kind) fun _ _ _ hv => .pure (ok_some hv)
    · exact .pure nofun
  · exact .pure nofun

/-! ### Arguments -/

/-- Parameters bound by arguments. -/
theorem ensures_inferArgs {binder : Binder} (hbinder : binder.Over D.Name) (params : List Ty) :
    D.Ensures .inside s (l.inferArgs binder params args) fun s' found =>
      D.Ok s' found ∧ found.1.params = binder.params := by
  induction params generalizing s binder args with
  | nil => exact .pure ⟨⟨hbinder, ok_nil⟩, rfl⟩
  | cons param params ih =>
    cases args with
    | nil => exact .pure ⟨⟨hbinder, ok_nil⟩, rfl⟩
    | cons arg args =>
      obtain ⟨harg, hargs⟩ := forall_mem_cons.1 hargs
      -- Once the first argument is dealt with, the others follow.
      have hrest : ∀ (binder' : Binder) (value : Option Value) s, binder'.Over D.Name →
          binder'.params = binder.params → D.Ok s value → D.Ensures .inside s (do
            let rest ← l.inferArgs binder' params args
            return (rest.1, value :: rest.2)) fun s' found =>
              D.Ok s' found ∧ found.1.params = binder.params := by
        intro binder' value s hbinder' hparams hvalue
        refine .bind (ih hargs hbinder') fun rest s₁ hord hrest => .pure ?_
        exact ⟨⟨hrest.1.1, forall_mem_cons.2 ⟨mono hord hvalue, hrest.1.2⟩⟩, hrest.2.trans hparams⟩
      rw [Lowering.inferArgs]
      refine .bind (sound_evidentType hl harg.1) fun t s₁ _ ht => ?_
      cases t with
      | some t => exact hrest _ none s₁ (hbinder.infer param (ht t rfl)) rfl ok_none
      | none =>
        dsimp only
        split
        · exact hrest binder none s₁ hbinder rfl ok_none
        · refine .bind (hl.expr s₁ harg Ty.overOption_none) fun value s₂ _ hvalue => ?_
          exact hrest _ (some value) s₂ (hbinder.infer param hvalue.2.2) rfl (ok_some hvalue)

/-- Arguments brought to parameter types. -/
theorem sound_arguments {params : List Ty} (hparams : ∀ t ∈ params, t.Over D.Name)
    (hearly : D.Ok s early) : D.Sound .inside s (l.arguments params args early) := by
  induction params generalizing s args early with
  | nil => exact .pure nofun
  | cons param params ih =>
    cases args with
    | nil => exact .pure nofun
    | cons arg args =>
      obtain ⟨hparam, hparams⟩ := forall_mem_cons.1 hparams
      obtain ⟨harg, hargs⟩ := forall_mem_cons.1 hargs
      have hrest : ∀ (value : Value) s', D.Ord .inside s s' → D.Ok s' value → D.Sound .inside s' (do
            let ir ← Gen.irType param
            let value ← Gen.convertTo value param ir
            let rest ← l.arguments params args early.tail
            return IR.Typed.mk ir value.operand :: rest) := by
        intro value s₁ hord₁ hvalue
        refine .bind (sound_irType param hparam s₁) fun ir s₂ hord₂ hir => ?_
        refine .bind (sound_convertTo (mono hord₂ hvalue) param ir) fun value s₃ hord₃ hvalue => ?_
        have hearly : D.Ok s₃ early.tail := mono (D.trans hord₁ (D.trans hord₂ hord₃))
          fun v hv => hearly v (mem_of_mem_tail hv)
        refine .bind (ih hargs hparams hearly) fun rest s₄ hord₄ hrest => .pure ?_
        exact forall_mem_cons.2 ⟨⟨mono hord₄ (mono hord₃ hir), mono hord₄ hvalue.1⟩, hrest⟩
      rw [Lowering.arguments]
      split
      next value hvalue =>
        refine hrest value s (D.refl _ _) (hearly (some value) ?_ value rfl)
        exact mem_of_head? hvalue
      · exact .bind (hl.expr s harg (Ty.overOption_some hparam)) fun value s₁ hord hvalue =>
          hrest value s₁ hord hvalue

theorem sound_checkArity (name : String) (count : Nat) :
    D.Sound .inside s (l.checkArity name count args span) := by
  rw [Lowering.checkArity]
  split
  · exact .pure trivial
  · exact .bind (sound_evaluate hl hargs) fun _ _ _ _ =>
      .bind (sound_error (by decide)) fun _ _ _ _ => .pure trivial

theorem sound_directCall {callee : IR.Operand} (hcallee : D.Ok s callee)
    (hcalls : D.focus.Calls callee) (hsig : D.Ok s sig) (hearly : D.Ok s early)
    (hreceiver : D.Ok s receiver) :
    D.Sound .inside s (l.directCall callee sig args early receiver span) := by
  refine .bind (sound_returnType hsig.2) fun ret s₁ hord₁ hret => ?_
  refine .bind (sound_checkArity hl hargs _ _) fun fits s₂ hord₂ _ => ?_
  split
  · exact sound_placeholder hsig.2
  · have hord := D.trans hord₁ hord₂
    refine .bind (sound_arguments hl hargs hsig.1 (mono hord hearly))
      fun lowered s₃ hord₃ hlowered => ?_
    have hord := D.trans hord hord₃
    have hret := mono (D.trans hord₂ hord₃) hret
    refine .bind (sound_call hret (mono hord hcallee) hcalls ?_)
      fun result s₄ hord₄ hresult => .pure (ok_ofCall hresult (mono hord₄ hret) hsig.2)
    cases receiver with
    | none => exact hlowered
    | some operand =>
      exact forall_mem_cons.2 ⟨⟨ok_closed rfl, mono hord (hreceiver operand rfl)⟩, hlowered⟩

/-- A call of a function by its symbol. -/
theorem sound_callSymbol {symbol : String} (hsymbol : D.focus.Refers symbol) (hsig : D.Ok s sig)
    (hearly : D.Ok s early) (hreceiver : D.Ok s receiver) :
    D.Sound .inside s
      (do return some (← l.directCall (.global symbol) sig args early receiver span)) :=
  .bind (sound_directCall hl hargs trivial hsymbol hsig hearly hreceiver) fun _ _ _ hv =>
    .pure (ok_some hv)

/-- The arguments of a generic item, one for each parameter, with the values that were lowered to
find them. -/
theorem ensures_bindItem (generics : List String) {explicit : List Ty}
    (hexplicit : ∀ t ∈ explicit, t.Over D.Name) (params : List Ty) (patterns : List Ty)
    {expected : Option Ty} (hexpected : Ty.OverOption D.Name expected) {fallback : Ty}
    (hfallback : fallback.Over D.Name) :
    D.Ensures .inside s (l.bindItem generics explicit params args patterns expected fallback)
      fun s' found => D.Ok s' found ∧ found.1.args.length = generics.length := by
  have hexplicit : ∀ t ∈ explicit.map l.subst, t.Over D.Name :=
    forall_mem_map.2 fun own hown => hl.subst (hexplicit own hown)
  refine .bind (ensures_inferArgs hl hargs ((Binder.over_new generics).explicitly hexplicit) params)
    fun inferred s₁ _ hinferred => ?_
  obtain ⟨⟨hbinder, hearly⟩, hparams⟩ := hinferred
  have hparams : inferred.1.params = generics := hparams
  cases expected with
  | none =>
    refine .pure ⟨⟨hbinder.args_resolve hfallback, hearly⟩, ?_⟩
    rw [Binder.length_args_resolve, hparams]
  | some t =>
    refine .pure ⟨⟨(hbinder.expectAll patterns (hexpected t rfl)).args_resolve hfallback,
      hearly⟩, ?_⟩
    rw [Binder.length_args_resolve, Binder.params_expectAll, hparams]

end Discipline

end Monomorph
