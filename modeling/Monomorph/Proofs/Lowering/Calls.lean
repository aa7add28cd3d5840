import Monomorph.Proofs.Lowering.Invocations

/-!
# Calls keep a discipline
-/

namespace Monomorph

open List Script

variable {path : Path} {method : String}

/-! ### Static methods -/

/-- A static method whose type names are of a certain kind. The arguments of its type need not be
so: they are parameters, for which a call has other types. -/
structure StaticMethod.Over (P : Vocabulary) (m : StaticMethod) : Prop where
  owner : P m.owner
  definition : m.definition.Over P
  /-- The arguments of the type in a call. -/
  args {b : Bindings} : b.Over P → (∀ name ∈ m.generics, (b.find? name).isSome) →
    ∀ t ∈ Ty.substList b ((m.pattern.asNamed?.map Prod.snd).getD []), t.Over P

namespace Program

variable {P : Vocabulary} {p : Program} {m : StaticMethod}

theorem Over.classStatic? (hp : p.Over P) {name : String} {d : ClassDef}
    (hd : p.class? name = some d) {f : Option FunctionDef} (hf : ∀ own ∈ f, own.Over P)
    (h : p.classStatic? d f = some m) : m.Over P := by
  obtain ⟨own, hown, rfl⟩ := Option.map_eq_some_iff.1 h
  refine ⟨(hp.class? hd).name, hf own hown, fun hb hbound => ?_⟩
  rw [Ty.substList_eq_map, forall_mem_map]
  exact forall_mem_map.2 fun generic hgeneric => Ty.over_subst_param hb (hbound generic hgeneric)

theorem Over.implStatic? (hp : p.Over P) {owner method : String}
    (h : p.implStatic? owner method = some m) : m.Over P := by
  simp only [Program.implStatic?, Option.bind_eq_bind, Option.bind_eq_some_iff] at h
  obtain ⟨name, -, ⟨origin, impl, f⟩, hfound, h⟩ := h
  obtain ⟨himpl, hf, hname⟩ := hp.implMethod? hfound
  dsimp only at h
  split at h <;> cases h
  refine ⟨hname, hf, fun hb _ => Ty.over_substList hb ?_⟩
  dsimp only
  cases hnamed : impl.selfTy.asNamed? with
  | none => exact forall_mem_nil _
  | some named => exact himpl.selfTy.asNamed? hnamed

theorem Over.staticMethod? (hp : p.Over P) (h : p.staticMethod? path = some m) : m.Over P := by
  simp only [Program.staticMethod?, Option.bind_eq_bind, Option.bind_eq_some_iff] at h
  obtain ⟨owner, -, method, -, h⟩ := h
  split at h
  next d hd =>
    refine hp.classStatic? hd (fun f hf => ?_) h
    exact (hp.class? hd).methods f (mem_of_find?_eq_some (Option.filter_eq_some_iff.1 hf).1)
  · exact hp.implStatic? h

theorem Over.staticOrNew? (hp : p.Over P) (h : p.staticOrNew? path = some m) : m.Over P := by
  simp only [Program.staticOrNew?, Option.bind_eq_bind, Option.bind_eq_some_iff] at h
  obtain ⟨owner, -, method, -, h⟩ := h
  split at h
  next d hd =>
    split at h
    · exact hp.classStatic? hd (fun f hf => (hp.class? hd).constructors f (mem_of_head? hf)) h
    · exact hp.staticMethod? h
  · exact hp.staticMethod? h

end Program

/-- The first method on a chain is the method of that name of a class of the chain. -/
theorem ClassDef.method?_of_methodAmong? {method : String} {chain : List ClassDef}
    {position : Nat} {owner : ClassDef} {f : FunctionDef}
    (h : methodAmong? method chain = some (position, owner, f)) :
    owner ∈ chain ∧ owner.method? method = some f := by
  induction chain generalizing position with
  | nil => cases h
  | cons d ds ih =>
    rw [methodAmong?] at h
    split at h
    next g hg =>
      cases h
      exact ⟨mem_cons_self, (Option.filter_eq_some_iff.1 hg).1⟩
    · obtain ⟨⟨position', owner', f'⟩, hfound, heq⟩ := Option.map_eq_some_iff.1 h
      cases heq
      exact ⟨mem_cons_of_mem d (ih hfound).1, (ih hfound).2⟩

namespace Discipline

open Facts Elements Representing

variable {session : Session} {D : Discipline session} {mode : Mode} {s s' : Build} {l : Lowering}
  {args : List Expr} {expected : Option Ty} {span : Span} {receiver operand : IR.Operand}
  {sig : Signature} {early : List (Option Value)} {behavior : String} {generic : Bool} {note : Note}

/-! ### Dynamic dispatch -/

variable (hl : D.Lowers l) (hargs : ∀ e ∈ args, D.Follows e)

include hl hargs

theorem sound_callSlot {table : IR.Operand} (slot : Nat) (htable : D.Ok s table)
    (hreceiver : D.Ok s receiver) (hsig : D.Ok s sig) (hearly : D.Ok s early) :
    D.Sound .inside s (l.callSlot table slot receiver sig args early span) := by
  refine ensures_define (f := fun r => .slot r table slot) (fun _ => rfl) (fun _ => rfl)
    (fun _ => ⟨nofun, forall_mem_singleton.2 htable⟩) fun r s₁ hord₁ hr => ?_
  refine .bind (ensures_load (ok_closed rfl) hr) fun callee s₂ hord₂ hcallee => ?_
  have hord := D.trans hord₁ hord₂
  exact sound_directCall hl hargs hcallee.1 hcallee.2 (mono hord hsig) (mono hord hearly)
    (ok_some (mono hord hreceiver))

theorem sound_callBehavior {addr : IR.Operand} (haddr : D.Ok s addr)
    (hbehavior : D.Name.behavior behavior) {behaviorArgs : List Ty}
    (hbehaviorArgs : ∀ t ∈ behaviorArgs, t.Over D.Name) :
    D.Sound .inside s (l.callBehavior addr behavior behaviorArgs method args span) := by
  refine .program ?_
  split
  · refine .bind (sound_evaluate hl hargs) fun _ s₂ _ _ => ?_
    exact sound_refused (by decide) rfl trivial
  next slot d methodSig hfound =>
    simp only [Program.behaviorMethod?, Option.bind_eq_bind, Option.bind_eq_some_iff] at hfound
    obtain ⟨slot', -, d', hd', sig', hsig', heq⟩ := hfound
    cases heq
    have hmethod := D.program.behavior? hd' methodSig (mem_of_find?_eq_some hsig')
    have hb := Bindings.over_ofArgs hbehaviorArgs d.generics
    refine .bind (sound_dynType hbehavior hbehaviorArgs) fun dynIR s₂ hord₂ hdynIR => ?_
    have haddr := mono hord₂ haddr
    refine .bind (sound_member hdynIR haddr 0) fun dataAddr s₃ hord₃ hdataAddr => ?_
    refine .bind (sound_load (ok_closed rfl) hdataAddr) fun data s₄ hord₄ hdata => ?_
    have hord := D.trans hord₃ hord₄
    refine .bind (sound_member (mono hord hdynIR) (mono hord haddr) 1)
      fun tableAddr s₅ hord₅ htableAddr => ?_
    refine .bind (sound_load (ok_closed rfl) htableAddr) fun table s₆ hord₆ htable => ?_
    exact sound_callSlot hl hargs slot htable (mono (D.trans hord₅ hord₆) hdata)
      ⟨Ty.over_substList hb hmethod.params, hmethod.ret.subst hb⟩ ok_nil

omit hl hargs in
/-- A value made known through a behavior only. -/
theorem sound_coerceToDyn {v : Value} (hv : D.Ok s v) (hbehavior : D.Name.behavior behavior)
    {args : List Ty} (hargs : ∀ t ∈ args, t.Over D.Name) :
    D.Sound .inside s (Gen.coerceToDyn v behavior args) := by
  refine .bind (sound_dynType hbehavior hargs) fun dynIR s₁ hord₁ hdynIR => ?_
  have hv := mono hord₁ hv
  have hrest : ∀ data s', D.Ord .inside s₁ s' → D.Ok s' data → D.Sound .inside s' (do
      let table ← Gen.requireTable (.behavior v.ty behavior args)
      let half ← Gen.fresh
      Gen.emit (.insertValue half ⟨dynIR, .undef⟩ ⟨.ptr, data⟩ 0)
      let whole ← Gen.fresh
      Gen.emit (.insertValue whole ⟨dynIR, .temp half⟩ ⟨.ptr, table⟩ 1)
      return ({ operand := .temp whole, ir := dynIR, ty := .dyn behavior args } : Value)) := by
    intro data s₂ hord₂ hdata
    refine .bind (sound_requireTable (forall_mem_cons.2 ⟨hv.2.2, hargs⟩))
      fun table s₃ hord₃ htable => ?_
    have hdynIR := mono (D.trans hord₂ hord₃) hdynIR
    refine ensures_define (f := fun r => .insertValue r ⟨dynIR, .undef⟩ ⟨.ptr, data⟩ 0)
      (fun _ => rfl) (fun _ => rfl)
      (fun _ => ⟨ok_pair hdynIR (ok_closed rfl), ok_pair trivial (mono hord₃ hdata)⟩)
      fun half s₄ hord₄ hhalf => ?_
    have hdynIR := mono hord₄ hdynIR
    exact ensures_define (f := fun r => .insertValue r ⟨dynIR, .temp half⟩ ⟨.ptr, table⟩ 1)
      (fun _ => rfl) (fun _ => rfl)
      (fun _ => ⟨ok_pair hdynIR (ok_closed rfl), ok_pair hhalf (mono hord₄ htable)⟩)
      fun whole s₅ hord₅ hwhole =>
        .pure ⟨hwhole, mono hord₅ hdynIR, hbehavior, Ty.overList_iff.2 hargs⟩
  refine .program ?_
  dsimp only
  split
  · exact hrest v.operand s₁ (D.refl _ _) hv.1
  · refine .bind (sound_sizeOf hv.2.2) fun size s₃ hord₃ _ => ?_
    refine .bind (sound_allocate _) fun data s₄ hord₄ hdata => ?_
    have hord := D.trans hord₃ hord₄
    have hv := mono hord hv
    refine ensures_when (fun _ => sound_store hv.2.1 hv.1 hdata) fun s₅ hord₅ => ?_
    exact hrest data s₅ (D.trans hord hord₅) (mono hord₅ hdata)

/-! ### Method calls -/

omit hargs in
theorem sound_hasCallableField {receiver : Expr} (he : receiver.Over D.Name) :
    D.Sound .inside s (l.hasCallableField receiver method) := by
  refine .bind (sound_evidentType hl he) fun t s₁ _ _ => ?_
  split
  · exact .pure trivial
  · dsimp only
    split
    · exact .pure trivial
    · refine .program ?_
      split <;> exact .pure trivial

omit hargs in
theorem sound_receiver {e : Expr} (he : D.Follows e) : D.Sound .inside s (l.receiver e) := by
  refine .bind (sound_objectCursor (sound_place hl e he) e) fun found s₁ _ hfound => ?_
  have hrest : ∀ (addr : IR.Operand) (t : Ty) s, D.Ok s addr → t.Over D.Name → D.Sound .inside s (do
        if (← Gen.program).isReference t then return some (← Gen.load .ptr addr, t)
        return some (addr, t)) := by
    intro addr t s haddr ht
    refine .program ?_
    split
    · exact .bind (sound_load (ok_closed rfl) haddr) fun _ _ _ hloaded =>
        .pure (ok_some ⟨hloaded, ht⟩)
    · exact .pure (ok_some ⟨haddr, ht⟩)
  split
  · exact .pure nofun
  · exact .pure (ok_some (hfound _ rfl))
  · obtain ⟨haddr, ht⟩ := hfound _ rfl
    dsimp only
    split
    · exact .bind (sound_load (ok_closed rfl) haddr) fun addr s₂ _ haddr =>
        hrest addr _ s₂ haddr ht
    · exact hrest _ _ s₁ haddr ht

theorem sound_bindMethod (owner : String) (f : FunctionDef) {b : Bindings} (hb : b.Over D.Name) :
    D.Sound .inside s (l.bindMethod owner f b args span) := by
  rw [Lowering.bindMethod]
  split
  · exact .pure ⟨hb, nofun, nofun⟩
  · refine .bind (ensures_bindItem hl hargs _ (forall_mem_nil _) _ _
      Ty.overOption_none trivial) fun found s₁ _ hfound => ?_
    exact .bind sound_reportDefaulted fun _ s₂ hord _ =>
      .pure ⟨hb.extend (Bindings.over_ofArgs hfound.1.1 _), hfound.1.1, mono hord hfound.1.2⟩

omit hl hargs in
/-- The symbol of a method: that of an instance, or the plain one. -/
theorem ensures_methodSymbol {owner : String} {ownerArgs methodArgs : List Ty}
    (hrequests : generic = true →
      session.program.Requests (.ofMethod owner ownerArgs method methodArgs))
    (hownerArgs : ∀ t ∈ ownerArgs, t.Over D.Name) (hmethodArgs : ∀ t ∈ methodArgs, t.Over D.Name) :
    D.Ensures mode s (Lowering.methodSymbol owner ownerArgs method methodArgs generic)
      fun _ symbol => (generic = true → D.focus.Refers symbol) ∧
        (generic = false → symbol = session.symbol (Symbol.ofMethod owner [] method [])) := by
  cases generic with
  | true =>
    refine .program ?_
    refine .bind (ensures_requestMethod (fun hclosed => .of_closed (hrequests rfl) hclosed)
      hownerArgs hmethodArgs) fun own s₂ _ hown => ?_
    exact ensures_functionSymbol ⟨fun _ => hown, by rintro ⟨⟩⟩
  | false => exact ensures_functionSymbol ⟨by rintro ⟨⟩, fun _ => rfl⟩

/-- A method is called by its symbol once it is declared where that is needed. -/
theorem sound_callMethod {symbol : String} (foreign : Bool)
    (hgeneric : generic = true → D.focus.Refers symbol)
    (hplain : generic = false → foreign = false → D.focus.Refers symbol) (hsig : ∀ s, D.Ok s sig)
    (hearly : D.Ok s early) (hreceiver : D.Ok s receiver) :
    D.Sound .inside s (do
      if !generic && foreign then Gen.declareCallee symbol sig true
      return some (← l.directCall (.global symbol) sig args early (some receiver) span)) := by
  refine ensures_declare_when (hsig s) (fun hnot => ?_) fun s₁ hord hsymbol =>
    sound_callSymbol hl hargs hsymbol (hsig s₁) (mono hord hearly) (ok_some (mono hord hreceiver))
  cases generic with
  | true => exact hgeneric rfl
  | false =>
    cases foreign with
    | true => exact absurd rfl hnot
    | false => exact hplain rfl rfl

theorem sound_callClassMethod (d : ClassDef) {classArgs : List Ty}
    (hclassArgs : ∀ t ∈ classArgs, t.Over D.Name) {object : IR.Operand} (hobject : D.Ok s object) :
    D.Sound .inside s (l.callClassMethod d classArgs object method args span) := by
  refine .program ?_
  split
  · exact .pure nofun
  next position owner f hfound =>
    obtain ⟨hmem, hmethod⟩ := ClassDef.method?_of_methodAmong? hfound
    have howner := D.program.classChain hmem
    have hf := howner.methods f (ClassDef.of_method? hmethod).1
    dsimp only
    have hownerArgs : ∀ t ∈ if position = 0 then classArgs else [], t.Over D.Name := by
      split
      · exact hclassArgs
      · exact forall_mem_nil _
    generalize (if position = 0 then classArgs else []) = ownerArgs at hownerArgs ⊢
    refine .bind (sound_bindMethod hl hargs _ f (Bindings.over_ofArgs hownerArgs owner.generics))
      fun bound s₂ hord₂ hbound => ?_
    obtain ⟨b, methodArgs, early⟩ := bound
    obtain ⟨hb, hmethodArgs, hearly⟩ := hbound
    have hobject := mono hord₂ hobject
    have hsig : ∀ s, D.Ok s (Signature.ofDef (owner.name ++ "::" ++ method) f b) :=
      fun s => ok_ofDef hf hb _
    dsimp only
    split
    · refine .bind (sound_load (ok_closed rfl) hobject) fun table s₃ hord₃ htable => ?_
      exact .bind (sound_callSlot hl hargs _ htable (mono hord₃ hobject) (hsig s₃)
        (mono hord₃ hearly)) fun _ _ _ hv => .pure (ok_some hv)
    · obtain ⟨name, hclass⟩ := Program.exists_class?_of_mem_classChain hmem
      refine .bind (ensures_methodSymbol (fun _ => .classMethod hclass hmethod _ _)
        hownerArgs hmethodArgs) fun symbol s₃ hord₃ hsymbol => ?_
      refine sound_callMethod hl hargs _ hsymbol.1 (fun hgeneric hforeign => ?_) hsig
        (mono hord₃ hearly) (mono hord₃ hobject)
      rw [Bool.not_eq_false'] at hforeign
      exact hsymbol.2 hgeneric ▸ D.focus.listed (.classMethod hclass hmethod hforeign)

theorem sound_callImplMethod {receiverTy : Ty} (hty : receiverTy.Over D.Name) (name : String)
    {typeArgs : List Ty} (htypeArgs : ∀ t ∈ typeArgs, t.Over D.Name) (hoperand : D.Ok s operand) :
    D.Sound .inside s (l.callImplMethod receiverTy name typeArgs operand method args span) := by
  refine .program ?_
  split
  · exact .pure nofun
  next origin impl f hfound =>
    obtain ⟨-, hf, -⟩ := D.program.implMethod? hfound
    obtain ⟨himpl, hname, hmethod⟩ := Program.of_implMethod? hfound
    split
    · exact .pure nofun
    · refine .bind (sound_bindMethod hl hargs _
        f (hty.matchInto impl.generics impl.selfTy Bindings.over_empty))
        fun bound s₂ hord₂ hbound => ?_
      obtain ⟨b, methodArgs, early⟩ := bound
      obtain ⟨hb, hmethodArgs, hearly⟩ := hbound
      have hsig : ∀ s, D.Ok s (Signature.ofDef (name ++ "::" ++ method) f b) :=
        fun s => ok_ofDef hf hb _
      refine .bind (ensures_methodSymbol (fun hgeneric => .implMethod himpl hname hmethod ?_
        _ _) htypeArgs hmethodArgs) fun symbol s₃ hord₃ hsymbol => ?_
      · rw [Bool.or_eq_true, Bool.not_eq_true', isEmpty_eq_false_iff] at hgeneric
        exact hgeneric
      · refine sound_callMethod hl hargs (decide (origin ≠ .home))
          hsymbol.1 (fun hgeneric hforeign => ?_) hsig (mono hord₃ hearly)
          (mono (D.trans hord₂ hord₃) hoperand)
        obtain rfl := not_not.1 (of_decide_eq_false hforeign)
        exact hsymbol.2 hgeneric ▸
          D.focus.listed (.implMethod (Program.mem_home_impls himpl) hname hmethod)

theorem sound_callNominal (hoperand : D.Ok s operand) {t : Ty} (ht : t.Over D.Name) :
    D.Sound .inside s (l.callNominal operand t method args span) := by
  rw [Lowering.callNominal]
  split
  · exact .pure nofun
  next name typeArgs hnominal =>
    have htypeArgs := ht.nominal? hnominal
    have hrest : ∀ own s', D.Ord .inside s s' → D.Ok s' own → D.Sound .inside s' (match own with
        | some v => return some v
        | none => l.callImplMethod t name typeArgs operand method args span) := by
      intro own s₁ hord hown
      cases own with
      | some v => exact .pure hown
      | none =>
        exact sound_callImplMethod hl hargs ht name htypeArgs (mono hord hoperand)
    refine .program ?_
    dsimp only
    split
    · exact .bind (sound_callClassMethod hl hargs _ htypeArgs hoperand) hrest
    · exact hrest none s (D.refl _ _) nofun

theorem sound_methodCall (hnote : Ty.OverOption D.Name note.ty) {object : Expr}
    (hobject : D.Follows object) : D.Sound .inside s (l.methodCall note object method args) := by
  refine .bind (sound_hasCallableField hl hobject.1) fun callable s₁ _ _ => ?_
  split
  · exact sound_callField hl hargs hobject method
  · refine .bind (sound_receiver hl hobject) fun found s₂ _ hfound => ?_
    split
    · exact .bind (sound_evaluate hl hargs) fun _ _ _ _ =>
        .pure (ok_placeholder (ok_closed rfl) trivial)
    · obtain ⟨hoperand, ht⟩ := hfound _ rfl
      exact sound_callBehavior hl hargs hoperand ht.1 (Ty.overList_iff.1 ht.2)
    next operand t _ =>
      obtain ⟨hoperand, ht⟩ := hfound _ rfl
      refine .bind (sound_callNominal hl hargs hoperand ht) fun found s₃ _ hfound => ?_
      cases found with
      | some v => exact .pure (hfound v rfl)
      | none =>
        refine .bind (sound_evaluate hl hargs) fun _ s₄ _ _ => ?_
        exact .bind (sound_error (by decide)) fun _ s₅ _ _ =>
          sound_placeholder (hl.noteType hnote trivial)

/-! ### Names as values -/

omit hargs in
theorem sound_pathValue (hpath : path.Over D.Name) (hexpected : Ty.OverOption D.Name expected) :
    D.Sound .inside s (l.pathValue path span expected) := by
  refine .bind (sound_variant hl hpath (forall_mem_nil _) hexpected) fun found s₁ _ hfound => ?_
  cases found with
  | some v => exact .pure (hfound v rfl)
  | none =>
    refine .program ?_
    split
    · exact sound_functionRef hl _ hexpected
    · exact sound_refused (by decide) rfl trivial

omit hargs in
theorem sound_name (name : String) (hexpected : Ty.OverOption D.Name expected) :
    D.Sound .inside s (l.name name span expected) := by
  refine .bind sound_findLocal? fun found s₁ _ hfound => ?_
  split
  · obtain ⟨haddr, hty, hir⟩ := hfound _ rfl
    exact .bind (sound_load hir haddr) fun operand s₂ hord hoperand =>
      .pure ⟨hoperand, mono hord hir, hty⟩
  · obtain ⟨hoperand, hty, hir⟩ := hfound _ rfl
    exact .pure ⟨hoperand, hir, hty⟩
  · refine .program ?_
    split
    · exact sound_functionRef hl name hexpected
    · split
      · exact sound_pathValue hl (Path.over_single _) hexpected
      · exact sound_refused (by decide) rfl trivial

/-! ### Calls of what a path names -/

theorem sound_callGeneric (hpath : path.Over D.Name) (hexpected : Ty.OverOption D.Name expected) :
    D.Sound .inside s (l.callGeneric path args span expected) := by
  refine .program ?_
  split
  · exact .pure nofun
  next f hfound =>
    obtain ⟨hfind, hgeneric⟩ := Option.filter_eq_some_iff.1 hfound
    have hf := D.program.function? hfind
    refine .bind (ensures_bindItem hl hargs _ hpath _ _ hexpected trivial)
      fun found s₂ _ hfound => ?_
    obtain ⟨resolution, early⟩ := found
    obtain ⟨⟨hresolution, hearly⟩, -⟩ := hfound
    refine .bind sound_reportDefaulted fun _ s₃ hord₃ _ => ?_
    refine .bind (ensures_requestGeneric hfind hgeneric hresolution) fun own s₄ hord₄ hown => ?_
    exact .functionSymbol (sound_callSymbol hl hargs hown
      (ok_ofDef hf (Bindings.over_ofArgs hresolution _) _) (mono (D.trans hord₃ hord₄) hearly)
      ok_none)

theorem sound_callGenericStatic (hpath : path.Over D.Name)
    (hexpected : Ty.OverOption D.Name expected) :
    D.Sound .inside s (l.callGenericStatic path args span expected) := by
  refine .program ?_
  split
  · exact .pure nofun
  next m hfound =>
    obtain ⟨hfind, hgeneric⟩ := Option.filter_eq_some_iff.1 hfound
    have hm := D.program.staticOrNew? hfind
    dsimp only
    refine .bind (ensures_bindItem hl hargs _ hpath _ _ hexpected trivial)
      fun found s₂ _ hfound => ?_
    obtain ⟨resolution, early⟩ := found
    obtain ⟨⟨hresolution, hearly⟩, hlength⟩ := hfound
    have hb := Bindings.over_ofArgs hresolution (m.generics ++ m.definition.generics)
    have hownerArgs := hm.args hb fun name hname =>
      Bindings.isSome_find?_ofArgs (Nat.le_of_eq hlength.symm) (mem_append_left _ hname)
    refine .bind sound_reportDefaulted fun _ s₃ hord₃ _ => ?_
    refine .bind (ensures_requestMethod (Focus.grants_staticOrNew hfind hgeneric hlength)
      hownerArgs fun t ht => hresolution t (mem_of_mem_drop ht)) fun own s₄ hord₄ hown => ?_
    have hearly := mono (D.trans hord₃ hord₄) hearly
    refine .functionSymbol (sound_callSymbol hl hargs hown ?_ hearly ok_none)
    have hsig := ok_ofDef (D := D) (s := s₄) hm.definition hb path.joined
    split
    · exact ⟨hsig.1, Ty.over_ofName hm.owner hownerArgs⟩
    · exact hsig

theorem sound_callPlain {f : FunctionDef} {name : String}
    (hfind : session.program.function? name = some f) :
    D.Sound .inside s (l.callPlain f args span) := by
  rw [Lowering.callPlain]
  split
  · exact .pure nofun
  next hgeneric =>
    obtain ⟨hgeneric, -⟩ := Bool.or_eq_false_iff.1 (Bool.eq_false_iff.2 hgeneric)
    exact .bind (ensures_plainSymbol hfind hgeneric) fun symbol s₁ _ hsymbol =>
      sound_callSymbol hl hargs hsymbol (ok_ofDef (D.program.function? hfind) Bindings.over_empty _)
        ok_nil ok_none

theorem sound_callStatic : D.Sound .inside s (l.callStatic path args span) := by
  refine .program ?_
  split
  · exact .pure nofun
  next m hm =>
    have hsig : ∀ s, D.Ok s (Signature.ofDef path.joined m.definition .empty) :=
      fun s => ok_ofDef (D.program.staticMethod? hm).definition Bindings.over_empty _
    refine .functionSymbol (ensures_declare_when (hsig s) (fun hhome => ?_) fun s₃ _ hsymbol =>
      sound_callSymbol hl hargs hsymbol (hsig s₃) ok_nil ok_none)
    rw [Bool.not_eq_true', Bool.not_eq_false] at hhome
    exact D.focus.listed (Program.lists_staticMethod hm hhome)

theorem sound_callDefined : D.Sound .inside s (l.callDefined path args span) := by
  refine .program ?_
  split
  next f hf => exact sound_callPlain hl hargs hf
  · exact sound_callStatic hl hargs

theorem sound_callLocal : D.Sound .inside s (l.callLocal path args span) := by
  rw [Lowering.callLocal]
  split
  · refine .bind sound_findLocal? fun found s₁ _ _ => ?_
    split
    · exact .pure nofun
    · refine .bind (sound_name hl _ nofun) fun callee s₂ _ hcallee => ?_
      exact .bind (sound_callFunction hl hargs hcallee) fun _ _ _ hv =>
        .pure (ok_some hv)
  · exact .pure nofun

omit hl hargs in
theorem sound_firstOf {stages : List (Gen (Option Value))}
    (h : ∀ stage ∈ stages, ∀ s, D.Sound .inside s stage) :
    D.Sound .inside s (Lowering.firstOf stages) := by
  induction stages generalizing s with
  | nil => exact .pure nofun
  | cons stage stages ih =>
    obtain ⟨hstage, hstages⟩ := forall_mem_cons.1 h
    refine .bind (hstage s) fun found s₁ _ hfound => ?_
    cases found with
    | some v => exact .pure hfound
    | none => exact ih hstages

theorem sound_callPath (hpath : path.Over D.Name) (hnote : Ty.OverOption D.Name note.ty)
    (hexpected : Ty.OverOption D.Name expected) :
    D.Sound .inside s (l.callPath path args note expected) := by
  have hstages : ∀ stage ∈ l.callStages path args note expected, ∀ s, D.Sound .inside s stage := by
    rw [Lowering.callStages]
    simp only [forall_mem_cons]
    exact ⟨fun s => sound_kindFunction hl hargs, fun s => sound_variant hl hpath hargs hexpected,
      fun s => sound_intrinsic hl hargs hpath hnote,
      fun s => sound_callGeneric hl hargs hpath hexpected,
      fun s => sound_construct hl hargs,
      fun s => sound_callGenericStatic hl hargs hpath hexpected,
      fun s => sound_callDefined hl hargs,
      fun s => sound_callLocal hl hargs, forall_mem_nil _⟩
  refine .bind (sound_firstOf hstages) fun found s₁ _ hfound => ?_
  cases found with
  | some v => exact .pure (hfound v rfl)
  | none =>
    refine .bind (sound_evaluate hl hargs) fun _ s₂ _ _ => ?_
    exact .bind (sound_error (by decide)) fun _ s₃ _ _ =>
      sound_placeholder (hexpected.getD trivial)

/-- A call. -/
theorem sound_lowerCall (hnote : Ty.OverOption D.Name note.ty) {callee : Expr}
    (hcallee : D.Follows callee) (hexpected : Ty.OverOption D.Name expected) :
    D.Sound .inside s (l.call note callee args expected) := by
  rw [Lowering.call.eq_def]
  split
  · exact sound_callPath hl hargs hcallee.1.2 hnote hexpected
  · exact sound_callPath hl hargs (Path.over_single _) hnote hexpected
  · exact sound_callField hl hargs (hcallee.part (mem_singleton_self _)) _
  · exact .bind (hl.expr s hcallee nofun) fun v s₁ _ hv =>
      sound_callFunction hl hargs hv

end Discipline

end Monomorph
