import Monomorph.Proofs.Compile.Ledger
import Monomorph.Proofs.Lowering.Discipline

/-!
# Elementary code keeps a discipline

The scripts from which all code is made keep the invariant of every discipline: single steps, the
representation of types, stack slots, loads, stores, calls and numeric conversions.
-/

namespace Monomorph

open List Script

variable {name : String} {ir : IR.Ty}

namespace Facts

variable {session : Session} {F : Facts session} {mode : Mode} {s s' : Build} {α : Type}
  {t : Ty}

theorem ok_pair [Judged α] {a b : α} (ha : F.Ok s a) (hb : F.Ok s b) : F.Ok s [a, b] :=
  forall_mem_cons.2 ⟨ha, forall_mem_singleton.2 hb⟩

theorem ok_nil [Judged α] : F.Ok s ([] : List α) := nofun

theorem ok_none [Judged α] : F.Ok s (none : Option α) := nofun

theorem ok_some [Judged α] {a : α} (ha : F.Ok s a) : F.Ok s (some a) := by
  rintro _ ⟨⟩
  exact ha

/-- A type without names is good. -/
theorem ok_closed {t : IR.Ty} (h : t.names = []) : F.Ok s t := by
  intro name hname
  rw [h] at hname
  cases hname

theorem ok_anon {ts : List IR.Ty} (h : F.Ok s ts) : F.Ok s (IR.Ty.anon ts) := by
  intro name hname
  obtain ⟨t, ht, hname⟩ := IR.Ty.mem_namesList.1 hname
  exact h t ht name hname

theorem ok_primitive (kind : Primitive) : F.Ok s kind.ir := by
  cases kind <;> exact ok_closed rfl

theorem ok_unit : F.Ok s Value.unit := ⟨trivial, ok_closed rfl, trivial⟩

theorem ok_placeholder (hir : F.Ok s ir) (ht : t.Over F.Name) :
    F.Ok s (Value.placeholder ir t) := by
  rw [Value.placeholder]
  split
  · exact ok_unit
  next operand hoperand =>
    refine ⟨?_, hir, ht⟩
    cases ir <;> cases hoperand <;> trivial

theorem ok_ofCall {result : Option IR.Operand} (hresult : F.Ok s result) (hir : F.Ok s ir)
    (ht : t.Over F.Name) : F.Ok s (Value.ofCall result ir t) := by
  cases result with
  | none => exact ok_unit
  | some operand => exact ⟨hresult operand rfl, hir, ht⟩

theorem ok_typed {v : Value} (hv : F.Ok s v) : F.Ok s v.typed := ⟨hv.2.1, hv.1⟩

theorem ok_ret {value : Option IR.Typed} (h : F.Ok s value) : F.Ok s (IR.Instr.ret value) := by
  cases value with
  | none => exact ⟨nofun, nofun⟩
  | some v =>
    exact ⟨forall_mem_singleton.2 (h v rfl).1, forall_mem_singleton.2 (h v rfl).2⟩

theorem ok_call {result : Option Nat} {ty : IR.Ty} {callee : IR.Operand} {args : List IR.Typed}
    (hty : F.Ok s ty) (hcallee : F.Ok s callee) (hargs : F.Ok s args) :
    F.Ok s (IR.Instr.call result ty callee args) := by
  exact ⟨forall_mem_cons.2 ⟨hty, forall_mem_map.2 fun arg harg => (hargs arg harg).1⟩,
    forall_mem_cons.2 ⟨hcallee, forall_mem_map.2 fun arg harg => (hargs arg harg).2⟩⟩

end Facts

namespace Elements

open Facts Gen

variable {session : Session} {E : Elements session} {α β : Type} {mode : Mode} {s s' origin : Build}
  {Q : Build → α → Prop} {R : Build → β → Prop} {addr : IR.Operand} {item : WorkItem}
  {args : List Ty} {span : Span} {t : Ty} {ret : IR.Ty} {i : IR.Instr} {k : Nat → Gen β} {v : Value}

/-! ### Steps -/

theorem ensures_perform {step : Step} {Q : Build → step.Answer → Prop} (h : E.Allows s step)
    (hQ : ∀ answer s', step.perform session s = .ok (answer, s') → E.Inv mode s' →
      E.focus.Takes step answer → Q s' answer) :
    E.Ensures mode s (perform step) Q := by
  refine ensures_ask fun hs answer s' hperform htakes => ?_
  obtain ⟨hinv, hord⟩ := E.quiet hs h htakes hperform
  refine ⟨hinv, fun _ => hord, traced_step step ?_ ?_ ?_ hperform,
    hQ answer s' hperform hinv htakes⟩
  · cases step with
    | beginFunction | finishFunction => exact h.elim
    | _ => rfl
  · cases step with
    | require | requireTable => exact fun _ => h
    | defineType | registerCtor => exact h.1
    | bindLocal | emit => exact h.elim
    | report | defer | depth | extent | classExtent | payloadWords => exact h
    | _ => trivial
  · cases step with
    | bindLocal => exact h.elim
    | _ => trivial

/-- A step of which no more is needed than that it is allowed. -/
theorem ensures_step (step : Step) (h : E.Allows s step) :
    E.Ensures mode s (perform step) fun _ _ => True :=
  ensures_perform h fun _ _ _ _ _ => trivial

theorem sound_report {d : Diagnostic} (h : E.focus.Reports d) (hgrave : d.IsGrave) :
    E.Sound mode s (report d) :=
  ensures_step (.report d) ⟨h, hgrave⟩

theorem sound_error {code : Code} {message label : String} (hcode : code ≠ .missingDefinition) :
    E.Sound mode s (error code span message label) :=
  sound_report (fun h => (hcode h).elim) (.inl rfl)

theorem sound_reportDefaulted {item : String} {resolution : Resolution} :
    E.Sound mode s (reportDefaulted item resolution span) :=
  ensures_step (.reportDefaulted item resolution span) trivial

theorem sound_stringGlobal (value : String) : E.Sound mode s (stringGlobal value) :=
  .bind (ensures_step (.stringGlobal value) trivial) fun _ _ _ _ => .pure trivial

/-- The code of an instance that is requested may be referred to. -/
theorem ensures_require (h : E.Ok s item) : E.Ensures mode s (require item) fun _ name =>
    item.kind.isCode = true → E.focus.Refers (session.symbol name) :=
  ensures_perform h fun _ _ hperform _ htakes hcode => by
    cases hperform
    exact E.focus.requested hcode (E.focus.required htakes)

/-- A request is put aside if it is open. -/
theorem ensures_request {isOpen : Bool} (h : isOpen = false → E.Ok s item)
    (hopen : isOpen = true → E.focus.Defers item) :
    E.Ensures mode s (request item isOpen) fun _ name =>
      item.kind.isCode = true → E.focus.Refers (session.symbol name) := by
  cases isOpen with
  | false => exact ensures_require (h rfl)
  | true =>
    refine ensures_perform (hopen rfl) fun _ _ hperform _ htakes _ => ?_
    cases hperform
    exact E.focus.deferred htakes

/-- The instance of a type is requested where the type is represented. -/
theorem ensures_requestType {kind : InstanceKind} {base : String} (hkind : kind ≠ .func)
    (hrequests : session.program.Requests (.plain kind base args))
    (hitem : ∀ item, E.focus.Grants item → E.Item item) (hargs : ∀ t ∈ args, t.Over E.Name) :
    E.Ensures mode s (request (.plain kind base args) (session.program.isOpenList args))
      fun _ _ => True :=
  (ensures_request (fun hclosed => ⟨hitem _ (.of_plain hrequests hclosed), hargs, ok_none⟩)
    fun _ => E.focus.defers fun heq => (hkind heq).elim).weaken fun _ _ _ => trivial

theorem sound_requireTable {request : Dispatch.Request} (h : E.Ok s request) :
    E.Sound mode s (requireTable request) :=
  .bind (ensures_step (.requireTable request) h) fun _ _ _ _ => .pure trivial

theorem sound_extentOf (h : t.Over E.Name) : E.Sound mode s (extentOf t) :=
  ensures_step (.extent t) h

theorem sound_sizeOf (h : t.Over E.Name) : E.Sound mode s (sizeOf t) :=
  .bind (sound_extentOf h) fun _ _ _ _ => .pure trivial

/-- What is declared may be referred to. -/
theorem ensures_declare {params : List IR.Ty} (symbol : String) (hret : E.Ok s ret)
    (hparams : E.Ok s params) :
    E.Ensures mode s (declare symbol ret params) fun _ _ => E.focus.Refers symbol :=
  ensures_perform (forall_mem_cons.2 ⟨hret, hparams⟩) fun _ _ _ _ htakes =>
    E.focus.declared htakes

/-! ### Instructions -/

/-- A temporary was taken in an earlier state and has no value yet. -/
structure Awaits (E : Elements session) (origin s : Build) : Prop where
  inv : E.Inv .inside origin
  ord : E.Ord .inside origin.takeTemp s

theorem Awaits.mono (h : E.Awaits origin s) (hord : E.Ord .inside s s') : E.Awaits origin s' :=
  ⟨h.inv, E.trans h.ord hord⟩

/-- An instruction gives the temporary its value. -/
theorem fills_emit {k : Gen β} (h : E.Awaits origin s)
    (hresult : i.result? = some origin.assembly.temps) (hplain : i.isPlain) (hi : E.Ok s i)
    (hemits : E.focus.Emits i)
    (hk : ∀ s', E.Ord .inside origin s' →
      E.Ok s' (IR.Operand.temp origin.assembly.temps) → E.Ensures .inside s' k R) :
    E.EnsuresFrom .inside origin s (emit i >>= fun _ => k) R := by
  refine .ask_bind rfl (traced_step (.emit i) rfl hemits trivial rfl) fun hs => ?_
  obtain ⟨hinv, hord, htemp⟩ := E.result h.inv (h.ord rfl) hs hresult hplain hi hemits
  exact ⟨hinv, (hk _ (fun _ => hord) htemp).from fun _ => hord⟩

/-- A temporary is taken, and what follows gives it a value. -/
theorem ensures_fresh (hk : ∀ s', E.Ord .inside s s' → E.Awaits s s' →
      E.EnsuresFrom .inside s s' (k s.assembly.temps) R) :
    E.Ensures .inside s (fresh >>= k) R := by
  refine EnsuresFrom.ask_bind rfl (traced_step .fresh rfl trivial trivial rfl) fun hs => ?_
  obtain ⟨hinv, hord⟩ := E.takeTemp hs
  exact ⟨hinv, hk _ (fun _ => hord) ⟨hs, E.refl _ _⟩⟩

theorem sound_effect (hresult : i.result? = none) (hplain : i.isPlain) (hi : E.Ok s i)
    (hemits : E.focus.Emits i) : E.Sound .inside s (emit i) := by
  refine ensures_ask fun hs _ s' hperform _ => ?_
  cases hperform
  obtain ⟨hinv, hord⟩ := E.effect hs hresult hplain hi hemits
  exact ⟨hinv, fun _ => hord, traced_step (.emit i) rfl hemits trivial rfl, trivial⟩

/-- A temporary that gets its value at once. -/
theorem ensures_define {f : Nat → IR.Instr} (hresult : ∀ r, (f r).result? = some r)
    (hplain : ∀ r, (f r).isPlain) (hf : ∀ r, E.Ok s (f r))
    (hk : ∀ r s', E.Ord .inside s s' → E.Ok s' (IR.Operand.temp r) → E.Ensures .inside s' (k r) R)
    (hemits : ∀ r, E.focus.Emits (f r) := by exact fun _ => trivial) :
    E.Ensures .inside s (fresh >>= fun r => emit (f r) >>= fun _ => k r) R := by
  refine ensures_fresh fun s₁ hord₁ hr => ?_
  exact fills_emit hr (hresult _) (hplain _) (mono hord₁ (hf _)) (hemits _) (hk _)

theorem sound_alloca (h : E.Ok s ir) : E.Sound .inside s (alloca ir) :=
  ensures_define (f := fun r => .alloca r ir) (fun _ => rfl) (fun _ => rfl)
    (fun _ => ⟨forall_mem_singleton.2 h, nofun⟩) fun _ _ _ hr => .pure hr

/-- What is loaded is no function, so it can be called. -/
theorem ensures_load (h : E.Ok s ir) (haddr : E.Ok s addr) :
    E.Ensures .inside s (load ir addr) fun s' operand =>
      E.Ok s' operand ∧ E.focus.Calls operand :=
  ensures_define (f := fun r => .load r ir addr) (fun _ => rfl) (fun _ => rfl)
    (fun _ => ⟨forall_mem_singleton.2 h, forall_mem_singleton.2 haddr⟩)
    fun _ _ _ hr => .pure ⟨hr, trivial⟩

theorem sound_load (h : E.Ok s ir) (haddr : E.Ok s addr) : E.Sound .inside s (load ir addr) :=
  (ensures_load h haddr).weaken fun _ _ h => h.1

theorem sound_store {operand : IR.Operand} (h : E.Ok s ir) (hoperand : E.Ok s operand)
    (haddr : E.Ok s addr) : E.Sound .inside s (store ir operand addr) :=
  sound_effect rfl rfl ⟨forall_mem_singleton.2 h, ok_pair hoperand haddr⟩ trivial

theorem sound_member {agg : IR.Ty} (h : E.Ok s agg) (haddr : E.Ok s addr) (index : Nat) :
    E.Sound .inside s (member agg addr index) :=
  ensures_define (f := fun r => .member r agg addr index) (fun _ => rfl) (fun _ => rfl)
    (fun _ => ⟨forall_mem_singleton.2 h, forall_mem_singleton.2 haddr⟩)
    fun _ _ _ hr => .pure hr

theorem sound_spill (h : E.Ok s v) : E.Sound .inside s (spill v) := by
  refine .bind (sound_alloca h.2.1) fun addr s₁ hord₁ haddr => ?_
  have hv := mono hord₁ h
  refine .bind (sound_store hv.2.1 hv.1 haddr) fun _ s₂ hord₂ _ => ?_
  exact .pure ⟨mono hord₂ haddr, h.2.2⟩

theorem sound_call {callee : IR.Operand} {args : List IR.Typed} (hret : E.Ok s ret)
    (hcallee : E.Ok s callee) (hcalls : E.focus.Calls callee) (hargs : E.Ok s args) :
    E.Sound .inside s (Gen.call ret callee args) := by
  rw [Gen.call]
  split
  · exact .bind (sound_effect rfl rfl (ok_call hret hcallee hargs) hcalls) fun _ _ _ _ =>
      .pure nofun
  · exact ensures_define (f := fun r => .call (some r) ret callee args) (fun _ => rfl)
      (fun _ => rfl) (fun _ => ok_call hret hcallee hargs) (fun _ _ _ hr =>
      .pure (ok_some hr)) fun _ => hcalls

theorem sound_allocate (size : UInt64) : E.Sound .inside s (allocate size) := by
  refine .bind (ensures_declare _ (ok_closed rfl)
    (forall_mem_singleton.2 (ok_closed rfl))) fun _ s₁ _ hdeclared => ?_
  exact ensures_define
    (f := fun r => .call (some r) .ptr (.global allocator) [⟨.i64, .int size.toNat⟩])
    (fun _ => rfl) (fun _ => rfl)
    (fun _ => ok_call (ok_closed rfl) trivial
      (forall_mem_singleton.2 ⟨ok_closed rfl, trivial⟩)) (fun _ _ _ hr => .pure hr)
    fun _ => hdeclared

/-- The end of the program with a message, and the code after it. -/
theorem ensures_stopWith {message : IR.Operand} {k : PUnit → Gen β} (h : E.Ok s message)
    (hk : ∀ s', E.Ensures .inside s' (emit .unreachable >>= k) R) :
    E.Ensures .inside s (stopWith message >>= k) R := by
  rw [stopWith, bind_assoc]
  refine .bind (ensures_declare _ (ok_closed rfl)
    (forall_mem_singleton.2 (ok_closed rfl))) fun _ s₁ hord₁ hdeclared => ?_
  rw [bind_assoc]
  exact .bind (sound_effect rfl rfl (ok_call (ok_closed rfl) trivial
    (forall_mem_singleton.2 ⟨ok_closed rfl, mono hord₁ h⟩)) hdeclared) fun _ s₂ _ _ => hk s₂

/-! ### Numeric conversions -/

theorem sound_convert (h : E.Ok s v) (target : Primitive) :
    E.Sound .inside s (convert v target) := by
  rw [convert]
  split
  · exact .pure h
  · split
    next op _ =>
      exact ensures_define (f := fun r => .cast r op v.typed target.ir) (fun _ => rfl)
        (fun _ => rfl)
        (fun _ => ⟨ok_pair h.2.1 (ok_primitive target), forall_mem_singleton.2 h.1⟩)
        fun _ _ _ hr => .pure ⟨hr, ok_primitive target, trivial⟩
    · exact .pure ⟨h.1, ok_primitive target, trivial⟩

theorem sound_convertTo (h : E.Ok s v) (target : Ty) (targetIR : IR.Ty) :
    E.Sound .inside s (convertTo v target targetIR) := by
  rw [convertTo]
  split
  · exact .pure h
  · split
    · exact sound_convert h _
    · exact .pure h

end Elements

namespace Representing

open Facts Elements Gen

variable {session : Session} {R : Representing session} {mode : Mode} {s s' : Build}
  {args : List Ty} {representArgs : Gen (List IR.Ty)} {t : Ty} {sig : Signature}

/-! ### Representation of types -/

/-- A type that is defined may be mentioned. -/
theorem ensures_defineType {body : IR.Ty} (hwrites : R.Writes name body) (h : R.Ok s body) :
    R.Ensures mode s (defineType name body) fun s' _ => R.Ok s' (IR.Ty.named name) :=
  ensures_perform ⟨hwrites, h⟩ fun _ _ _ _ htakes => forall_mem_singleton.2 (R.defined htakes)

theorem sound_dynType {behavior : String} (hbehavior : R.Name.behavior behavior)
    (hargs : ∀ t ∈ args, t.Over R.Name) : R.Sound mode s (dynType behavior args) :=
  .bind (ensures_defineType (.dyn hbehavior hargs) (ok_closed rfl)) fun _ _ _ h =>
    .pure h

theorem sound_boxedType {wrapper : Wrapper} {arg : Ty}
    (hwrapper : Wrapper.ofName? name = some wrapper) (hname : R.Name name) (harg : arg.Over R.Name)
    (h : ∀ s, R.Sound mode s representArgs) :
    R.Sound mode s (boxedType name [arg] representArgs) := by
  refine .bind (ensures_defineType (.boxed hwrapper hname harg) (ok_closed rfl))
    fun _ s₁ _ hname => ?_
  refine .program ?_
  split
  · exact .bind (ensures_discard (h s₁)) fun _ _ _ _ => .pure hname
  · exact .pure hname

theorem sound_nominalType (hname : R.Name name) (hargs : ∀ t ∈ args, t.Over R.Name)
    (h : ∀ s, R.Sound mode s representArgs) :
    R.Sound mode s (nominalType name args representArgs) := by
  unfold nominalType
  split
  next wrapper arg hwrapper =>
    split
    · exact sound_boxedType hwrapper hname (forall_mem_singleton.1 hargs) h
    · exact .pure (ok_closed rfl)
  · exact R.definedType hname hargs

mutual

/-- The representation of a type. -/
theorem sound_irType : (t : Ty) → t.Over R.Name → ∀ s, R.Sound mode s (irType t)
  | .prim kind, _, s => by
      rw [irType]
      exact .pure (ok_primitive kind)
  | .ref .., _, s | .ptr _, _, s | .func .., _, s | .closure .., _, s | .slice _, _, s => by
      rw [irType]
      exact .pure (ok_closed rfl)
  | .dyn behavior args, h, s => by
      rw [irType]
      exact sound_dynType h.1 (Ty.overList_iff.1 h.2)
  | .tuple elems, h, s => by
      rw [irType]
      split
      · exact .pure (ok_closed rfl)
      · exact .bind (sound_irTypes elems h s) fun _ _ _ hirs =>
          .pure (ok_anon hirs)
  | .array elem length, h, s => by
      rw [irType]
      exact .bind (sound_irType elem h s) fun _ _ _ hir => .pure hir
  | .classRef name, h, s => by
      rw [irType]
      exact sound_nominalType h (forall_mem_nil _) fun s => .pure nofun
  | .named _ name args, h, s => by
      rw [irType]
      split
      · exact .pure (ok_primitive _)
      · exact sound_nominalType h.1 (Ty.overList_iff.1 h.2) (sound_irTypes args h.2)

/-- The representations of several types. -/
theorem sound_irTypes : (ts : List Ty) → Ty.OverList R.Name ts → ∀ s, R.Sound mode s (irTypes ts)
  | [], _, s => by
      rw [irTypes]
      exact .pure nofun
  | t :: ts, h, s => by
      rw [irTypes]
      refine .bind (sound_irType t h.1 s) fun ir s₁ _ hir => ?_
      refine .bind (sound_irTypes ts h.2 s₁) fun irs s₂ _ hirs => ?_
      exact .pure (forall_mem_cons.2 ⟨hir, hirs⟩)

end

/-- The representation of a type, which does not depend on the state. -/
theorem ensures_irType (h : t.Over R.Name) :
    R.Ensures mode s (irType t) fun s' ir => R.Ok s' ir ∧ ir = session.program.ir t :=
  (sound_irType t h s).and_result fun hrun _ => ((gives_ir session t).of_runs hrun).1

/-- The representations of several types, which do not depend on the state. -/
theorem ensures_irTypes {ts : List Ty} (h : ∀ t ∈ ts, t.Over R.Name) :
    R.Ensures mode s (irTypes ts) fun s' irs => R.Ok s' irs ∧ irs = session.program.irs ts :=
  (sound_irTypes ts (Ty.overList_iff.2 h) s).and_result fun hrun _ =>
    ((gives_irs session ts).of_runs hrun).1

theorem sound_returnType (h : t.Over R.Name) : R.Sound mode s (returnType t) := by
  rw [returnType]
  split
  · exact .pure (ok_closed rfl)
  · exact sound_irType t h s

theorem sound_countedBlock {payload : Ty} (h : payload.Over R.Name) :
    R.Sound mode s (countedBlock payload) := by
  refine .bind (ensures_irType h) fun ir s₁ _ hir => ?_
  obtain ⟨hir, rfl⟩ := hir
  refine .bind (ensures_defineType (.counted h) (ok_anon ?_)) fun _ _ _ hname =>
    .pure hname
  exact forall_mem_cons.2 ⟨ok_closed rfl, ok_pair (ok_closed rfl) hir⟩

/-- What is declared may be referred to. -/
theorem ensures_declareCallee (symbol : String) (h : R.Ok s sig) (withReceiver : Bool) :
    R.Ensures mode s (declareCallee symbol sig withReceiver) fun _ _ =>
      R.focus.Refers symbol := by
  refine .bind (sound_returnType h.2) fun ret s₁ _ hret => ?_
  refine .bind (sound_irTypes _ (Ty.overList_iff.2 h.1) s₁) fun params s₂ _ hparams => ?_
  refine ensures_declare symbol hret ?_
  split
  · exact forall_mem_cons.2 ⟨ok_closed rfl, hparams⟩
  · exact hparams

/-- A function that is declared where a condition holds, and how to go on. -/
theorem ensures_declare_when {c : Prop} [Decidable c] {symbol : String} {withReceiver : Bool}
    {β : Type} {Q : Build → β → Prop} {k : Gen β} (h : R.Ok s sig)
    (helse : ¬c → R.focus.Refers symbol)
    (hk : ∀ s', R.Ord mode s s' → R.focus.Refers symbol → R.Ensures mode s' k Q) :
    R.Ensures mode s (if c then declareCallee symbol sig withReceiver >>= fun _ => k else k) Q := by
  split
  · exact .bind (ensures_declareCallee symbol h withReceiver) fun _ s' hord h => hk s' hord h
  next hc => exact hk s (R.refl _ _) (helse hc)

end Representing

namespace Discipline

open Facts Elements Representing Gen

variable {session : Session} {D : Discipline session} {mode : Mode} {s s' : Build} {l : Local}

theorem sound_instanceType {d : ClassDef} {args : List Ty}
    (hclass : session.program.NamesClass d.name) (hd : d.Over D.Name)
    (hargs : ∀ t ∈ args, t.Over D.Name) : D.Sound mode s (instanceType d args) := by
  refine .bind (D.classStruct hclass hd.name hargs) fun struct s₁ _ hstruct => ?_
  refine .pure ?_
  split
  · exact hstruct
  · exact ok_closed rfl

/-! ### Local names -/

theorem sound_bindLocal (hname : D.focus.Binds name) (h : D.Ok s l) :
    D.Sound .inside s (Gen.bindLocal name l) := by
  refine ensures_ask fun hs _ s' hperform _ => ?_
  cases hperform
  obtain ⟨hinv, hord⟩ := D.bindLocal name hs h
  exact ⟨hinv, fun _ => hord, traced_step (.bindLocal name l) rfl hname h rfl, trivial⟩

/-- The local names are good. -/
theorem ok_find? {scope : Scope} (h : D.Ok s scope) (hfind : scope.find? name = some l) :
    D.Ok s l := by
  obtain ⟨pre, post, hentries, -⟩ := lookup_eq_some_iff.1 hfind
  exact (h (name, l) (by rw [hentries]; simp)).2

theorem sound_storeConv (conv : CallConv) : D.Sound .inside s (storeConv name conv) := by
  refine ensures_ask fun hs _ s' hperform _ => ?_
  cases hperform
  have htraced : D.Traced .inside s [⟨.storeConv name conv, ()⟩] _ :=
    traced_step (.storeConv name conv) rfl trivial trivial rfl
  rw [Scope.storeConv] at htraced ⊢
  split at htraced
  · exact ⟨hs, D.refl _ _, htraced, trivial⟩
  next l hfind =>
    have hl : D.Ok s l := ok_find? (D.scope hs) hfind
    obtain ⟨hinv, hord⟩ := D.bindLocal (l := { l with conv := l.conv.join conv }) name hs hl
    exact ⟨hinv, fun _ => hord, htraced, trivial⟩

theorem sound_scope : D.Sound .inside s (perform .scope) :=
  ensures_perform trivial fun answer s' hperform hs' _ => by
    cases hperform
    exact D.scope hs'

theorem sound_findLocal? : D.Sound .inside s (findLocal? name) :=
  .bind sound_scope fun _ _ _ hscope => .pure fun _ hl => ok_find? hscope hl

end Discipline

end Monomorph
