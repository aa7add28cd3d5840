import Monomorph.Lowering.Expr
import Monomorph.Proofs.Lowering.Represent

/-!
# The order of arguments

Each argument of a call is lowered once. Where the arguments bind type parameters, those whose type
does not show may be lowered first, to find the parameters, and the others follow when the
parameter types are known; each of the two groups keeps the order of the source. Without type
parameters to bind, or with a type on every argument, the order is that of the source.

All statements are about an arbitrary lowering of expressions, so they do not depend on what the
code of an argument looks like.

## Main results

* `Lowering.arranges_of_invokes`, `Lowering.overtakes`.
-/

namespace Monomorph

open List Script

variable {args : List Expr} {f : FunctionDef} {path : Path} {generic : Bool} {span : Span}
  {expected : Option Ty}

/-- The steps of a call besides those of its arguments. -/
def Step.Serves : Step → Prop
  | program | symbolStart | scope | fresh | emit _ | defineType .. | declare .. | reportDefaulted ..
  | require _ | defer _ | extent _ => True
  | _ => False

theorem Step.Represents.serves {step : Step} (h : step.Represents) : step.Serves := by
  cases h <;> trivial

/-- A run that lowers the expressions of a list, one after the other, with the other steps of a
call before, between and after them. -/
inductive Visits (session : Session) (l : Lowering) :
    Build → List Expr → List (Event Step.Answer) → Build → Prop
  | nil (s : Build) : Visits session l s [] [] s
  | own {step answer s s' last es events} (hserves : step.Serves)
      (hstep : step.perform session s = .ok (answer, s'))
      (hrest : Visits session l s' es events last) :
      Visits session l s es (⟨step, answer⟩ :: events) last
  | arg {e t v s s' last es first events}
      (hfirst : session.Runs (l.expr e t) s first v s')
      (hrest : Visits session l s' es events last) :
      Visits session l s (e :: es) (first ++ events) last

namespace Visits

variable {session : Session} {l : Lowering} {s mid last : Build} {es es' : List Expr}
  {events events' : Gen.Trace}

theorem append (h : Visits session l s es events mid) (h' : Visits session l mid es' events' last) :
    Visits session l s (es ++ es') (events ++ events') last := by
  induction h with
  | nil s => exact h'
  | own hserves hstep _ ih => exact .own hserves hstep (ih h')
  | arg hfirst _ ih =>
    rw [append_assoc]
    exact .arg hfirst (ih h')

theorem of_only {α : Type} {m : Gen α} {a : α} (h : session.Runs m s events a last)
    (hm : m.Only Step.Serves) : Visits session l s [] events last := by
  induction h with
  | done a s => exact .nil s
  | ask hstep _ ih => exact .own hm.1 hstep (ih (hm.2 _))

end Visits

/-! ### Two groups of arguments -/

/-- The expressions that have a value already. -/
def earlyArgs : List Expr → List (Option Value) → List Expr
  | [], _ => []
  | e :: es, values =>
      match values.head? with
      | some (some _) => e :: earlyArgs es values.tail
      | _ => earlyArgs es values.tail

/-- The expressions that have no value yet. -/
def lateArgs : List Expr → List (Option Value) → List Expr
  | [], _ => []
  | e :: es, values =>
      match values.head? with
      | some (some _) => lateArgs es values.tail
      | _ => e :: lateArgs es values.tail

/-- A list is split into two, each in the order of the whole. -/
inductive Splits {α : Type} : List α → List α → List α → Prop
  | nil : Splits [] [] []
  | left (a : α) {l first second} (h : Splits l first second) :
      Splits (a :: l) (a :: first) second
  | right (a : α) {l first second} (h : Splits l first second) :
      Splits (a :: l) first (a :: second)

theorem Splits.eq_of_nil {α : Type} {l second : List α} (h : Splits l [] second) : second = l := by
  generalize hfirst : ([] : List α) = first at h
  induction h with
  | nil => rfl
  | left a => cases hfirst
  | right a _ ih => rw [ih hfirst]

theorem splits_args (args : List Expr) (values : List (Option Value)) :
    Splits args (earlyArgs args values) (lateArgs args values) := by
  induction args generalizing values with
  | nil => exact .nil
  | cons e args ih =>
    rw [earlyArgs, lateArgs]
    split
    · exact .left e (ih _)
    · exact .right e (ih _)

theorem earlyArgs_nil (args : List Expr) : earlyArgs args [] = [] := by
  induction args with
  | nil => rfl
  | cons e args ih => exact ih

/-- The order in which the arguments of a call are lowered: first, where the call binds type
parameters, some arguments without a type, then the others. -/
def Lowering.Arranges (generic : Bool) (args es : List Expr) : Prop :=
  ∃ early late, Splits args early late ∧ (∀ e ∈ early, e.ty = none) ∧
    (generic = false → early = []) ∧ es = early ++ late

/-- Without type parameters, or with a type on every argument, the order is that of the source. -/
theorem Lowering.Arranges.eq_args {es : List Expr} (h : Lowering.Arranges generic args es)
    (hshown : generic = false ∨ ∀ e ∈ args, e.ty.isSome) : es = args := by
  obtain ⟨early, late, hsplits, hearly, hgeneric, rfl⟩ := h
  have hnil : early = [] := by
    rcases hshown with hfalse | htypes
    · exact hgeneric hfalse
    · rw [eq_nil_iff_forall_not_mem]
      intro e he
      have hmem : e ∈ args := by
        clear hearly hgeneric htypes
        induction hsplits with
        | nil => exact he
        | left a _ ih =>
          rcases mem_cons.1 he with rfl | he
          · exact mem_cons_self
          · exact mem_cons_of_mem _ (ih he)
        | right a _ ih => exact mem_cons_of_mem _ (ih he)
      have hsome := htypes e hmem
      rw [hearly e he] at hsome
      cases hsome
  subst hnil
  exact hsplits.eq_of_nil

/-- The arguments that are lowered to bind type parameters: those whose values are kept, none of
which has a type. -/
structure Lowering.Infers (generic : Bool) (args early : List Expr) (values : List (Option Value)) :
    Prop where
  eq : early = earlyArgs args values
  untyped : ∀ e ∈ early, e.ty = none
  generic : generic = false → early = []

theorem Lowering.infers_nil (generic : Bool) (args : List Expr) : Infers generic args [] [] :=
  ⟨(earlyArgs_nil args).symm, forall_mem_nil _, fun _ => rfl⟩

theorem Lowering.Infers.arranges {early : List Expr} {values : List (Option Value)}
    (h : Infers generic args early values) :
    Lowering.Arranges generic args (early ++ lateArgs args values) :=
  ⟨early, _, h.eq ▸ splits_args args values, h.untyped, h.generic, rfl⟩

/-! ### Scripts that lower arguments -/

namespace Lowering

variable {session : Session} {l : Lowering} {α β : Type} {sig : Signature} {m : StaticMethod}
  {v : VariantDef}

/-- Every run of a script lowers some expressions, which are tied to its result. -/
def Lowers (session : Session) (l : Lowering) (m : Gen α) (Q : α → List Expr → Prop) : Prop :=
  ∀ s events a s', session.Runs m s events a s' →
    ∃ es, Visits session l s es events s' ∧ Q a es

section Rules

variable {m : Gen α} {f : α → Gen β} {Q : α → List Expr → Prop} {R : β → List Expr → Prop}

theorem Lowers.mono {Q' : α → List Expr → Prop} (h : Lowers session l m Q)
    (hQ : ∀ a es, Q a es → Q' a es) : Lowers session l m Q' := by
  intro s events a s' hrun
  obtain ⟨es, hvisits, hes⟩ := h s events a s' hrun
  exact ⟨es, hvisits, hQ a es hes⟩

protected theorem Lowers.pure {a : α} (h : Q a []) : Lowers session l (pure a) Q := by
  intro s events a' s' hrun
  obtain ⟨rfl, rfl, rfl⟩ := hrun.of_pure
  exact ⟨[], .nil _, h⟩

theorem Lowers.bind (hm : Lowers session l m Q)
    (hf : ∀ a es, Q a es → Lowers session l (f a) fun b es' => R b (es ++ es')) :
    Lowers session l (m >>= f) R := by
  intro s events b s' hrun
  obtain ⟨first, a, mid, rest, hfirst, hrest, rfl⟩ := hrun.of_bind
  obtain ⟨es, hvisits, hQ⟩ := hm _ _ _ _ hfirst
  obtain ⟨es', hvisits', hR⟩ := hf a es hQ _ _ _ _ hrest
  exact ⟨es ++ es', hvisits.append hvisits', hR⟩

theorem Lowers.of_only (hm : m.Only Step.Serves) : Lowers session l m fun _ es => es = [] :=
  fun _ _ _ _ hrun => ⟨[], .of_only hrun hm, rfl⟩

/-- The steps of the call itself change nothing about the arguments that are lowered. -/
theorem Lowers.own (hm : m.Only Step.Serves)
    (hf : ∀ a, Lowers session l (f a) R) : Lowers session l (m >>= f) R :=
  (Lowers.of_only hm).bind fun a es hes => by
    subst hes
    exact hf a

theorem Lowers.program {f : Program → Gen β} (hf : Lowers session l (f session.program) R) :
    Lowers session l (Gen.program >>= f) R := by
  intro s events b s' hrun
  obtain ⟨rest, hrest, rfl⟩ := hrun.of_ask_bind rfl
  obtain ⟨es, hvisits, hR⟩ := hf _ _ _ _ hrest
  exact ⟨es, .own trivial rfl hvisits, hR⟩

theorem lowers_expr (e : Expr) (t : Option Ty) :
    Lowers session l (l.expr e t) fun _ es => es = [e] := by
  intro s events v s' hrun
  refine ⟨[e], ?_, rfl⟩
  have h := Visits.arg hrun (.nil s')
  rwa [append_nil] at h

/-- A step of the call itself that is made under a condition. -/
theorem Lowers.optional {c : Prop} [Decidable c] {first : Gen PUnit}
    (hfirst : first.Only Step.Serves) (h : Lowers session l m Q) :
    Lowers session l (if c then first >>= fun _ => m else m) Q := by
  split
  · exact .own hfirst fun _ => h
  · exact h

/-- A script that only passes on a result lowers the same arguments. -/
theorem Lowers.bind_pure {g : α → β} (hm : Lowers session l m fun a es => R (g a) es) :
    Lowers session l (m >>= fun a => pure (g a)) R :=
  hm.bind fun a es h => .pure (by rwa [append_nil])

end Rules

/-! ### Steps of a call -/

section Own

theorem serves_irType (t : Ty) : (Gen.irType t).Only Step.Serves :=
  (Gen.only_irType t).mono fun _ => Step.Represents.serves

theorem serves_returnType (t : Ty) : (Gen.returnType t).Only Step.Serves :=
  (Gen.only_returnType t).mono fun _ => Step.Represents.serves

/-- A temporary and the instruction that defines it. -/
theorem serves_assign (i : Nat → IR.Instr) (g : Nat → α) :
    (Gen.fresh >>= fun r => Gen.emit (i r) >>= fun _ => (pure (g r) : Gen α)).Only Step.Serves :=
  .step trivial fun _ => .step trivial fun _ => trivial

theorem serves_convertTo (v : Value) (t : Ty) (ir : IR.Ty) :
    (Gen.convertTo v t ir).Only Step.Serves := by
  unfold Gen.convertTo Gen.convert
  split
  · exact trivial
  · split
    · split
      · exact trivial
      · split
        · exact serves_assign _ _
        · exact trivial
    · exact trivial

theorem serves_call (ret : IR.Ty) (callee : IR.Operand) (args : List IR.Typed) :
    (Gen.call ret callee args).Only Step.Serves := by
  unfold Gen.call
  split
  · exact .step trivial fun _ => trivial
  · exact serves_assign _ _

theorem serves_request (item : WorkItem) (isOpen : Bool) :
    (Gen.request item isOpen).Only Step.Serves :=
  Gen.only_request (E := Step.Serves) trivial trivial isOpen

theorem serves_functionSymbol (name : String) : (Gen.functionSymbol name).Only Step.Serves :=
  .step trivial fun _ => trivial

theorem serves_declareCallee (symbol : String) (sig : Signature) (withReceiver : Bool) :
    (Gen.declareCallee symbol sig withReceiver).Only Step.Serves := by
  have hparams := (Gen.only_irTypes sig.params).mono fun _ => Step.Represents.serves
  exact (serves_returnType _).bind fun _ => hparams.bind fun _ => Gen.only_perform trivial

theorem serves_plainSymbol (f : FunctionDef) : (plainSymbol f).Only Step.Serves := by
  unfold plainSymbol
  dsimp only
  split
  · exact (serves_declareCallee _ _ _).bind fun _ => trivial
  · refine (serves_functionSymbol _).bind fun _ => .step trivial fun p => ?_
    split
    · exact (serves_declareCallee _ _ _).bind fun _ => trivial
    · exact trivial

theorem serves_methodSymbol (owner : String) (ownerArgs : List Ty) (method : String)
    (methodArgs : List Ty) (generic : Bool) :
    (methodSymbol owner ownerArgs method methodArgs generic).Only Step.Serves := by
  unfold methodSymbol
  split
  · exact .step trivial fun p =>
      (serves_request _ _).bind fun _ => serves_functionSymbol _
  · exact serves_functionSymbol _

theorem serves_fillRecord (record : IR.Ty) (whole : IR.Operand) (index : Nat)
    (parts : List IR.Typed) : (Gen.fillRecord record whole index parts).Only Step.Serves := by
  induction parts generalizing whole index with
  | nil => exact trivial
  | cons part parts ih =>
    exact .step trivial fun _ => .step trivial fun _ => ih _ _

theorem serves_storePayload (payload : List IR.Typed) (addr : IR.Operand) :
    (Gen.storePayload payload addr).Only Step.Serves := by
  unfold Gen.storePayload
  split
  · exact Gen.only_perform trivial
  · exact (serves_fillRecord _ _ _ _).bind fun _ => Gen.only_perform trivial

end Own

/-! ### Arguments -/

theorem ty_eq_none_of_evidentType? {p : Program} {b : Bindings} {scope : Scope} {e : Expr}
    (h : evidentType? p b scope e = none) : e.ty = none := by
  have hmap : ∀ {note : Note} {t : Option Ty},
      (note.ty.map (Ty.subst b)).or t = none → note.ty = none := fun hnone =>
    Option.map_eq_none_iff.1 (Option.or_eq_none_iff.1 hnone).1
  cases e with
  | lit | ident | functionRef | record => exact hmap h
  | block note body =>
    obtain ⟨stmts, tail⟩ := body
    cases tail with
    | some tail => exact hmap h
    | none => exact Option.map_eq_none_iff.1 h
  | path | call | methodCall | field | closure => exact Option.map_eq_none_iff.1 h

theorem lowers_evidentType (e : Expr) :
    Lowers session l (l.evidentType e) fun t es => es = [] ∧ (t = none → e.ty = none) :=
  .own (Gen.only_perform trivial) fun _ =>
    .own (Gen.only_perform trivial) fun _ =>
      .pure ⟨rfl, ty_eq_none_of_evidentType?⟩

/-- Binding parameters lowers the arguments whose values it keeps, none of which has a type. -/
theorem lowers_inferArgs (binder : Binder) (params : List Ty) (args : List Expr) :
    Lowers session l (l.inferArgs binder params args)
      fun r es => es = earlyArgs args r.2 ∧ ∀ e ∈ es, e.ty = none := by
  induction params generalizing binder args with
  | nil => exact .pure ⟨(earlyArgs_nil args).symm, forall_mem_nil _⟩
  | cons param params ih =>
    cases args with
    | nil => exact .pure ⟨rfl, forall_mem_nil _⟩
    | cons arg args =>
      -- Once the first argument is dealt with, the others follow.
      have hrest : ∀ (binder : Binder) (value : Option Value) (first : List Expr),
          first = (value.map fun _ => arg).toList →
          (∀ e ∈ first, e.ty = none) →
          Lowers session l (do
            let rest ← l.inferArgs binder params args
            return (rest.1, value :: rest.2)) fun r es =>
              first ++ es = earlyArgs (arg :: args) r.2 ∧ ∀ e ∈ first ++ es, e.ty = none := by
        intro binder value first hfirst hnone
        refine (ih binder args).bind fun found es hes => .pure ?_
        rw [append_nil]
        refine ⟨?_, forall_mem_append.2 ⟨hnone, hes.2⟩⟩
        cases value <;> rw [hfirst, hes.1] <;> rfl
      rw [inferArgs]
      refine (lowers_evidentType arg).bind fun t es hes => ?_
      obtain ⟨rfl, hty⟩ := hes
      cases t with
      | some t => exact hrest _ none [] rfl (forall_mem_nil _)
      | none =>
        dsimp only
        split
        · exact hrest _ none [] rfl (forall_mem_nil _)
        · refine (lowers_expr arg none).bind fun value es hes => ?_
          exact hrest _ (some value) es hes (by simpa [hes] using hty rfl)

/-- A call lowers the arguments that have no value yet. -/
theorem lowers_arguments {params : List Ty} (hlength : args.length = params.length)
    (early : List (Option Value)) :
    Lowers session l (l.arguments params args early) fun _ es => es = lateArgs args early := by
  induction params generalizing args early with
  | nil =>
    obtain rfl := length_eq_zero_iff.1 hlength
    exact .pure rfl
  | cons param params ih =>
    cases args with
    | nil => cases hlength
    | cons arg args =>
      have hrest : ∀ (value : Value) (first : List Expr),
          first ++ lateArgs args early.tail = lateArgs (arg :: args) early →
          Lowers session l (do
            let ir ← Gen.irType param
            let value ← Gen.convertTo value param ir
            let rest ← l.arguments params args early.tail
            return IR.Typed.mk ir value.operand :: rest) fun _ es =>
              first ++ es = lateArgs (arg :: args) early := by
        intro value first hfirst
        refine .own (serves_irType param) fun ir => ?_
        refine .own (serves_convertTo value param ir) fun value => ?_
        refine (ih (Nat.succ.inj hlength) early.tail).bind fun rest es hes => .pure ?_
        rw [append_nil, hes, hfirst]
      rw [arguments]
      split
      next value hvalue => exact hrest value [] (by rw [lateArgs, hvalue]; rfl)
      next hvalue =>
        refine (lowers_expr arg (some param)).bind fun value es hes => hrest value es ?_
        rw [hes, lateArgs]
        split
        · exact absurd ‹_› (hvalue _)
        · rfl

theorem lowers_directCall (callee : IR.Operand) (hlength : args.length = sig.params.length)
    (early : List (Option Value)) (receiver : Option IR.Operand) :
    Lowers session l (l.directCall callee sig args early receiver span)
      fun _ es => es = lateArgs args early := by
  refine .own (serves_returnType sig.ret) fun ret => ?_
  rw [checkArity, if_pos hlength]
  refine (lowers_arguments hlength early).bind fun lowered es hes => ?_
  refine .own (serves_call _ _ _) fun result => .pure ?_
  rw [append_nil, hes]

theorem lowers_bindItem (generics : List String) (explicit params : List Ty) (args : List Expr)
    (patterns : List Ty) (fallback : Ty) :
    Lowers session l (l.bindItem generics explicit params args patterns expected fallback)
      fun r es => Infers true args es r.2 :=
  ((lowers_inferArgs _ params args).mono fun _ _ hes => ⟨hes.1, hes.2, nofun⟩).bind_pure

/-- A call with the values of the arguments that were lowered before it. -/
theorem Infers.lowers_directCall {early : List Expr} {values : List (Option Value)}
    (h : Infers generic args early values) (callee : IR.Operand)
    (hlength : args.length = sig.params.length) (receiver : Option IR.Operand) :
    Lowers session l (some <$> l.directCall callee sig args values receiver span)
      fun r es => r.isSome ∧ Arranges generic args (early ++ es) :=
  Lowers.bind_pure ((Lowering.lowers_directCall _ hlength _ _).mono
    fun _ _ hes => ⟨rfl, hes ▸ h.arranges⟩)

/-! ### Functions, static methods and variants -/

theorem lowers_callGeneric
    (hf : (session.program.function? path.joined).filter FunctionDef.isGeneric = some f)
    (hlength : args.length = f.params.length) :
    Lowers session l (l.callGeneric path args span expected)
      fun r es => r.isSome ∧ Arranges true args es := by
  refine .program ?_
  rw [hf]
  refine (lowers_bindItem _ _ _ _ _ _).bind fun found early hearly => ?_
  refine .own (Gen.only_perform trivial) fun _ => ?_
  refine .own (serves_request _ _) fun _ => ?_
  refine .own (serves_functionSymbol _) fun symbol => ?_
  exact hearly.lowers_directCall _ (hlength.trans (length_map _).symm) _

theorem lowers_callGenericStatic (hm : (session.program.staticOrNew? path).filter
      (fun m => !m.generics.isEmpty || m.definition.isGeneric) = some m)
    (hlength : args.length = m.definition.params.length) :
    Lowers session l (l.callGenericStatic path args span expected)
      fun r es => r.isSome ∧ Arranges true args es := by
  refine .program ?_
  rw [hm]
  refine (lowers_bindItem _ _ _ _ _ _).bind fun found early hearly => ?_
  refine .own (Gen.only_perform trivial) fun _ => ?_
  refine .own (serves_request _ _) fun _ => ?_
  refine .own (serves_functionSymbol _) fun symbol => ?_
  refine hearly.lowers_directCall _ (hlength.trans ?_) _
  split <;> exact (length_map _).symm

theorem lowers_callDefined_function (hf : session.program.function? path.joined = some f)
    (hplain : (f.isGeneric || f.isClosureBody) = false) (hlength : args.length = f.params.length) :
    Lowers session l (l.callDefined path args span)
      fun r es => r.isSome ∧ Arranges false args es := by
  refine .program ?_
  rw [hf]
  dsimp only
  rw [callPlain, hplain]
  refine .own (serves_plainSymbol f) fun symbol => ?_
  exact (infers_nil false args).lowers_directCall _ (hlength.trans (length_map _).symm) _

theorem lowers_callDefined_static (hf : session.program.function? path.joined = none)
    (hm : session.program.staticMethod? path = some m)
    (hlength : args.length = m.definition.params.length) :
    Lowers session l (l.callDefined path args span)
      fun r es => r.isSome ∧ Arranges false args es := by
  refine .program ?_
  rw [hf]
  refine .program ?_
  rw [hm]
  refine .own (serves_functionSymbol _) fun symbol => ?_
  refine .optional (serves_declareCallee _ _ _) ?_
  exact (infers_nil false args).lowers_directCall _ (hlength.trans (length_map _).symm) none

theorem lowers_variantArgs (d : EnumDef) (v : VariantDef) (args : List Expr) :
    Lowers session l (l.variantArgs d v path args span expected)
      fun r es => Infers (!d.generics.isEmpty) args es r.2 := by
  rw [variantArgs]
  split
  · exact .pure (infers_nil _ args)
  next hgeneric =>
    rw [eq_false_of_ne_true hgeneric]
    refine (lowers_bindItem _ _ _ _ _ _).bind fun found early hearly => ?_
    refine .own (Gen.only_perform trivial) fun _ => .pure ?_
    rwa [append_nil]

theorem lowers_makeVariant (d : EnumDef) (tag : Nat) (hlength : args.length = v.payload.length) :
    Lowers session l (l.makeVariant d tag v path args span expected)
      fun _ es => Arranges (!d.generics.isEmpty) args es := by
  refine (lowers_variantArgs d v args).bind fun found early hearly => ?_
  refine .own (serves_irType _) fun ir => ?_
  rw [if_neg (fun hne => hne hlength)]
  have hpayload : args.length = (Ty.substList (.ofArgs d.generics found.1) v.payload).length := by
    rw [hlength, Ty.length_substList]
  refine (lowers_arguments hpayload found.2).bind fun payload es hes => ?_
  have harranges := hes ▸ hearly.arranges
  -- What is left stores the tag and the payload.
  refine (Lowers.of_only ?_).mono fun _ rest hrest => by rwa [hrest, append_nil]
  refine .step trivial fun p => ?_
  split
  · exact trivial
  · refine (serves_assign _ _).bind fun slot => (serves_assign _ _).bind fun tagAddr => ?_
    refine .step trivial fun _ => ?_
    have hload : (do return { operand := ← Gen.load ir slot, ir, ty := .ofName d.name found.1 } :
        Gen Value).Only Step.Serves := (serves_assign _ _).bind fun _ => trivial
    have hstore : ∀ isStored : Bool, (do
        if isStored then
          let payloadAddr ← Gen.member ir slot 1
          Gen.storePayload payload payloadAddr
        return { operand := ← Gen.load ir slot, ir, ty := .ofName d.name found.1 } :
          Gen Value).Only Step.Serves := by
      intro isStored
      split
      · exact (serves_assign _ _).bind fun _ => (serves_storePayload _ _).bind fun _ => hload
      · exact hload
    split
    · exact .bind (.step trivial fun _ => trivial) fun _ => hstore _
    · exact hstore false

theorem lowers_variant {d : EnumDef} {tag : Nat}
    (hd : session.program.variant? path = some (d, tag)) (hv : d.variants[tag]? = some v)
    (hlength : args.length = v.payload.length) :
    Lowers session l (l.variant path args span expected)
      fun r es => r.isSome ∧ Arranges (!d.generics.isEmpty) args es := by
  refine .program ?_
  rw [hd]
  dsimp only
  rw [hv]
  exact ((lowers_makeVariant d tag hlength).mono fun _ es hes => ⟨rfl, hes⟩).bind_pure

end Lowering

/-! ### What a call means -/

/-- Whether a built-in kind provides a function that takes a number of arguments. -/
def Primitive.provides (kind : Primitive) (name : String) (count : Nat) : Bool :=
  match name, count with
  | "default", 0 | "zero", 0 | "from", 1 => true
  | "one", 0 => kind.one?.isSome
  | "min_value", 0 | "max_value", 0 => kind.bounds?.isSome
  | _, _ => false

/-- Whether a path names a function of a built-in kind. -/
def Path.isKindFunction (path : Path) (count : Nat) : Bool :=
  match path.qualifier?.bind Primitive.ofName?, path.last? with
  | some kind, some name => kind.provides name count
  | _, _ => false

namespace Program

/-- The enum and the variant that a path names. -/
def variantOf? (p : Program) (path : Path) : Option (EnumDef × VariantDef) := do
  let (d, tag) ← p.variant? path
  return (d, ← d.variants[tag]?)

/-- The function, static method or variant that a call of a path with a number of arguments means:
how many parameters it has, and whether the call binds type parameters. Functions of built-in
kinds, intrinsics and constructors are tried in between, and then nothing is given. -/
def callee? (p : Program) (path : Path) (count : Nat) : Option (Nat × Bool) :=
  if path.isKindFunction count then none
  else
    match p.variantOf? path with
    | some (d, v) => some (v.payload.length, !d.generics.isEmpty)
    | none =>
      if (Intrinsic.ofPath? path).isSome then none
      else
        match (p.function? path.joined).filter FunctionDef.isGeneric with
        | some f => some (f.params.length, true)
        | none =>
          if (p.constructed? path).isSome then none
          else
            match (p.staticOrNew? path).filter
                fun m => !m.generics.isEmpty || m.definition.isGeneric with
            | some m => some (m.definition.params.length, true)
            | none =>
              match p.function? path.joined with
              | some f => if f.isClosureBody then none else some (f.params.length, false)
              | none => (p.staticMethod? path).map fun m => (m.definition.params.length, false)

/-- The method of a nominal type: one of its class chain, or else of an implementation. -/
def nominalMethod? (p : Program) (name method : String) : Option FunctionDef :=
  match (p.class? name).bind fun d => ClassDef.methodAmong? method (p.classChain d.name) with
  | some (_, _, f) => some f
  | none => ((p.implMethod? name method).map fun found => found.2.2).filter FunctionDef.hasSelf

/-- The method that a call on a receiver of some type means: how many parameters it has, and
whether the call binds type parameters. -/
def methodOf? (p : Program) (t : Ty) (method : String) : Option (Nat × Bool) :=
  match t with
  | .dyn behavior _ =>
      (p.behaviorMethod? behavior method).map fun found => (found.2.2.params.length, false)
  | t =>
      (t.nominal?.bind fun named => p.nominalMethod? named.1 method).map fun f =>
        (f.params.length, f.isGeneric)

end Program

namespace Lowering

variable {session : Session} {l : Lowering}

/-! ### Calls of paths -/

section Stages

variable {stage : Gen (Option Value)} {stages : List (Gen (Option Value))} {Q : List Expr → Prop}
  {count : Nat}

/-- A kind of callee that does not know the path lowers nothing. -/
def Declines (session : Session) (l : Lowering) (stage : Gen (Option Value)) : Prop :=
  Lowers session l stage fun r es => r = none ∧ es = []

theorem Declines.firstOf {Q : Option Value → List Expr → Prop} (h : Declines session l stage)
    (hstages : Lowers session l (firstOf stages) Q) :
    Lowers session l (firstOf (stage :: stages)) Q :=
  h.bind fun r es hr => by
    obtain ⟨rfl, rfl⟩ := hr
    exact hstages

/-- When one way to go on has a result, the others are not tried. -/
theorem Lowers.answered {β : Type} {g : Value → β} {other : Gen β}
    (h : Lowers session l stage fun r es => r.isSome ∧ Q es) :
    Lowers session l (stage >>= fun r =>
      match r with
      | some v => pure (g v)
      | none => other) fun b es => (∃ v, b = g v) ∧ Q es :=
  h.bind fun r es hr => by
    obtain ⟨v, rfl⟩ := Option.isSome_iff_exists.1 hr.1
    refine .pure ⟨⟨v, rfl⟩, ?_⟩
    rw [append_nil]
    exact hr.2

theorem lowers_firstOf (h : Lowers session l stage fun r es => r.isSome ∧ Q es) :
    Lowers session l (firstOf (stage :: stages)) fun r es => r.isSome ∧ Q es :=
  h.answered.mono fun _ _ hr => ⟨Option.isSome_iff_exists.2 hr.1, hr.2⟩

theorem declines_kindFunction (h : path.isKindFunction args.length = false) :
    Declines session l (l.kindFunction path args) := by
  unfold kindFunction
  unfold Path.isKindFunction at h
  split
  next kind name hkind hname =>
    rw [hkind, hname] at h
    dsimp only
    split
    · cases h
    · cases h
    iterate 3
      exact .pure ⟨by rw [Option.not_isSome_iff_eq_none.1 (ne_true_of_eq_false h)]; rfl, rfl⟩
    · cases h
    · exact .pure ⟨rfl, rfl⟩
  · exact .pure ⟨rfl, rfl⟩

theorem declines_variant (h : session.program.variantOf? path = none) (args : List Expr) :
    Declines session l (l.variant path args span expected) := by
  refine .program ?_
  cases hd : session.program.variant? path with
  | none => exact .pure ⟨rfl, rfl⟩
  | some found =>
    obtain ⟨d, tag⟩ := found
    have hv : d.variants[tag]? = none := by
      refine Option.eq_none_iff_forall_ne_some.2 fun v hv => ?_
      simp [Program.variantOf?, hd, hv] at h
    dsimp only
    rw [hv]
    exact .pure ⟨rfl, rfl⟩

theorem declines_intrinsic (h : Intrinsic.ofPath? path = none) (args : List Expr) (note : Note) :
    Declines session l (l.intrinsic path args note) := by
  rw [intrinsic, h]
  exact .pure ⟨rfl, rfl⟩

/-- Where the program has nothing under the path, the stage has no result. -/
theorem declines_program {g : Program → Gen (Option Value)} (h : g session.program = pure none) :
    Declines session l (Gen.program >>= g) :=
  .program (h ▸ .pure ⟨rfl, rfl⟩)

/-- The kinds of callee that are tried before the right one lower nothing. -/
theorem lowers_callStages (h : session.program.callee? path args.length = some (count, generic))
    (hcount : args.length = count) (note : Note) :
    Lowers session l (firstOf (l.callStages path args note expected))
      fun r es => r.isSome ∧ Arranges generic args es := by
  rw [Program.callee?] at h
  split at h
  · cases h
  rename_i hkind
  refine (declines_kindFunction (eq_false_of_ne_true hkind)).firstOf ?_
  split at h
  next d v hfound =>
    obtain ⟨⟨_, tag⟩, hd, hfound⟩ := Option.bind_eq_some_iff.1 hfound
    obtain ⟨_, hv, hfound⟩ := Option.bind_eq_some_iff.1 hfound
    cases hfound
    cases h
    exact lowers_firstOf (lowers_variant hd hv hcount)
  rename_i hvariant
  refine (declines_variant hvariant _).firstOf ?_
  split at h
  · cases h
  rename_i hintrinsic
  refine (declines_intrinsic (Option.not_isSome_iff_eq_none.1 hintrinsic) _ _).firstOf ?_
  split at h
  next f hf =>
    cases h
    exact lowers_firstOf (lowers_callGeneric hf hcount)
  rename_i hgeneric
  refine (declines_program (by simp only [hgeneric])).firstOf ?_
  split at h
  · cases h
  rename_i hconstructed
  refine (declines_program (by simp only [Option.not_isSome_iff_eq_none.1 hconstructed])).firstOf ?_
  split at h
  next m hm =>
    cases h
    exact lowers_firstOf (lowers_callGenericStatic hm hcount)
  rename_i hstatic
  refine (declines_program (by simp only [hstatic])).firstOf (lowers_firstOf ?_)
  split at h
  next f hf =>
    split at h
    · cases h
    · rename_i hclosure
      have hplain : (f.isGeneric || f.isClosureBody) = false := by
        rw [hf, Option.filter_eq_none_iff] at hgeneric
        rw [eq_false_of_ne_true (hgeneric f rfl), eq_false_of_ne_true hclosure]
        rfl
      cases h
      exact lowers_callDefined_function hf hplain hcount
  next hf =>
    obtain ⟨m, hm, hmap⟩ := Option.map_eq_some_iff.1 h
    cases hmap
    exact lowers_callDefined_static hf hm hcount

theorem lowers_callPath (h : session.program.callee? path args.length = some (count, generic))
    (hcount : args.length = count) (note : Note) :
    Lowers session l (l.callPath path args note expected) fun _ es => Arranges generic args es :=
  (lowers_callStages h hcount note).answered.mono fun _ _ hr => hr.2

end Stages

/-! ### Calls of methods -/

section Methods

variable {method name : String}

theorem lowers_bindMethod (owner : String) (f : FunctionDef) (b : Bindings) (args : List Expr) :
    Lowers session l (l.bindMethod owner f b args span)
      fun r es => Infers f.isGeneric args es r.2.2 := by
  rw [bindMethod]
  split
  · exact .pure (infers_nil _ args)
  next hgeneric =>
    rw [show f.isGeneric = true by simpa using hgeneric]
    refine (lowers_bindItem _ _ _ _ _ _).bind fun found early hearly => ?_
    refine .own (Gen.only_perform trivial) fun _ => .pure ?_
    rwa [append_nil]

theorem lowers_callSlot (table : IR.Operand) (slot : Nat) (receiver : IR.Operand) {sig : Signature}
    (hlength : args.length = sig.params.length) (early : List (Option Value)) :
    Lowers session l (l.callSlot table slot receiver sig args early span)
      fun _ es => es = lateArgs args early := by
  refine .own (Gen.only_perform trivial) fun _ => ?_
  refine .own (Gen.only_perform trivial) fun _ => ?_
  exact .own (serves_assign _ _) fun callee => lowers_directCall _ hlength _ _

theorem lowers_callClassMethod {d : ClassDef} (classArgs : List Ty) (object : IR.Operand)
    {position : Nat} {owner : ClassDef}
    (hfound : ClassDef.methodAmong? method (session.program.classChain d.name) =
      some (position, owner, f)) (hlength : args.length = f.params.length) :
    Lowers session l (l.callClassMethod d classArgs object method args span)
      fun r es => r.isSome ∧ Arranges f.isGeneric args es := by
  refine .program ?_
  rw [hfound]
  refine (lowers_bindMethod _ _ _ _).bind fun found early hearly => ?_
  have hsig : args.length =
      (Signature.ofDef (owner.name ++ "::" ++ method) f found.1).params.length :=
    hlength.trans (length_map _).symm
  dsimp only
  generalize (if position = 0 then classArgs else []) = ownerArgs
  generalize (if d.isValue = true then none else session.program.classSlot? d.name method) = slot
  cases slot with
  | some slot =>
    refine .own (serves_assign _ _) fun table => Lowers.bind_pure ?_
    exact (lowers_callSlot _ _ _ hsig _).mono fun _ es hes => ⟨rfl, hes ▸ hearly.arranges⟩
  | none =>
    refine .own (serves_methodSymbol _ _ _ _ _) fun symbol => ?_
    exact .optional (serves_declareCallee _ _ _) (hearly.lowers_directCall _ hsig _)

theorem lowers_callImplMethod (receiverTy : Ty) (typeArgs : List Ty) (operand : IR.Operand)
    {origin : Origin} {impl : ImplDef}
    (hfound : session.program.implMethod? name method = some (origin, impl, f))
    (hself : f.hasSelf = true) (hlength : args.length = f.params.length) :
    Lowers session l (l.callImplMethod receiverTy name typeArgs operand method args span)
      fun r es => r.isSome ∧ Arranges f.isGeneric args es := by
  refine .program ?_
  rw [hfound]
  dsimp only
  rw [hself]
  refine (lowers_bindMethod _ _ _ _).bind fun found early hearly => ?_
  refine .own (serves_methodSymbol _ _ _ _ _) fun symbol => ?_
  refine .optional (serves_declareCallee _ _ _) (hearly.lowers_directCall _ ?_ _)
  exact hlength.trans (length_map _).symm

theorem lowers_callBehavior (addr : IR.Operand) {behavior : String} (behaviorArgs : List Ty)
    {slot : Nat} {d : BehaviorDef} {sig : MethodSig}
    (hfound : session.program.behaviorMethod? behavior method = some (slot, d, sig))
    (hlength : args.length = sig.params.length) :
    Lowers session l (l.callBehavior addr behavior behaviorArgs method args span)
      fun _ es => Arranges false args es := by
  refine .program ?_
  rw [hfound]
  refine .own ((Gen.only_dynType _ _).mono fun _ => Step.Represents.serves) fun _ => ?_
  refine .own (serves_assign _ _) fun _ => ?_
  refine .own (serves_assign _ _) fun data => ?_
  refine .own (serves_assign _ _) fun _ => ?_
  refine .own (serves_assign _ _) fun table => ?_
  refine (lowers_callSlot _ _ _ ?_ _).mono fun _ es hes => hes ▸ (infers_nil false args).arranges
  rw [hlength, Ty.length_substList]

theorem lowers_callNominal (operand : IR.Operand) {t : Ty} {typeArgs : List Ty}
    (hname : t.nominal? = some (name, typeArgs))
    (hfound : session.program.nominalMethod? name method = some f)
    (hlength : args.length = f.params.length) :
    Lowers session l (l.callNominal operand t method args span)
      fun r es => r.isSome ∧ Arranges f.isGeneric args es := by
  have himpl : (session.program.class? name).bind
        (fun d => ClassDef.methodAmong? method (session.program.classChain d.name)) = none →
      Lowers session l (l.callImplMethod t name typeArgs operand method args span)
        fun r es => r.isSome ∧ Arranges f.isGeneric args es := by
    intro hnone
    rw [Program.nominalMethod?, hnone] at hfound
    obtain ⟨hfound, hself⟩ := Option.filter_eq_some_iff.1 hfound
    obtain ⟨⟨origin, impl, g⟩, himpl, rfl⟩ := Option.map_eq_some_iff.1 hfound
    exact lowers_callImplMethod t typeArgs operand himpl hself hlength
  rw [callNominal, hname]
  refine .program ?_
  cases hclass : session.program.class? name with
  | none =>
    rw [hclass] at himpl
    exact himpl rfl
  | some d =>
    cases hamong : ClassDef.methodAmong? method (session.program.classChain d.name) with
    | none =>
      rw [hclass] at himpl
      refine (declines_program (by simp only [hamong])).bind fun r es hr => ?_
      obtain ⟨rfl, rfl⟩ := hr
      exact himpl hamong
    | some among =>
      obtain ⟨position, owner, f'⟩ := among
      rw [Program.nominalMethod?, hclass, Option.bind_some, hamong] at hfound
      cases hfound
      exact (lowers_callClassMethod _ _ hamong hlength).answered.mono fun _ _ hr =>
        ⟨Option.isSome_iff_exists.2 hr.1, hr.2⟩

end Methods

/-! ### Calls -/

/-- A call, in some state, of a function, a method or a variant with as many arguments as it has
parameters. What comes before its arguments is the receiver of a method. -/
inductive Invokes (session : Session) (l : Lowering) (args : List Expr) (s : Build) :
    Gen Value → Bool → List (Event Step.Answer) → Build → Prop
  | path {path count generic} (note : Note) (expected : Option Ty)
      (hcallee : session.program.callee? path args.length = some (count, generic))
      (hcount : args.length = count) :
      Invokes session l args s (l.callPath path args note expected) generic [] s
  | method {object method quiet lowered operand t mid last count generic} (note : Note)
      (hfield : session.Runs (l.hasCallableField object method) s quiet false mid)
      (hreceiver : session.Runs (l.receiver object) mid lowered
        (some (operand, t)) last)
      (hmethod : session.program.methodOf? t method = some (count, generic))
      (hcount : args.length = count) :
      Invokes session l args s (l.methodCall note object method args) generic (quiet ++ lowered)
        last

/-- Every argument of a call is lowered once, in an order that `Arranges` allows; this is the order
of the source if the call binds no type parameters or every argument has a type. -/
theorem arranges_of_invokes {args : List Expr} {s mid s' : Build} {m : Gen Value} {generic : Bool}
    {before events : List (Event Step.Answer)} {v : Value}
    (hm : Invokes session l args s m generic before mid)
    (h : Runs (Step.perform session) m s events v s') :
    ∃ es rest, events = before ++ rest ∧ Visits session l mid es rest s' ∧
      Arranges generic args es ∧
      ((generic = false ∨ ∀ e ∈ args, e.ty.isSome) → es = args) := by
  cases hm with
  | path note expected hcallee hcount =>
    obtain ⟨es, hvisits, hes⟩ := lowers_callPath hcallee hcount note _ _ _ _ h
    exact ⟨es, events, rfl, hvisits, hes, hes.eq_args⟩
  | method note hfield hreceiver hmethod hcount =>
    obtain ⟨quiet', isField, mid', rest, hfield', h, rfl⟩ := runs_bind_iff.1 h
    obtain ⟨rfl, rfl, rfl⟩ := hfield.unique hfield'
    obtain ⟨lowered', found, last', rest, hreceiver', h, rfl⟩ := runs_bind_iff.1 h
    obtain ⟨rfl, rfl, rfl⟩ := hreceiver.unique hreceiver'
    have hvisits : ∃ es, Visits session l mid es rest s' ∧ Arranges generic args es := by
      unfold Program.methodOf? at hmethod
      split at hmethod
      · obtain ⟨⟨slot, d, sig⟩, hfound, hmap⟩ := Option.map_eq_some_iff.1 hmethod
        cases hmap
        exact lowers_callBehavior _ _ hfound hcount _ _ _ _ h
      · rename_i t hdyn
        obtain ⟨f, hf, hmap⟩ := Option.map_eq_some_iff.1 hmethod
        obtain ⟨⟨name, typeArgs⟩, hname, hfound⟩ := Option.bind_eq_some_iff.1 hf
        cases hmap
        split at h
        · cases ‹_ = none›
        · cases ‹_ = some _›
          exact absurd rfl (hdyn _ _)
        · cases ‹_ = some _›
          exact ((lowers_callNominal _ hname hfound hcount).answered.mono
            fun _ _ hr => hr.2) _ _ _ _ h
    obtain ⟨es, hvisits, hes⟩ := hvisits
    exact ⟨es, rest, (List.append_assoc _ _ _).symm, hvisits, hes, hes.eq_args⟩

/-- Two functions without parameters and a generic function of two parameters. -/
def pairing : Program where
  home := {
    functions := .ofList [
      { name := "g", ret := .prim .i32, isExtern := true },
      { name := "h", ret := .prim .i32, isExtern := true },
      { name := "pair", generics := ["A", "B"]
        params := [⟨"a", .ofName "A" []⟩, ⟨"b", .ofName "B" []⟩], body := some (.mk [] none) }] }

/-- The arguments of a call `pair(g(), h())`, of which only the first has a type. -/
def halfTyped : List Expr :=
  [.call { ty := some (.prim .i32) } (.ident {} "g") [], .call {} (.ident {} "h") []]

theorem run_pairing :
    (((ofDepth .empty (.prim .unit) 3).callPath (.single "pair") halfTyped {} none).run
        (Step.perform ⟨pairing, {}⟩) (Build.initial {})).toOption.map
      (fun result => result.2.assembly.draft.lines.toList) =
      some [.instr (.call (some 0) .i32 (.global "@h") []),
        .instr (.call (some 1) .i32 (.global "@g") []),
        .instr (.call none .void (.global "@tml_pair__I32__I32")
          [⟨.i32, .temp 1⟩, ⟨.i32, .temp 0⟩])] := by
  decide +kernel

theorem arranges_of_invokes_pairing :
    ∃ events v s' es, Runs (Step.perform ⟨pairing, {}⟩)
        ((ofDepth .empty (.prim .unit) 3).callPath (.single "pair") halfTyped {} none)
        (Build.initial {}) events v s' ∧
      Visits ⟨pairing, {}⟩ (ofDepth .empty (.prim .unit) 3) (Build.initial {}) es events s' ∧
      Arranges true halfTyped es := by
  obtain ⟨events, v, s', h, -⟩ := exists_runs_of_map_run run_pairing
  have hcallee : pairing.callee? (.single "pair") halfTyped.length = some (2, true) := by decide
  obtain ⟨es, rest, rfl, hvisits, hes, -⟩ := arranges_of_invokes (.path {} none hcallee rfl) h
  exact ⟨_, v, s', es, h, hvisits, hes⟩

/-- An argument without a type can be lowered before an argument that precedes it. -/
theorem overtakes :
    ∃ events v s', Runs (Step.perform ⟨pairing, {}⟩)
        ((ofDepth .empty (.prim .unit) 3).callPath (.single "pair") halfTyped {} none)
        (Build.initial {}) events v s' ∧
      s'.assembly.draft.lines.toList =
        [.instr (.call (some 0) .i32 (.global "@h") []),
          .instr (.call (some 1) .i32 (.global "@g") []),
          .instr (.call none .void (.global "@tml_pair__I32__I32")
            [⟨.i32, .temp 1⟩, ⟨.i32, .temp 0⟩])] :=
  exists_runs_of_map_run run_pairing

end Lowering

end Monomorph
