import Monomorph.Proofs.Compile.Passages
import Monomorph.Proofs.Lowering.Coercions

/-!
# Calls of generic functions agree with headers

A call of a generic function is written with the types that its own arguments resolve to, while the
code of the function is generated once for each symbol, from the arguments of the first request. The
two agree: a symbol tells the name of the function and its arguments apart up to module qualifiers,
and the types that instructions see do not depend on qualifiers.

## Main results

* `headers_generate`, `Lowering.call_of_directCall`, `Compile.agrees_of_callGeneric`.
-/

namespace Monomorph

open List Script Monomorph.Symbol

variable {early : List (Option Value)} {f : FunctionDef} {args : List Ty}

/-! ### Headers -/

/-- The header with which a step begins a function. -/
def Step.header? : Step → Option IR.Header
  | beginFunction ret symbol params => some (.define ret symbol params)
  | _ => none

/-- The headers of the functions that events begin. -/
def headers (events : List (Event Step.Answer)) : List IR.Header := events.filterMap (·.1.header?)

theorem headers_append (events later : Gen.Trace) :
    headers (events ++ later) = headers events ++ headers later :=
  filterMap_append

/-- Where no function begins, there is no header. -/
theorem headers_eq_nil {events : Gen.Trace} (h : .begin ∉ bounds events) :
    headers events = [] := by
  refine filterMap_eq_nil_iff.2 fun event hevent => ?_
  obtain ⟨step, answer⟩ := event
  cases step with
  | beginFunction ret symbol params => exact (h (mem_filterMap.2 ⟨_, hevent, rfl⟩)).elim
  | _ => rfl

theorem Step.Represents.header?_eq {step : Step} (h : step.Represents) : step.header? = none := by
  cases h <;> rfl

variable {session : Session} {α : Type} {s s' : Build} {events : Gen.Trace}

/-- Representing types begins no function. -/
theorem headers_of_only {m : Gen α} {a : α} (hm : m.Only Step.Represents)
    (h : session.Runs m s events a s') : headers events = [] :=
  filterMap_eq_nil_iff.2 fun event hevent => (h.only hm event hevent).header?_eq

/-! ### Representations -/

/-- Arguments that are equal up to qualifiers give instances that are. -/
theorem Ty.unqualified_subst_congr {args' : List Ty}
    (h : args.map Ty.unqualified = args'.map Ty.unqualified) (generics : List String) (t : Ty) :
    (t.subst (.ofArgs generics args)).unqualified =
      (t.subst (.ofArgs generics args')).unqualified := by
  rw [unqualified_subst, unqualified_subst, Bindings.unqualified_ofArgs,
    Bindings.unqualified_ofArgs, unqualifiedList_eq_map, unqualifiedList_eq_map, h]

namespace Program

variable (p : Program) {args' : List Ty}

/-- The representation of a result. -/
def returnIr (t : Ty) : IR.Ty := if t.isVoidLike then .void else p.ir t

/-- Parameters under a binding, with their representations. -/
def slots (b : Bindings) (params : List Param) : List ParamSlot :=
  params.map fun param => ⟨param.name, param.ty.subst b, p.ir (param.ty.subst b)⟩

theorem isVoidLike_unqualified (t : Ty) : t.unqualified.isVoidLike = t.isVoidLike := by
  cases t with
  | tuple elems => cases elems <;> rfl
  | _ => rfl

theorem returnIr_congr {t t' : Ty} (h : t.unqualified = t'.unqualified) :
    p.returnIr t = p.returnIr t' := by
  rw [returnIr, returnIr, ← isVoidLike_unqualified t, ← isVoidLike_unqualified t',
    ← p.ir_unqualified t, ← p.ir_unqualified t', h]

/-- Arguments that are equal up to qualifiers give results with one representation. -/
theorem returnIr_subst_congr (h : args.map Ty.unqualified = args'.map Ty.unqualified)
    (generics : List String) (t : Ty) :
    p.returnIr (t.subst (.ofArgs generics args)) = p.returnIr (t.subst (.ofArgs generics args')) :=
  p.returnIr_congr (Ty.unqualified_subst_congr h generics t)

/-- Arguments that are equal up to qualifiers give parameters with the same representations. -/
theorem irs_subst_congr (h : args.map Ty.unqualified = args'.map Ty.unqualified)
    (generics : List String) (params : List Param) :
    p.irs (params.map fun param => param.ty.subst (.ofArgs generics args)) =
      p.irs (params.map fun param => param.ty.subst (.ofArgs generics args')) := by
  refine p.irs_congr ?_
  rw [map_map, map_map]
  exact map_congr_left fun param _ => Ty.unqualified_subst_congr h generics param.ty

/-- The types in a header are the representations of the parameters. -/
theorem types_headerParams (b : Bindings) (params : List Param) :
    (Gen.headerParams false false (p.slots b params)).map IR.Typed.ty =
      p.irs (params.map fun param => param.ty.subst b) := by
  induction params with
  | nil => rfl
  | cons param params ih => exact congrArg (p.ir (param.ty.subst b) :: ·) ih

end Program

namespace Gen

theorem gives_returnType (session : Session) (t : Ty) :
    Gives session (fun _ => True) (returnType t) (session.program.returnIr t) := by
  rw [returnType, Program.returnIr]
  split
  · exact .pure _
  · exact gives_ir session t

theorem gives_paramSlots (session : Session) (b : Bindings) (params : List Param) :
    Gives session (fun _ => True) (paramSlots b params) (session.program.slots b params) := by
  induction params with
  | nil => exact .pure _
  | cons param params ih =>
    rw [paramSlots, mapM_cons]
    refine Gives.bind ((gives_ir session (param.ty.subst b)).bind (.pure _)) ?_
    exact Gives.bind ih (.pure _)

theorem only_paramSlots (b : Bindings) (params : List Param) :
    (paramSlots b params).Only Step.Represents := by
  refine only_mapM (fun param => ?_) params
  exact (only_irType _).bind fun _ => trivial

end Gen

/-! ### The header of an instance -/

/-- The code of a function has one header, which does not depend on the state. -/
theorem headers_lowerFunction {symbol : String} {b : Bindings} {receiver : Option Receiver}
    (h : session.Runs (Gen.lowerFunction f symbol b receiver) s events () s') :
    headers events = [.define (session.program.returnIr (f.ret.subst b)) symbol
      (Gen.headerParams f.isClosureBody receiver.isSome (session.program.slots b f.params))] := by
  obtain ⟨_, _, _, hrepresent, h₁, rfl⟩ := (Gen.gives_paramSlots session b f.params).of_bind h
  obtain ⟨_, _, _, hret, h₂, rfl⟩ := (Gen.gives_returnType session _).of_bind h₁
  obtain ⟨body, hbody, rfl⟩ := h₂.of_ask_bind rfl
  -- The code after the header finishes the function and begins no other.
  have hb : b.Over (Naming.free session).Name := fun entry _ => Ty.over_full entry.2
  have hreceiver : ∀ r ∈ receiver, r.ty.Over (Naming.free session).Name :=
    fun r _ => Ty.over_full r.ty
  have hslots (t : Build) : (Naming.free session).Ok t (session.program.slots b f.params) :=
    fun slot _ => ⟨Ty.over_full slot.ty, fun _ _ => trivial⟩
  have hbounds := (Discipline.completes_functionBody (FunctionDef.over_of_isFull .full f)
    (Discipline.IsFull.allows f b) hb hreceiver (hslots _) (Naming.inv_free session .inside _)
    body () s' hbody (Naming.takes_none session body)).2.1
  have hnone : headers body = [] := headers_eq_nil (by rw [hbounds]; decide)
  rw [headers_append, headers_append, ← singleton_append, headers_append,
    headers_of_only (Gen.only_paramSlots b f.params) hrepresent,
    headers_of_only (Gen.only_returnType _) hret, hnone]
  rfl

/-- The code of an instance of a function that is no closure has one header. -/
theorem headers_generate {item : WorkItem} (hkind : item.kind = .func)
    (hf : session.program.function? item.base = some f) (hclosure : f.isClosureBody = false)
    (h : session.Runs (Gen.generate item) s events () s') :
    headers events = [.define
      (session.program.returnIr (f.ret.subst (.ofArgs f.generics item.args)))
      ("@" ++ session.settings.symbolStart ++ item.symbol)
      (Gen.headerParams false false
        (session.program.slots (.ofArgs f.generics item.args) f.params))] := by
  have hitem : Gen.generateFound item = Gen.program >>= fun p =>
      Gen.generateFrom (p.function? item.base) Gen.generateFunction item := by
    simp only [Gen.generateFound, hkind]
  obtain ⟨calling, hcall, rfl⟩ := Gen.runs_generate_of hitem hf h
  obtain ⟨code, hcode, rfl⟩ := Gen.runs_program_bind hcall
  simp only [hclosure, Bool.false_and, Bool.false_eq_true, if_false] at hcode
  obtain ⟨naming, symbol, s₃, lowering, hname, hlower, rfl⟩ := hcode.of_bind
  obtain ⟨rfl, rfl, rfl⟩ := Gen.runs_functionSymbol hname
  have hheaders := headers_lowerFunction hlower
  rw [hclosure] at hheaders
  exact hheaders

/-! ### The types of a call -/

namespace Lowering

variable {l : Lowering} {args : List Expr} {typed : List IR.Typed} {callee : IR.Operand}
  {span : Span}

/-- Arguments are given the types of the parameters. -/
theorem types_of_arguments {params : List Ty} (hlength : args.length = params.length)
    (h : session.Runs (l.arguments params args early) s events typed s') :
    typed.map IR.Typed.ty = session.program.irs params := by
  induction params generalizing args early typed s s' events with
  | nil =>
    rw [arguments.eq_def] at h
    obtain ⟨-, rfl, -⟩ := h.of_pure
    rfl
  | cons param params ih =>
    cases args with
    | nil => cases hlength
    | cons arg args =>
      obtain ⟨_, _, _, rfl, -, -, -, _, _, _, hlater, -⟩ := runs_arguments_cons h
      rw [map_cons, ih (Nat.succ.inj hlength) hlater]
      rfl

theorem call_of_call {ret : IR.Ty} {value : Option IR.Operand}
    (h : session.Runs (Gen.call ret callee typed) s events value s') :
    ∃ result, events.getLast? = some ⟨.emit (.call result ret callee typed), ()⟩ := by
  rw [Gen.call] at h
  split at h
  · obtain ⟨_, hrest, rfl⟩ := h.of_ask_bind rfl
    obtain ⟨rfl, -⟩ := hrest.of_pure
    exact ⟨none, rfl⟩
  · obtain ⟨_, hlater, rfl⟩ := h.of_ask_bind rfl
    obtain ⟨_, hrest, rfl⟩ := hlater.of_ask_bind rfl
    obtain ⟨rfl, -⟩ := hrest.of_pure
    exact ⟨some _, rfl⟩

/-- The code of a direct call ends with the call, which has the types of the signature. -/
theorem call_of_directCall {sig : Signature} (hlength : args.length = sig.params.length)
    {value : Value}
    (h : session.Runs (l.directCall callee sig args early none span) s events value
      s') :
    ∃ result typed, events.getLast? =
        some ⟨.emit (.call result (session.program.returnIr sig.ret) callee typed), ()⟩ ∧
      typed.map IR.Typed.ty = session.program.irs sig.params := by
  rw [directCall, checkArity, if_pos hlength] at h
  obtain ⟨_, s₁, rest₁, -, h₁, rfl⟩ := (Gen.gives_returnType session _).of_bind h
  change session.Runs (l.arguments sig.params args early >>= _) s₁ rest₁ value s' at h₁
  obtain ⟨_, typed, _, _, htyped, h₂, rfl⟩ := h₁.of_bind
  obtain ⟨_, hcall, -⟩ := h₂.of_bind_pure
  obtain ⟨result, hlast⟩ := call_of_call hcall
  refine ⟨result, typed, ?_, types_of_arguments hlength htyped⟩
  rw [getLast?_append, getLast?_append, hlast]
  rfl

/-- A call of a generic function binds the parameters of the function. Where they are closed, it
requests the instance and goes on with a call of its symbol. -/
theorem runs_callGeneric {path : Path} (hf : session.program.function? path.joined = some f)
    (hgeneric : f.isGeneric = true) {expected : Option Ty} {value : Option Value}
    (h : session.Runs (l.callGeneric path args span expected) s events value s') :
    ∃ first resolution early mid,
      session.Runs (l.bindItem f.generics path.args f.paramTypes args [f.ret] expected
        (.prim .unit)) s first (resolution, early) mid ∧
      (session.program.isOpenList resolution.args = false → ∃ before t calling result,
        ⟨.require (.plain .func f.name resolution.args), ofInstance f.name resolution.args⟩ ∈
            before ∧
        session.Runs (l.directCall
          (.global ("@" ++ session.settings.symbolStart ++ ofInstance f.name resolution.args))
          (.ofDef f.name f (.ofArgs f.generics resolution.args)) args early none span) t calling
          result s' ∧
        events = before ++ calling) := by
  obtain ⟨rest₀, h₀, rfl⟩ := Gen.runs_program_bind h
  simp only [hf, Option.filter_some, hgeneric, if_true] at h₀
  obtain ⟨binding, ⟨resolution, early⟩, mid, rest₁, hbind, h₁, rfl⟩ := h₀.of_bind
  refine ⟨binding, resolution, early, mid, hbind, fun hclosed => ?_⟩
  obtain ⟨reporting, _, t₂, rest₂, -, h₂, rfl⟩ := h₁.of_bind
  simp only [hclosed] at h₂
  obtain ⟨rest₃, h₃, rfl⟩ := h₂.of_ask_bind rfl
  obtain ⟨naming, symbol, t₄, calling, hname, h₄, rfl⟩ := h₃.of_bind
  obtain ⟨rfl, rfl, rfl⟩ := Gen.runs_functionSymbol hname
  obtain ⟨result, hcall, -⟩ := h₄.of_bind_pure
  refine ⟨⟨.program, session.program⟩ :: (binding ++ (reporting ++
    [⟨.require (.plain .func f.name resolution.args), ofInstance f.name resolution.args⟩,
      ⟨.symbolStart, session.settings.symbolStart⟩])), _, calling, result, by simp, hcall, ?_⟩
  simp only [append_assoc, cons_append]
  rfl

/-- A call of a generic function with closed arguments requests the instance and ends with a call of
its symbol. -/
theorem call_of_callGeneric {path : Path} (hf : session.program.function? path.joined = some f)
    (hgeneric : f.isGeneric = true) (hlength : args.length = f.params.length) {expected : Option Ty}
    {first : Gen.Trace} {resolution : Resolution} {s₁ : Build}
    (hbind : session.Runs (l.bindItem f.generics path.args f.paramTypes args [f.ret]
      expected (.prim .unit)) s first (resolution, early) s₁)
    (hclosed : session.program.isOpenList resolution.args = false) {value : Option Value}
    (h : session.Runs (l.callGeneric path args span expected) s events value s') :
    ⟨.require (.plain .func f.name resolution.args), ofInstance f.name resolution.args⟩ ∈ events ∧
      ∃ result typed, events.getLast? = some ⟨.emit (.call result
          (session.program.returnIr (f.ret.subst (.ofArgs f.generics resolution.args)))
          (.global ("@" ++ session.settings.symbolStart ++ ofInstance f.name resolution.args))
          typed), ()⟩ ∧
        typed.map IR.Typed.ty = session.program.irs
          (f.params.map fun param => param.ty.subst (.ofArgs f.generics resolution.args)) := by
  obtain ⟨_, _, _, _, hfirst, hcalls⟩ := runs_callGeneric hf hgeneric h
  obtain ⟨rfl, hresolved, rfl⟩ := hfirst.unique hbind
  cases hresolved
  obtain ⟨before, t, calling, value, hmem, hcall, rfl⟩ := hcalls hclosed
  have hparams : args.length =
      (Signature.ofDef f.name f (.ofArgs f.generics resolution.args)).params.length :=
    hlength.trans (length_map _).symm
  obtain ⟨result, typed, hlast, htyped⟩ := call_of_directCall hparams hcall
  refine ⟨mem_append_left _ hmem, result, typed, ?_, htyped⟩
  rw [getLast?_append, hlast]
  rfl

end Lowering

/-! ### Calls and headers -/

/-- Programs whose symbols tell the instances of functions apart: the names in types are clean, and
functions have names of their own, which neither a qualifier nor a separator blurs. -/
structure Program.NamesFunctions (p : Program) : Prop where
  types : p.Over .clean
  nodup : (p.names Module.functions).Nodup
  bare : ∀ name ∈ p.names Module.functions, IsBare name
  separable : ∀ name ∈ p.names Module.functions, Separable name.toList

namespace Compile

variable {program : Program} {settings : Settings} {output : Output}

/-- An instance with the symbol of a function is generated from that function, for arguments that
are equal up to qualifiers. -/
theorem function_of_key (hnames : program.NamesFunctions)
    (h : compile program settings = .ok output) (hf : f.name ∈ program.names Module.functions)
    (hargs : ∀ t ∈ args, t.Over .clean) {item : WorkItem} (hitem : item ∈ output.instances)
    (hkey : item.key = (.func, ofInstance f.name args)) :
    item.base = f.name ∧ item.args.map Ty.unqualified = args.map Ty.unqualified := by
  obtain ⟨hprovides, hclean⟩ := requests_clean_of_mem_instances hnames.types h hitem
  obtain ⟨hkind, hsymbol⟩ := Prod.mk.inj hkey
  cases hprovides with
  | func hfound own =>
    exact key_eq_of_over_clean (hnames.separable _ (Program.mem_names_of_lookup hfound))
      (hnames.separable _ hf) hclean hargs hsymbol
  | _ => cases hkind

/-- Calls of generic functions agree with headers. Where such a function is called with the right
number of arguments and the type arguments of the call are closed, the code ends with a call of the
symbol of the instance, one instance of the result has that symbol, and the one header that
generating it writes has the result type of the call and the types of its arguments, whichever
request came first. -/
theorem agrees_of_callGeneric (hnames : program.NamesFunctions) {l : Lowering} {path : Path}
    {args : List Expr} {span : Span} {expected : Option Ty} {s s' : Build}
    {during : List (Script.Event Step.Answer)} {value : Option Value}
    (hcall : Performs program settings output (l.callGeneric path args span expected) s during value
      s') {f : FunctionDef} (hf : program.function? path.joined = some f)
    (hgeneric : f.isGeneric = true) (hclosure : f.isClosureBody = false)
    (harity : args.length = f.params.length) {first : List (Script.Event Step.Answer)}
    {resolution : Resolution} {early : List (Option Value)} {s₁ : Build}
    (hbind : Runs (Step.perform ⟨program, settings⟩) (l.bindItem f.generics path.args f.paramTypes
      args [f.ret] expected (.prim .unit)) s first (resolution, early) s₁)
    (hclosed : program.isOpenList resolution.args = false) :
    ∃ result ret typed,
      during.getLast? = some ⟨.emit (.call result ret
        (.global ("@" ++ settings.symbolStart ++ ofInstance f.name resolution.args)) typed), ()⟩ ∧
      (output.instances.map WorkItem.key).count (.func, ofInstance f.name resolution.args) = 1 ∧
      ∀ item ∈ output.instances, item.key = (.func, ofInstance f.name resolution.args) →
        (∃ t own t', Performs program settings output (Gen.generate item) t own () t') ∧
        ∀ t own t', Performs program settings output (Gen.generate item) t own () t' → ∃ params,
          headers own = [.define ret
            ("@" ++ settings.symbolStart ++ ofInstance f.name resolution.args) params] ∧
          params.map IR.Typed.ty = typed.map IR.Typed.ty := by
  obtain ⟨hevent, result, typed, hlast, htyped⟩ :=
    Lowering.call_of_callGeneric hf hgeneric harity hbind hclosed hcall.runs
  have hargs := (hcall.requests_clean hnames.types hevent).2
  have hname := Program.mem_names_of_lookup hf
  refine ⟨result, _, typed, hlast, hcall.count_instances hevent, fun item hitem hkey => ?_⟩
  refine ⟨performs_generate hcall.compile_eq_ok hitem, fun t own t' hown => ?_⟩
  obtain ⟨hbase, heq⟩ := function_of_key hnames hcall.compile_eq_ok hname hargs hitem hkey
  have hfound : program.function? item.base = some f := by
    rw [hbase]
    exact Program.lookup_name hnames.nodup (hnames.bare _ hname) hf
  obtain ⟨hkind, hsymbol⟩ := Prod.mk.inj hkey
  have hret := program.returnIr_subst_congr heq f.generics f.ret
  have hparams := program.irs_subst_congr heq f.generics f.params
  refine ⟨Gen.headerParams false false (program.slots (.ofArgs f.generics item.args) f.params),
    ?_, ?_⟩
  · rw [headers_generate hkind hfound hclosure hown.runs, hsymbol]
    exact congrArg (fun ret => [IR.Header.define ret _ _]) hret
  · rw [program.types_headerParams, hparams]
    exact htyped.symm

/-! ### Qualified arguments -/

/-- A path that names neither a function of a built-in kind, nor a variant, nor an intrinsic is
tried as a generic function. -/
theorem Performs.callGeneric {l : Lowering} {path : Path} {args : List Expr} {note : Note}
    {expected : Option Ty} {during : Gen.Trace} {value : Value}
    (h : Performs program settings output (l.callPath path args note expected) s during value s')
    (hkind : l.kindFunction path args = pure none) (hvariant : program.variant? path = none)
    (hintrinsic : Intrinsic.ofPath? path = none) :
    ∃ t own value t', Performs program settings output
      (l.callGeneric path args note.span expected) t own value t' := by
  obtain ⟨trying, found, t₁, rest₁, hstages, -, -⟩ := h.bind
  obtain ⟨first, r₁, t₂, rest₂, hfirst, hstages₂, -⟩ := hstages.bind
  rw [hkind] at hfirst
  obtain ⟨-, rfl, rfl⟩ := hfirst.runs.of_pure
  obtain ⟨second, r₂, t₃, rest₃, hsecond, hstages₃, -⟩ := hstages₂.bind
  obtain ⟨second, hsecond⟩ := hsecond.program_bind
  rw [hvariant] at hsecond
  obtain ⟨-, rfl, rfl⟩ := hsecond.runs.of_pure
  obtain ⟨third, r₃, t₄, rest₄, hthird, hstages₄, -⟩ := hstages₃.bind
  rw [Lowering.intrinsic, hintrinsic] at hthird
  obtain ⟨-, rfl, rfl⟩ := hthird.runs.of_pure
  obtain ⟨own, r₄, t₅, rest₅, hcall, -, -⟩ := hstages₄.bind
  exact ⟨_, own, r₄, t₅, hcall⟩

/-- A struct literal. -/
def pairLiteral : Expr := .record {} (.single "Pair") [.mk "x" (.lit {} (.int 1)) .dummy] none

/-- A generic function that returns its argument. -/
def identity : FunctionDef where
  name := "id"
  generics := ["T"]
  params := [⟨"a", .ofName "T" []⟩]
  ret := .ofName "T" []
  body := some (.mk [] (some (.ident {} "a")))

/-- A call of the identity with the struct as explicit argument, under a qualifier. -/
def identityCall (qualifier : String) : Expr :=
  .call {} (.path {} ⟨["id"], [.named qualifier "Pair" []]⟩) [pairLiteral]

/-- A function that calls a generic function twice, for one struct that is referred to by its bare
name first and under its module then. -/
def sharing : Program where
  home := {
    functions := .ofList [
      identity,
      { name := "f"
        body := some (.mk [.eval (identityCall ""), .eval (identityCall "geo")] none) }] }
  imports := [{
    path := "geo"
    structs := .ofList [{ name := "Pair", fields := [{ name := "x", ty := .prim .i32 }] }] }]

theorem namesFunctions_sharing : sharing.NamesFunctions where
  types := by decide +kernel
  nodup := by decide
  bare := by decide
  separable := by decide

/-- The explicit argument of the second call is what it resolves to. -/
theorem performs_callGeneric_sharing {settings : Settings} {output : Output}
    (hdepth : settings.depth = 8 + 1) (hcompile : compile sharing settings = .ok output) :
    ∃ t own value t', Performs sharing settings output
      ((Lowering.ofDepth .empty (.prim .unit) 8).callGeneric ⟨["id"], [.named "geo" "Pair" []]⟩
        [pairLiteral] .dummy none) t own value t' := by
  obtain ⟨t, own, value, t', hshape⟩ := performs_homeEval hcompile
    (f := { name := "f"
            body := some (.mk [.eval (identityCall ""), .eval (identityCall "geo")] none) })
    (List.mem_cons_of_mem _ List.mem_cons_self) rfl rfl rfl rfl
    (List.mem_cons_of_mem _ List.mem_cons_self) hdepth
  have hpath : Performs sharing settings output
      ((Lowering.ofDepth .empty (.prim .unit) 8).callPath ⟨["id"], [.named "geo" "Pair" []]⟩
        [pairLiteral] {} none) t own value t' := hshape
  exact hpath.callGeneric rfl (by decide) (by decide)

theorem args_of_bindItem_sharing {events : Gen.Trace}
    {resolution : Resolution} (h : Session.Runs ⟨sharing, { depth := 9 }⟩
      ((Lowering.ofDepth .empty (.prim .unit) 8).bindItem ["T"] [.named "geo" "Pair" []]
        [.ofName "T" []] [pairLiteral] [.ofName "T" []] none (.prim .unit)) s events
      (resolution, early) s') : resolution.args = [.named "geo" "Pair" []] := by
  obtain ⟨inferring, ⟨binder, values⟩, s₁, rest, hinfer, hrest, -⟩ := h.of_bind
  obtain ⟨showing, found, s₂, inferred, hshow, hinferred, -⟩ := hinfer.of_bind
  obtain ⟨reading, hread, -⟩ := Gen.runs_program_bind hshow
  obtain ⟨_, -, rfl⟩ := hread.of_bind_pure
  -- The literal shows its type, so that nothing is lowered.
  obtain ⟨-, hbinder, -⟩ := hinferred.of_pure
  obtain ⟨-, hresolution, -⟩ := hrest.of_pure
  obtain ⟨rfl, rfl⟩ := Prod.mk.inj hbinder
  obtain ⟨rfl, rfl⟩ := Prod.mk.inj hresolution
  rfl

theorem agrees_of_callGeneric_sharing :
    sharing.NamesFunctions ∧ ∃ output, compile sharing { depth := 9 } = .ok output ∧
      output.instances.filter (fun item => item.kind = .func) =
        [.plain .func "id" [.named "" "Pair" []]] ∧
      ∃ l s during value s', Performs sharing { depth := 9 } output
        (Lowering.callGeneric l ⟨["id"], [.named "geo" "Pair" []]⟩ [pairLiteral] .dummy none) s
          during value s' ∧
      ∃ result ret typed,
        during.getLast? = some ⟨.emit (.call result ret (.global "@tml_id__Pair") typed), ()⟩ ∧
        (output.instances.map WorkItem.key).count (.func, "id__Pair") = 1 ∧
        ∀ item ∈ output.instances, item.key = (.func, "id__Pair") →
          (∃ t own t', Performs sharing { depth := 9 } output (Gen.generate item) t own () t') ∧
          ∀ t own t', Performs sharing { depth := 9 } output (Gen.generate item) t own () t' →
            ∃ params, headers own = [.define ret "@tml_id__Pair" params] ∧
              params.map IR.Typed.ty = typed.map IR.Typed.ty := by
  refine ⟨namesFunctions_sharing, exists_of_compile_and (fun output hcompile _ => ?_)
    (by decide +kernel)⟩
  obtain ⟨t, own, value, t', hcall⟩ := performs_callGeneric_sharing rfl hcompile
  obtain ⟨rest, hrest, -⟩ := Gen.runs_program_bind hcall.runs
  obtain ⟨binding, ⟨resolution, early⟩, t₁, later, hbind, -, -⟩ := runs_bind_iff.1 hrest
  have hargs := args_of_bindItem_sharing hbind
  obtain ⟨result, ret, typed, hlast, hcount, hheaders⟩ := agrees_of_callGeneric
    namesFunctions_sharing hcall rfl rfl rfl rfl hbind (by rw [hargs]; decide)
  rw [hargs] at hlast hcount hheaders
  exact ⟨_, t, own, value, t', hcall, result, ret, typed, hlast, hcount, hheaders⟩

/-- A struct that is called like the head of a tuple, and two calls of a generic function: one for
an instance of the struct, one for a tuple. -/
def headWord : Program where
  home := {
    structs := .ofList [
      { name := "tuple", generics := ["T"], fields := [{ name := "x", ty := .ofName "T" [] }] }]
    functions := .ofList [
      identity,
      { name := "f"
        params := [⟨"p", .ofName "tuple" [.prim .i32]⟩, ⟨"q", .tuple [.prim .i32]⟩]
        body := some (.mk [.eval (.call {} (.ident {} "id") [.ident {} "p"]),
          .eval (.call {} (.ident {} "id") [.ident {} "q"])] none) }] }

/-- All names are clean, but for that of a struct that is called like the head of a tuple. -/
theorem over_headWord : headWord.Over (fun name => IsClean name ∨ name = Symbol.tupleHead) := by
  decide +kernel

/-- Where a struct is called like the head of a tuple, an instance of the struct and a tuple have
one symbol. The function is generated for the struct, and the call for the tuple disagrees with its
header. -/
theorem disagrees_of_headWord :
    headWord.Over (fun name => IsClean name ∨ name = Symbol.tupleHead) ∧
      (headWord.names Module.functions).Nodup ∧ headWord.typeNames.Nodup ∧
      (∀ name ∈ headWord.names Module.functions, IsClean name) ∧
      ∃ output, compile headWord { depth := 9 } = .ok output ∧
        .instr (.call (some 5) (.anon [.i32]) (.global "@tml_id__tuple__1__I32")
          [⟨.anon [.i32], .temp 4⟩]) ∈
            output.assembly.functions.toList.flatMap (fun f => f.lines.toList) ∧
        output.assembly.functions.toList.filterMap IR.Function.header =
          [.define .void "@tml_f"
            [⟨.named "%struct.tuple__I32", .arg "p"⟩, ⟨.anon [.i32], .arg "q"⟩],
          .define (.named "%struct.tuple__I32") "@tml_id__tuple__1__I32"
            [⟨.named "%struct.tuple__I32", .arg "a"⟩]] :=
  ⟨over_headWord, by decide, by decide, by decide, exists_of_compile (by decide +kernel)⟩

end Compile

end Monomorph
