import Monomorph.Compile.Move
import Monomorph.Proofs.IR.Parts
import Monomorph.Proofs.Layout.Bodies
import Monomorph.Proofs.Source.Openness
import Monomorph.Proofs.Source.Parts

/-!
# What generated code refers to

Generated code refers to functions by their symbols: it calls them and takes them as values. Every
such symbol is accounted for by something that the compilation does or reads. Either the function
was declared, or an instance with that symbol was requested or put aside, or the program lists code
under that name which the module at hand is taken to write. Likewise, each instance that is
requested belongs to a definition that was found in the program, and it has closed arguments or is
one of those that are spared the check.

All this is seen from inside a compilation, of which all steps are known: what one script relies on
can be done by another one. A focus says what is known of these steps. It can also follow which
expressions are lowered, what code returns and which requests are put aside.
-/

namespace Monomorph

open List

/-- Whether an instance is code, and not a type. -/
def InstanceKind.isCode : InstanceKind → Bool
  | func | method => true
  | struct | enum | cls => false

variable {m : StaticMethod} {path : Path} {name method : String}

/-! ### The symbols in code -/

namespace IR

/-- The function of a function value without an environment. -/
def Operand.code : Operand → List String
  | thin symbol => [symbol]
  | _ => []

/-- The function that is called by its symbol. -/
def Instr.callee : Instr → List String
  | call _ _ (.global symbol) _ => [symbol]
  | _ => []

/-- The functions that an instruction refers to. -/
def Instr.symbols (i : Instr) : List String := i.callee ++ i.operands.flatMap Operand.code

end IR

/-! ### Definitions behind requests -/

namespace Program

/-- Instances together with the definitions that they belong to. -/
inductive Requests (p : Program) : WorkItem → Prop
  | struct {name d} (h : p.struct? name = some d) (args : List Ty) :
      Requests p (.plain .struct d.name args)
  | enum {name d} (h : p.enum? name = some d) (args : List Ty) :
      Requests p (.plain .enum d.name args)
  | cls {name d} (h : p.class? name = some d) (args : List Ty) :
      Requests p (.plain .cls d.name args)
  | func {name f} (h : p.function? name = some f) (args : List Ty) :
      Requests p (.plain .func f.name args)
  | classMethod {name method d f}
      (hd : p.class? name = some d) (hf : d.method? method = some f) (args methodArgs : List Ty) :
      Requests p (.ofMethod d.name args method methodArgs)
  | constructor {name d} (hd : p.class? name = some d)
      (hconstructors : d.constructors ≠ []) (args methodArgs : List Ty) :
      Requests p (.ofMethod d.name args "new" methodArgs)
  | implMethod {origin impl name method f}
      (himpl : (origin, impl) ∈ p.impls) (hname : impl.typeName? = some name)
      (hf : impl.method? method = some f) (hgeneric : impl.generics ≠ [] ∨ f.isGeneric = true)
      (args methodArgs : List Ty) : Requests p (.ofMethod name args method methodArgs)

/-- Whether the definition of a method instance is found again: in the class, if there is one of
that name, and else in an implementation. -/
def findsMethod (p : Program) (owner method : String) : Bool :=
  match p.class? owner with
  | some d => (method = "new" && !d.constructors.isEmpty) || (d.method? method).isSome
  | none => (p.implMethod? owner method).isSome

/-- Whether the definition of an instance is found again. -/
def finds (p : Program) (item : WorkItem) : Bool :=
  match item.kind with
  | .struct => (p.struct? item.base).isSome
  | .enum => (p.enum? item.base).isSome
  | .cls => (p.class? item.base).isSome
  | .func => (p.function? item.base).isSome
  | .method => item.method.any fun key => p.findsMethod item.base key.name

/-- The names under which code is referred to without a request and without a declaration: the
module at hand is taken to write it. -/
inductive Lists (p : Program) : String → Prop
  /-- A function that is not generic, where the module at hand has a function of that name. -/
  | function {name f} (hf : p.function? name = some f)
      (hgeneric : f.isGeneric = false) (hlinked : f.isExtern = false)
      (hhome : p.home.functions.contains f.name = true) : Lists p f.name
  /-- A closure body that mentions no type parameter. -/
  | closure {name f} (hf : p.function? name = some f)
      (hbody : f.isClosureBody = true) (hparams : (p.closureParams f).isEmpty = true) :
      Lists p f.name
  /-- A method of a class, where the module at hand has a class of that name. -/
  | classMethod {name method d f} (hd : p.class? name = some d) (hf : d.method? method = some f)
      (hhome : p.home.classes.contains d.name = true) :
      Lists p (Symbol.ofMethod d.name [] method [])
  /-- A method of an implementation in the module at hand. -/
  | implMethod {impl name method f}
      (himpl : impl ∈ p.home.impls) (hname : impl.typeName? = some name)
      (hf : impl.method? method = some f) : Lists p (Symbol.ofMethod name [] method [])
  /-- A constructor of a class without parameters, in any module. -/
  | constructor {m d f} (hm : m ∈ p.modules)
      (hd : d ∈ m.classes.items) (hgenerics : d.generics.isEmpty = true)
      (hf : f ∈ d.constructors) : Lists p (Ctor.symbolOf d.name (p.irs f.paramTypes))

end Program

/-! ### Sessions -/

/-- What is reported besides defaults is an error, or about a request that stayed open. -/
def Diagnostic.IsGrave (d : Diagnostic) : Prop := d.isError = true ∨ d.code = .deferred

/-- The symbol of the code with a given name. -/
def Session.symbol (session : Session) (name : String) : String :=
  "@" ++ session.settings.symbolStart ++ name

theorem Session.symbol_inj {session : Session} {name' : String} :
    session.symbol name = session.symbol name' ↔ name = name' :=
  String.append_right_inj _

/-- Requests that are not for the code of a closure. -/
def Program.IsOrdinary (p : Program) (item : WorkItem) : Prop :=
  item.kind = .func →
    ∃ name f, p.function? name = some f ∧ f.isGeneric = true ∧ item.base = f.name

/-- The key of a constructor of a class. -/
def Program.overload (p : Program) (d : ClassDef) (f : FunctionDef) : String :=
  Ctor.key d.name (p.irs f.paramTypes)

/-- A class without parameters, in any module, has a constructor of a given key. -/
structure Program.Offers (p : Program) (key : String) (d : ClassDef) (f : FunctionDef) : Prop where
  known : ∃ m ∈ p.modules, d ∈ m.classes.items
  closed : d.generics.isEmpty = true
  mem : f ∈ d.constructors
  key_eq : p.overload d f = key

/-- The constructors that are registered: each under its key and with its symbol. -/
def Session.Registers (session : Session) (key : String) (ctor : Ctor) : Prop :=
  ∃ d f, session.program.Offers key d f ∧
    ctor.symbol = session.symbol (Ctor.symbolOf d.name (session.program.irs f.paramTypes))

/-! ### Definitions behind calls -/

namespace Program

variable {p : Program}

theorem mem_home_impls {impl : ImplDef} (h : (Origin.home, impl) ∈ p.impls) :
    impl ∈ p.home.impls := by
  obtain h | h := mem_append.1 h
  · obtain ⟨d, hd, heq⟩ := mem_map.1 h
    cases heq
    exact hd
  · obtain ⟨m, -, h⟩ := mem_flatMap.1 h
    obtain ⟨d, -, heq⟩ := mem_map.1 h
    cases heq

/-- What a static method is, apart from a constructor: a method of a class or one of an
implementation. -/
theorem of_staticMethod? (h : p.staticMethod? path = some m) : ∃ method, path.last? = some method ∧
      ((∃ name d, p.class? name = some d ∧ d.method? method = some m.definition ∧
          m.owner = d.name ∧ m.generics = d.generics ∧ m.pattern = d.selfType ∧
          m.isHome = p.home.classes.contains d.name) ∨
        ∃ origin impl, (origin, impl) ∈ p.impls ∧ impl.typeName? = some m.owner ∧
          impl.method? method = some m.definition ∧ m.generics = impl.generics ∧
          m.pattern = impl.selfTy ∧ m.isHome = decide (origin = .home)) := by
  simp only [Program.staticMethod?, Option.bind_eq_bind, Option.bind_eq_some_iff] at h
  obtain ⟨owner, -, method, hmethod, h⟩ := h
  refine ⟨method, hmethod, ?_⟩
  split at h
  next d hd =>
    obtain ⟨f, hf, rfl⟩ := Option.map_eq_some_iff.1 h
    exact .inl ⟨owner, d, hd, (Option.filter_eq_some_iff.1 hf).1, rfl, rfl, rfl, rfl⟩
  · simp only [Program.implStatic?, Option.bind_eq_bind, Option.bind_eq_some_iff] at h
    obtain ⟨name, -, ⟨origin, impl, f⟩, hfound, h⟩ := h
    obtain ⟨himpl, hname, hf⟩ := of_implMethod? hfound
    dsimp only at h
    split at h <;> cases h
    exact .inr ⟨origin, impl, himpl, hname, hf, rfl, rfl, rfl⟩

/-- The instances of a generic static method belong to its definition. -/
theorem requests_staticMethod (h : p.staticMethod? path = some m)
    (hgeneric : (!m.generics.isEmpty || m.definition.isGeneric) = true)
    (args methodArgs : List Ty) :
    p.Requests (.ofMethod m.owner args (path.last?.getD "") methodArgs) := by
  obtain ⟨method, hmethod, ⟨name, d, hd, hf, howner, -⟩ |
    ⟨origin, impl, himpl, hname, hf, hgenerics, -⟩⟩ := of_staticMethod? h
  · rw [hmethod, howner]
    exact .classMethod hd hf args methodArgs
  · rw [hmethod]
    refine .implMethod himpl hname hf ?_ args methodArgs
    rw [Bool.or_eq_true, Bool.not_eq_true', hgenerics, isEmpty_eq_false_iff] at hgeneric
    exact hgeneric

/-- The instances of a generic static method, or of a constructor, belong to its definition. -/
theorem requests_staticOrNew (h : p.staticOrNew? path = some m)
    (hgeneric : (!m.generics.isEmpty || m.definition.isGeneric) = true)
    (args methodArgs : List Ty) :
    p.Requests (.ofMethod m.owner args (path.last?.getD "") methodArgs) := by
  simp only [Program.staticOrNew?, Option.bind_eq_bind, Option.bind_eq_some_iff] at h
  obtain ⟨owner, -, method, hmethod, h⟩ := h
  split at h
  next d hd =>
    split at h
    · rename_i hnew
      obtain ⟨f, hf, rfl⟩ := Option.map_eq_some_iff.1 h
      rw [hmethod, hnew]
      exact .constructor hd (ne_nil_of_mem (mem_of_head? hf)) args methodArgs
    · exact requests_staticMethod h hgeneric args methodArgs
  · exact requests_staticMethod h hgeneric args methodArgs

theorem mem_of_mem_openNamesList_params {params : List String}
    (h : name ∈ p.openNamesList (params.map .param)) : name ∈ params := by
  induction params with
  | nil => cases h
  | cons param params ih =>
    obtain h | h := mem_append.1 h
    · rw [Ty.param, openNames, isEmpty_nil, if_pos rfl] at h
      split at h
      · cases h
      · exact mem_singleton.1 h ▸ mem_cons_self
    · exact mem_cons_of_mem _ (ih h)

/-- A static method whose type has a name out of scope is one of an implementation. -/
theorem spares_staticOrNew (h : p.staticOrNew? path = some m) {unknown : String}
    (hunknown : unknown ∈ p.openNamesList ((m.pattern.asNamed?.map Prod.snd).getD []))
    (hscope : unknown ∉ m.generics ++ m.definition.generics) {bound : List Ty}
    (hbound : p.isOpenList bound = false) (tabled : Dispatch.Request → Prop) :
    p.Spares tabled (.ofMethod m.owner
      (Ty.substList (.ofArgs (m.generics ++ m.definition.generics) bound)
        ((m.pattern.asNamed?.map Prod.snd).getD []))
      (path.last?.getD "") (bound.drop m.generics.length)) := by
  -- The arguments of the type of a class are its parameters.
  have hclass : ∀ d : ClassDef, m.generics = d.generics → m.pattern ≠ d.selfType := by
    intro d hgenerics hpattern
    rw [hpattern] at hunknown
    rw [hgenerics] at hscope
    exact hscope (mem_append_left _ (mem_of_mem_openNamesList_params hunknown))
  have hm : p.staticMethod? path = some m := by
    simp only [Program.staticOrNew?, Option.bind_eq_bind, Option.bind_eq_some_iff] at h
    obtain ⟨owner, -, method, -, h⟩ := h
    split at h
    next d _ =>
      split at h
      · obtain ⟨f, -, rfl⟩ := Option.map_eq_some_iff.1 h
        exact (hclass d rfl rfl).elim
      · exact h
    · exact h
  obtain ⟨method, hmethod, ⟨-, d, -, -, -, hgenerics, hpattern, -⟩ |
    ⟨origin, impl, himpl, hname, hf, hgenerics, hpattern, -⟩⟩ := of_staticMethod? hm
  · exact (hclass d hgenerics hpattern).elim
  · rw [hgenerics] at hscope ⊢
    rw [hpattern] at hunknown ⊢
    rw [hmethod]
    exact .unscoped himpl hname hf hunknown hscope hbound

/-- A static method of the module at hand is listed under its plain name. -/
theorem lists_staticMethod (h : p.staticMethod? path = some m) (hhome : m.isHome = true) :
    p.Lists (Symbol.ofMethod m.owner [] (path.last?.getD "") []) := by
  obtain ⟨method, hmethod, ⟨name, d, hd, hf, howner, -, -, hisHome⟩ |
    ⟨origin, impl, himpl, hname, hf, -, -, hisHome⟩⟩ := of_staticMethod? h
  · rw [hmethod, howner]
    exact .classMethod hd hf (hisHome ▸ hhome)
  · rw [hmethod]
    obtain rfl := of_decide_eq_true (hisHome ▸ hhome)
    exact .implMethod (mem_home_impls himpl) hname hf

end Program

/-- The instance of a closure body that a closure which is made under a binding refers to. -/
def Program.closureItem (p : Program) (b : Bindings) (f : FunctionDef) : WorkItem :=
  .plain .func f.name ((p.closureParams f).map fun name => (Ty.param name).subst b)

/-! ### What is followed -/

/-- What is known of the steps of a compilation, and what is followed through code. -/
structure Focus (session : Session) where
  /-- The functions that code may refer to. -/
  Refers : String → Prop
  /-- The instances that are requested. -/
  Requested : WorkItem → Prop
  /-- The dispatch tables that are requested. -/
  Tabled : Dispatch.Request → Prop
  /-- The steps that are taken, with their answers. -/
  Takes : (step : Step) → step.Answer → Prop
  /-- The expressions that are lowered. -/
  Code : Expr → Prop
  /-- The expressions that are taken apart. -/
  Opens : Expr → Prop
  /-- Whether code may end without a result. -/
  Fails : Prop
  /-- The values that may be returned. -/
  Returns : Option IR.Typed → Prop
  /-- The names of locals that may be bound. -/
  Binds : String → Prop
  /-- The requests that may be put aside. -/
  Defers : WorkItem → Prop
  declared {symbol : String} {ret : IR.Ty} {params : List IR.Ty} :
    Takes (.declare symbol ret params) () → Refers symbol
  required {item : WorkItem} {symbol : String} : Takes (.require item) symbol → Requested item
  requested {item : WorkItem} : item.kind.isCode = true → Requested item →
    Refers (session.symbol item.symbol)
  deferred {item : WorkItem} : Takes (.defer item) (Symbol.placeholder item.base) →
    Refers (session.symbol (Symbol.placeholder item.base))
  listed {name : String} : session.program.Lists name → Refers (session.symbol name)
  tabled {request : Dispatch.Request} {table : String} :
    Takes (.requireTable request) table → Tabled request
  /-- What is lowered is taken apart. -/
  opens {e : Expr} : Code e → Opens e
  /-- With an expression, what it opens into is lowered. -/
  opened {whole : Expr} : Opens whole → ∀ e ∈ session.program.opened whole, Code e
  /-- With a block, the names in its statements are bound. -/
  binds {note : Note} {body : Block} {name : String} {ty : Option Ty} {init : Expr} :
    Opens (.block note body) → .bind name ty init ∈ body.stmts → Binds name
  /-- Only requests for the code of closures are followed. -/
  defers {item : WorkItem} : session.program.IsOrdinary item → Defers item

namespace Focus

variable {session : Session}

/-- The steps that are taken are known, and nothing else is followed. -/
def taking (session : Session) (Takes : (step : Step) → step.Answer → Prop) : Focus session where
  Refers _ := True
  Requested _ := True
  Tabled _ := True
  Takes := Takes
  Code _ := True
  Opens _ := True
  Fails := True
  Returns _ := True
  Binds _ := True
  Defers _ := True
  declared _ := trivial
  required _ := trivial
  requested _ _ := trivial
  deferred _ := trivial
  listed _ := trivial
  tabled _ := trivial
  opens _ := trivial
  opened _ _ _ := trivial
  binds _ _ := trivial
  defers _ := trivial

/-- Nothing is followed. -/
abbrev none (session : Session) : Focus session := taking session fun _ _ => True

variable (focus : Focus session)

/-- Only the code of a function is lowered, and any names may be bound. -/
def inCode (f : FunctionDef) : Focus session :=
  { focus with
    Code := session.program.InCode f
    Opens := session.program.InCode f
    Binds := fun _ => True
    opens := id
    opened := fun h _ he => h.opened he
    binds := fun _ _ => trivial }

/-- A callee that may be referred to if it is a function. -/
def Calls : IR.Operand → Prop
  | .global symbol => focus.Refers symbol
  | _ => True

/-- The instructions that may be emitted: calls of functions that may be referred to, and returns of
values that may be returned. -/
def Emits : IR.Instr → Prop
  | .call _ _ callee _ => focus.Calls callee
  | .ret value => focus.Returns value
  | _ => True

/-- A dispatch table is written with functions that may be referred to. -/
def Moves : Move → Prop
  | .writeTable _ entries => ∀ symbol, some symbol ∈ entries → focus.Refers symbol
  | _ => True

/-- The diagnostics that may be reported: a missing definition only as an error, for an instance
that was requested and is not found. -/
def Reports (d : Diagnostic) : Prop :=
  d.code = .missingDefinition → d.isError = true ∧
    ∃ item, focus.Requested item ∧ session.program.finds item = false

/-- The instances that may be requested. -/
structure Grants (item : WorkItem) : Prop where
  requests : session.program.Requests item
  /-- No argument is open, unless the instance is spared the check. -/
  closed : session.program.isOpenList item.allArgs = true →
    session.program.Spares focus.Tabled item

/-- The code of closures that are made under a binding may be put aside, where it stays open. -/
def Closes (b : Bindings) : Prop :=
  ∀ {note : Note} {name : String} {captures : List String} {f : FunctionDef},
    focus.Opens (.closure note name captures) → session.program.function? name = some f →
      f.isClosureBody = true → session.program.isOpenList (session.program.closureItem b f).args →
        focus.Defers (session.program.closureItem b f)

/-- The code of a function may be lowered under a binding, and it may return and bind anything. -/
structure Allows (f : FunctionDef) (b : Bindings) : Prop where
  code : ∀ body ∈ f.body, focus.Code (.block {} body)
  fails : focus.Fails
  closes : focus.Closes b
  returns : ∀ value, focus.Returns value
  binds : ∀ name, focus.Binds name

/-- All code may be lowered. -/
class IsFull (focus : Focus session) : Prop where
  /-- Any function may be lowered under any binding. -/
  allows (f : FunctionDef) (b : Bindings) : focus.Allows f b

theorem allows_taking (Takes : (step : Step) → step.Answer → Prop) (f : FunctionDef)
    (b : Bindings) : (taking session Takes).Allows f b :=
  ⟨fun _ _ => trivial, trivial, fun _ _ _ _ => trivial, fun _ => trivial, fun _ => trivial⟩

instance (Takes : (step : Step) → step.Answer → Prop) : (taking session Takes).IsFull :=
  ⟨allows_taking Takes⟩

theorem emits_taking (Takes : (step : Step) → step.Answer → Prop) (i : IR.Instr) :
    (taking session Takes).Emits i := by
  cases i with
  | call result ret callee args => cases callee <;> trivial
  | _ => trivial

variable {focus}

/-- An instance without open arguments may be requested. -/
theorem Grants.of_closed {item : WorkItem} (h : session.program.Requests item)
    (hclosed : session.program.isOpenList item.allArgs = false) : focus.Grants item :=
  ⟨h, fun hopen => (Bool.false_ne_true (hclosed.symm.trans hopen)).elim⟩

theorem Grants.of_plain {kind : InstanceKind} {base : String} {args : List Ty}
    (h : session.program.Requests (.plain kind base args))
    (hclosed : session.program.isOpenList args = false) : focus.Grants (.plain kind base args) :=
  .of_closed h (by rwa [WorkItem.allArgs, WorkItem.plain, Option.map_none, Option.getD_none,
    append_nil])

/-- A static method may be requested if the arguments for its parameters are closed. -/
theorem grants_staticOrNew (h : session.program.staticOrNew? path = some m)
    (hgeneric : (!m.generics.isEmpty || m.definition.isGeneric) = true) {bound : List Ty}
    (hlength : bound.length = (m.generics ++ m.definition.generics).length)
    (hbound : session.program.isOpenList bound = false) :
    focus.Grants (.ofMethod m.owner
      (Ty.substList (.ofArgs (m.generics ++ m.definition.generics) bound)
        ((m.pattern.asNamed?.map Prod.snd).getD []))
      (path.last?.getD "") (bound.drop m.generics.length)) := by
  refine ⟨Program.requests_staticOrNew h hgeneric _ _, fun hopen => ?_⟩
  have hdrop : session.program.isOpenList (bound.drop m.generics.length) = false :=
    Program.isOpenList_eq_false.2 fun t ht =>
      Program.isOpenList_eq_false.1 hbound t (mem_of_mem_drop ht)
  rw [WorkItem.allArgs, WorkItem.ofMethod, Option.map_some, Option.getD_some,
    Program.isOpenList_append, hdrop, Bool.or_false] at hopen
  obtain ⟨unknown, hunknown, hscope⟩ := Program.exists_notMem_of_isOpenList hbound hlength hopen
  exact Program.spares_staticOrNew h hunknown hscope hbound _

end Focus

end Monomorph
