import Monomorph.Proofs.Compile.Functions
import Monomorph.Proofs.Source.Mentions

/-!
# Closures and their bodies

A closure copies what it captures into a record, under the binding of the function that makes it.
The code that reads the record is generated rounds later, under a binding that pairs the sorted
names that are open in the closure body with the arguments of a request. Both must see the same
types, or captures are read at wrong offsets.

Where names are unique and clean and no bound name is the name of a type, they do: the names that
are open in a body are all the names that a binding can change in its types, and the symbol of a
request determines its arguments up to qualifiers, which no representation depends on. A struct that
is called like the head of a tuple breaks this, since two different arguments then have one symbol.

## Main results

* `Compile.closure_agreesWithBody`, `Compile.closure_disagrees_of_headWord`.
-/

namespace Monomorph

open List Script Monomorph.Symbol

variable {session : Session} {s s' : Build} {events : Gen.Trace}
  {f : FunctionDef} {l : Lowering} {addr : IR.Operand} {args : List Ty} {record : IR.Ty}
  {index i : Nat} {later : Gen.Trace} {span : Span} {capture : ParamSlot}
  {symbol : String}

/-! ### Environment records -/

/-- The events that reach a member of the record at an address. -/
def reaching (record : IR.Ty) (addr : IR.Operand) (index slot : Nat) : List (Event Step.Answer) :=
  [⟨.fresh, slot⟩, ⟨.emit (.member slot record addr index), ()⟩]

/-- Some events store a value of a type in a member of the record at an address. -/
def StoresMember (record : IR.Ty) (addr : IR.Operand) (index : Nat) (ir : IR.Ty)
    (events : List (Event Step.Answer)) : Prop :=
  ∃ slot operand, reaching record addr index slot ++
    [⟨.emit (.store ⟨ir, operand⟩ (.temp slot)), ()⟩] <:+: events

/-- Some events make a member of the record at an address the place of a name. -/
def BindsMember (record : IR.Ty) (addr : IR.Operand) (index : Nat) (slot : ParamSlot)
    (events : List (Event Step.Answer)) : Prop :=
  ∃ r, reaching record addr index r ++
    [⟨.bindLocal slot.name { storage := .slot (.temp r), ty := slot.ty, ir := slot.ir }, ()⟩] <:+:
      events

theorem StoresMember.mono {ir : IR.Ty} (h : StoresMember record addr index ir events)
    (hwithin : events <:+: later) : StoresMember record addr index ir later := by
  obtain ⟨slot, operand, h⟩ := h
  exact ⟨slot, operand, h.trans hwithin⟩

theorem BindsMember.mono {slot : ParamSlot} (h : BindsMember record addr index slot events)
    (hwithin : events <:+: later) : BindsMember record addr index slot later := by
  obtain ⟨r, h⟩ := h
  exact ⟨r, h.trans hwithin⟩

theorem Gen.eq_reaching_of_member {operand : IR.Operand}
    (h : session.Runs (Gen.member record addr index) s events operand s') :
    ∃ slot, operand = .temp slot ∧ events = reaching record addr index slot := by
  obtain ⟨rfl, -, rfl⟩ := Gen.runs_result h
  exact ⟨_, rfl, rfl⟩

/-- Captured values are stored in the members of the record, from an index on. -/
theorem Lowering.storesMember_of_storeCaptures {environment : IR.Operand}
    {captures : List (String × IR.Ty)}
    (h : session.Runs (l.storeCaptures record environment span index captures) s
      events () s')
    {capture : String × IR.Ty} (hi : captures[i]? = some capture) :
    StoresMember record environment (index + i) capture.2 events := by
  induction captures generalizing index i s events with
  | nil => cases hi
  | cons first captures ih =>
    obtain ⟨lowering, value, s₁, rest₁, -, h₁, rfl⟩ := h.of_bind
    obtain ⟨reach, addr, s₂, rest₂, hreach, h₂, rfl⟩ := h₁.of_bind
    obtain ⟨rest, h₃, rfl⟩ := h₂.of_ask_bind rfl
    obtain ⟨slot, rfl, rfl⟩ := Gen.eq_reaching_of_member hreach
    cases i with
    | zero =>
      cases hi
      exact ⟨slot, value.operand, lowering, rest, by simp⟩
    | succ i =>
      have hlater := ih h₃ hi
      rw [Nat.add_right_comm index 1 i] at hlater
      exact hlater.mono (infix_append_of_infix_right (infix_append_of_infix_right
        (infix_cons infix_rfl)))

/-- Captured names have their places in the members of the record, from an index on. -/
theorem Gen.bindsMember_of_bindCaptures {captures : List ParamSlot}
    (h : session.Runs (Gen.bindCaptures record index captures) s events () s')
    (hi : captures[i]? = some capture) : BindsMember record .env (index + i) capture events := by
  induction captures generalizing index i s events with
  | nil => cases hi
  | cons first captures ih =>
    obtain ⟨reach, addr, s₁, rest₁, hreach, h₁, rfl⟩ := h.of_bind
    obtain ⟨rest, h₂, rfl⟩ := h₁.of_ask_bind rfl
    obtain ⟨slot, rfl, rfl⟩ := Gen.eq_reaching_of_member hreach
    cases i with
    | zero =>
      cases hi
      exact ⟨slot, [], rest, by simp⟩
    | succ i =>
      have hlater := ih h₂ hi
      rw [Nat.add_right_comm index 1 i] at hlater
      exact hlater.mono (infix_append_of_infix_right (infix_cons infix_rfl))

/-- The code of a closure gives its captures their places in the environment record. -/
theorem Gen.bindsMember_of_lowerFunction (hclosure : f.isClosureBody = true) {b : Bindings}
    {receiver : Option Receiver}
    (h : session.Runs (Gen.lowerFunction f symbol b receiver) s events () s')
    (hi : (session.program.slots b f.captures)[i]? = some capture) :
    BindsMember (.anon ((session.program.slots b f.captures).map ParamSlot.ir)) .env i capture
      events := by
  rw [Gen.lowerFunction, hclosure] at h
  obtain ⟨representing, slots, s₁, rest₁, -, h₁, rfl⟩ := h.of_bind
  obtain ⟨returning, ret, s₂, rest₂, -, h₂, rfl⟩ := h₁.of_bind
  obtain ⟨beginning, _, s₃, rest₃, -, h₃, rfl⟩ := h₂.of_bind
  rw [if_pos rfl] at h₃
  obtain ⟨placing, s₄, rest₄, -, h₄, rfl⟩ := (Gen.gives_paramSlots session b f.captures).of_bind h₃
  obtain ⟨binding, _, s₅, rest₅, hbind, -, rfl⟩ := h₄.of_bind
  have hmember := Gen.bindsMember_of_bindCaptures hbind hi
  rw [Nat.zero_add] at hmember
  refine hmember.mono ⟨representing ++ returning ++ beginning ++ placing, rest₅, ?_⟩
  simp only [append_assoc]

/-! ### Closures -/

namespace Lowering

/-- The type arguments of the instance of a closure body that a closure refers to. -/
def closureArgs (l : Lowering) (p : Program) (f : FunctionDef) : List Ty :=
  (p.closureParams f).map fun name => l.subst (.param name)

/-- A binding of the open names of a closure body to arguments that are, up to qualifiers, those of
a closure does to the types of the body what the binding of the closure does. -/
theorem unqualified_subst_closureArgs {p : Program}
    (hbound : ∀ name t, l.bindings.find? name = some t → p.knowsType name = false)
    (heq : args.map Ty.unqualified = (l.closureArgs p f).map Ty.unqualified) {t : Ty}
    (ht : t ∈ f.types) :
    (t.subst (.ofArgs (p.closureParams f) args)).unqualified = (l.subst t).unqualified := by
  have hunknown : ∀ name ∈ p.closureParams f, p.knowsType name = false := by
    intro name hmem
    obtain ⟨u, -, hu⟩ := p.mem_closureParams.1 hmem
    exact Bool.eq_false_iff.2 (p.mem_openNames.1 hu).2
  rw [Ty.unqualified_subst_congr heq]
  exact Program.unqualified_subst_rebind hbound hunknown fun name hmem =>
    p.mem_closureParams.2 ⟨t, ht, hmem⟩

/-- A closure refers to the instance of its body, which it requests where it has arguments. -/
theorem runs_closureSymbol
    (hclosed : session.program.isOpenList (l.closureArgs session.program f) = false)
    (h : session.Runs (l.closureSymbol f) s events symbol s') :
    symbol = session.symbol (ofInstance f.name (l.closureArgs session.program f)) ∧
      (session.program.closureParams f ≠ [] →
        ⟨.require (.plain .func f.name (l.closureArgs session.program f)),
          ofInstance f.name (l.closureArgs session.program f)⟩ ∈ events) := by
  obtain ⟨rest, hrest, rfl⟩ := Gen.runs_program_bind h
  dsimp only at hrest
  split at hrest
  next hempty =>
    have hnil : session.program.closureParams f = [] := List.isEmpty_iff.1 hempty
    obtain ⟨rfl, -, -⟩ := Gen.runs_functionSymbol hrest
    refine ⟨?_, fun hne => absurd hnil hne⟩
    rw [closureArgs, hnil]
    rfl
  · rw [← closureArgs, hclosed] at hrest
    obtain ⟨naming, hname, rfl⟩ := hrest.of_ask_bind rfl
    obtain ⟨rfl, -, -⟩ := Gen.runs_functionSymbol hname
    exact ⟨rfl, fun _ => mem_cons_of_mem _ mem_cons_self⟩

/-- The code of a closure stores the captured values in a record and ends with the pair of the code
pointer and the record. -/
theorem closure_parts {body : String} {captures : List String} {value : Value}
    (hf : session.program.function? body = some f) (hbody : f.isClosureBody = true)
    (hcaptures : f.captures.length = captures.length)
    (hclosed : session.program.isOpenList (l.closureArgs session.program f) = false)
    (h : session.Runs (l.closure body captures span) s events value s') :
    ∃ r environment, events.getLast? = some ⟨.emit (.insertValue r
        ⟨.fatPtr, .thin (session.symbol (ofInstance f.name (l.closureArgs session.program f)))⟩
        ⟨.ptr, environment⟩ 1), ()⟩ ∧
      value.operand = .temp r ∧ value.ty = .closure (f.paramTypes.map l.subst) (l.subst f.ret) ∧
      (∀ i ir, (session.program.irs (f.captures.map fun c => l.subst c.ty))[i]? = some ir →
        StoresMember (.anon (session.program.irs (f.captures.map fun c => l.subst c.ty)))
          environment i ir events) ∧
      (session.program.closureParams f ≠ [] →
        ⟨.require (.plain .func f.name (l.closureArgs session.program f)),
          ofInstance f.name (l.closureArgs session.program f)⟩ ∈ events) := by
  obtain ⟨rest₀, h₀, rfl⟩ := Gen.runs_program_bind h
  simp only [hf, Option.filter_some, hbody, if_true, hcaptures, ne_eq, not_true_eq_false,
    if_false] at h₀
  obtain ⟨representing, s₁, rest₁, -, h₁, rfl⟩ := (Gen.gives_irs session _).of_bind h₀
  obtain ⟨sizing, size, s₂, rest₂, -, h₂, rfl⟩ := h₁.of_bind
  obtain ⟨allocating, environment, s₃, rest₃, -, h₃, rfl⟩ := h₂.of_bind
  obtain ⟨storing, _, s₄, rest₄, hstore, h₄, rfl⟩ := h₃.of_bind
  obtain ⟨naming, symbol, s₅, rest₅, hsymbol, h₅, rfl⟩ := h₄.of_bind
  obtain ⟨r, s₆, rest₆, -, h₆, rfl⟩ := h₅.of_step_bind
  obtain ⟨_, h₇, rfl⟩ := h₆.of_ask_bind rfl
  obtain ⟨rfl, rfl, -⟩ := h₇.of_pure
  obtain ⟨rfl, hrequired⟩ := runs_closureSymbol hclosed hsymbol
  refine ⟨r, environment, ?_, rfl, rfl, fun i ir hi => ?_, fun hne => ?_⟩
  · simp only [getLast?_cons, getLast?_append]
    rfl
  · have hlength : i < captures.length := by
      obtain ⟨hlt, -⟩ := List.getElem?_eq_some_iff.1 hi
      rwa [Program.irs_eq_map, length_map, length_map, hcaptures] at hlt
    have hcapture : (captures.zip
        (session.program.irs (f.captures.map fun c => l.subst c.ty)))[i]? =
          some (captures[i], ir) :=
      getElem?_zip_eq_some.2 ⟨getElem?_eq_getElem hlength, hi⟩
    have hmember := storesMember_of_storeCaptures hstore hcapture
    rw [Nat.zero_add] at hmember
    refine hmember.mono (infix_cons ?_)
    iterate 3 refine infix_append_of_infix_right ?_
    exact infix_append_left
  · refine mem_cons_of_mem _ ?_
    iterate 4 refine mem_append_right _ ?_
    exact mem_append_left _ (hrequired hne)

end Lowering

/-! ### Closure bodies -/

/-- The pieces of the functions of a module: of those at hand that need no instance, and of
instances. -/
def Session.functionCodes (session : Session) (instances : List WorkItem) : List Piece :=
  session.program.home.functions.items.flatMap session.functionPieces ++
    (instances.filter fun item => item.kind = .func).filterMap session.piece?

theorem Session.functionCodes_subset (session : Session) (instances : List WorkItem) :
    session.functionCodes instances ⊆ session.pieces instances := by
  intro piece hpiece
  obtain hhome | hinstance := mem_append.1 hpiece
  · exact mem_append_left _ (mem_append_left _ hhome)
  · obtain ⟨item, hitem, hpiece⟩ := mem_filterMap.1 hinstance
    exact mem_append_right _ (mem_filterMap.2 ⟨item, mem_of_mem_filter hitem, hpiece⟩)

/-- A function at hand that needs no instance is among the functions of the module. -/
theorem Session.exists_homePiece (hf : f ∈ session.program.home.functions.items)
    (hready : f.isReady = true) (hforeign : f.isExtern = false)
    (hparams : session.program.closureParams f = []) {instances : List WorkItem} :
    ∃ piece ∈ session.functionCodes instances,
      piece.symbol = session.symbol (ofInstance f.name []) := by
  refine ⟨.function f (session.symbol f.name) .empty none,
    mem_append_left _ (mem_flatMap.2 ⟨f, hf, ?_⟩), rfl⟩
  rw [Session.functionPieces, hready, hforeign, hparams, isEmpty_nil, Bool.not_true, Bool.and_false]
  exact mem_singleton_self _

namespace Compile

variable {program : Program} {settings : Settings} {output : Output} {piece : Piece}

/-- Every piece of a module is lowered in the course of the compilation. -/
theorem performs_of_mem_pieces (h : compile program settings = .ok output)
    (hpiece : piece ∈ Session.pieces ⟨program, settings⟩ output.instances) :
    ∃ s during s', Performs program settings output piece.script s during () s' := by
  obtain ⟨_, -, hwritten⟩ := exists_writes_of_mem_pieces h hpiece
  obtain ⟨s, during, s', hperforms, -⟩ := hwritten.lowered
  exact ⟨s, during, s', hperforms⟩

section

variable (hnames : program.NamesFunctions) (hargs : ∀ t ∈ args, t.Over .clean)

include hnames hargs

/-- A function at hand has no arguments in its symbol: it has the symbol of an instance only if this
is an instance of the function itself, without arguments. -/
theorem eq_of_home_symbol {g : FunctionDef} (hf : program.function? f.name = some f)
    (hg : g ∈ program.home.functions.items)
    (hsymbol : Session.symbol ⟨program, settings⟩ g.name =
      Session.symbol ⟨program, settings⟩ (ofInstance f.name args)) :
    g = f ∧ args = [] := by
  have hname : f.name ∈ program.names Module.functions := Program.mem_names_of_lookup hf
  have hgname : g.name ∈ program.names Module.functions :=
    mem_flatMap.2 ⟨program.home, mem_cons_self, mem_map_of_mem hg⟩
  obtain ⟨heq, hnil⟩ := key_eq_of_over_clean (hnames.separable _ hgname)
    (hnames.separable _ hname) (forall_mem_nil _) hargs (Session.symbol_inj.1 hsymbol)
  have hgfound : program.function? g.name = some g :=
    Program.lookup_of_mem hnames.nodup (hnames.bare _ hgname) mem_cons_self hg
  rw [heq, hf] at hgfound
  exact ⟨(Option.some.inj hgfound).symm, map_eq_nil_iff.1 hnil.symm⟩

/-- The functions of a module that have the symbol of an instance of a closure body are its code,
for arguments that are equal up to qualifiers. -/
theorem piece_of_symbol (h : compile program settings = .ok output) {name : String}
    (hf : program.function? name = some f) (hbody : f.isClosureBody = true)
    (hgeneric : f.isGeneric = false)
    (hpiece : piece ∈ Session.functionCodes ⟨program, settings⟩ output.instances)
    (hsymbol : piece.symbol = Session.symbol ⟨program, settings⟩ (ofInstance f.name args)) :
    ∃ args', args'.map Ty.unqualified = args.map Ty.unqualified ∧
      piece = .function f (Session.symbol ⟨program, settings⟩ (ofInstance f.name args))
        (.ofArgs (program.closureParams f) args') none := by
  have hname : f.name ∈ program.names Module.functions := Program.mem_names_of_lookup hf
  have hfound : program.function? f.name = some f :=
    Program.lookup_name hnames.nodup (hnames.bare _ hname) hf
  obtain hhome | hinstance := mem_append.1 hpiece
  · obtain ⟨g, hg, hown⟩ := mem_flatMap.1 hhome
    rw [Session.functionPieces] at hown
    split at hown
    next hready =>
      cases mem_singleton.1 hown
      obtain ⟨rfl, rfl⟩ := eq_of_home_symbol hnames hargs hfound hg hsymbol
      have hparams : program.closureParams g = [] := by
        rw [hbody, Bool.and_eq_true, Bool.true_and, Bool.not_not] at hready
        exact List.isEmpty_iff.1 hready.2
      refine ⟨[], rfl, ?_⟩
      rw [hparams]
      rfl
    · cases hown
  · obtain ⟨item, hitem, hown⟩ := mem_filterMap.1 hinstance
    obtain ⟨hitem, hkind⟩ := mem_filter.1 hitem
    have hkind : item.kind = .func := of_decide_eq_true hkind
    have hitemSymbol : item.symbol = ofInstance f.name args :=
      Session.symbol_inj.1 ((Session.symbol_of_piece? hown).symm.trans hsymbol)
    obtain ⟨hbase, heq⟩ := function_of_key hnames h hname hargs hitem (Prod.ext hkind hitemSymbol)
    rw [Session.piece?, hkind] at hown
    obtain ⟨g, hg, rfl⟩ := Option.map_eq_some_iff.1 hown
    rw [hbase, hfound] at hg
    cases hg
    refine ⟨item.args, heq, ?_⟩
    rw [Session.functionPiece, hbody, hgeneric, hitemSymbol]
    rfl

/-- An instance of a function that was requested is among the functions of the module. -/
theorem exists_piece_of_count (h : compile program settings = .ok output)
    (hf : program.function? f.name = some f)
    (hcount : (output.instances.map WorkItem.key).count (.func, ofInstance f.name args) = 1) :
    ∃ piece ∈ Session.functionCodes ⟨program, settings⟩ output.instances,
      piece.symbol = Session.symbol ⟨program, settings⟩ (ofInstance f.name args) := by
  have hmem := count_pos_iff.1 (hcount ▸ Nat.one_pos)
  obtain ⟨item, hitem, hkey⟩ := mem_map.1 hmem
  obtain ⟨hkind, hsymbol⟩ := Prod.mk.inj hkey
  have hbase := (function_of_key hnames h (Program.mem_names_of_lookup hf) hargs hitem hkey).1
  have hpiece : Session.piece? ⟨program, settings⟩ item =
      some (Session.functionPiece ⟨program, settings⟩ item f) := by
    rw [Session.piece?, hkind]
    dsimp only
    rw [hbase, hf]
    rfl
  refine ⟨_, mem_append_right _ (mem_filterMap.2
    ⟨item, mem_filter.2 ⟨hitem, decide_eq_true hkind⟩, hpiece⟩), ?_⟩
  rw [Session.symbol_of_piece? hpiece]
  exact congrArg _ hsymbol

end

/-- The code of a closure body has the header and the environment record of every binding that does
to the types of the body what its own binding does, up to qualifiers. -/
theorem code_of_unqualified_subst (hbody : f.isClosureBody = true) {symbol : String}
    {b b' : Bindings} (hsubst : ∀ t ∈ f.types, (t.subst b).unqualified = (t.subst b').unqualified)
    (h : session.Runs (Gen.lowerFunction f symbol b none) s events () s') :
    (∃ params, headers events = [.define (session.program.returnIr (f.ret.subst b')) symbol
        (⟨.ptr, .env⟩ :: params)] ∧
      params.map IR.Typed.ty = session.program.irs (f.paramTypes.map (Ty.subst b'))) ∧
    ∀ i c, f.captures[i]? = some c →
      ∃ ir, (session.program.irs (f.captures.map fun c => c.ty.subst b'))[i]? = some ir ∧
        BindsMember (.anon (session.program.irs (f.captures.map fun c => c.ty.subst b'))) .env i
          ⟨c.name, c.ty.subst b, ir⟩ events := by
  have hparams : ∀ params : List Param, (∀ param ∈ params, param.ty ∈ f.types) →
      session.program.irs (params.map fun param => param.ty.subst b) =
        session.program.irs (params.map fun param => param.ty.subst b') := by
    intro params hmem
    refine session.program.irs_congr ?_
    rw [map_map, map_map]
    exact map_congr_left fun param hparam => hsubst _ (hmem param hparam)
  refine ⟨⟨Gen.headerParams false false (session.program.slots b f.params), ?_, ?_⟩,
    fun i c hc => ?_⟩
  · have hheaders := headers_lowerFunction h
    rw [hbody, session.program.returnIr_congr (hsubst _ f.ret_mem_types)] at hheaders
    exact hheaders
  · rw [session.program.types_headerParams,
      hparams f.params fun _ => FunctionDef.ty_mem_types_of_mem_params, FunctionDef.paramTypes,
      map_map]
    rfl
  · have hrecord : (session.program.slots b f.captures).map ParamSlot.ir =
        session.program.irs (f.captures.map fun c => c.ty.subst b') := by
      rw [← hparams f.captures fun _ => FunctionDef.ty_mem_types_of_mem_captures,
        Program.irs_eq_map, Program.slots, map_map, map_map]
      rfl
    have hslot : (session.program.slots b f.captures)[i]? =
        some ⟨c.name, c.ty.subst b, session.program.ir (c.ty.subst b)⟩ := by
      rw [Program.slots, getElem?_map, hc]
      rfl
    have hmember := Gen.bindsMember_of_lowerFunction hbody h hslot
    rw [← hrecord, getElem?_map, hslot]
    exact ⟨_, rfl, hmember⟩

/-- A closure that is made under a binding, where no bound name is the name of a type and the
arguments of its body are closed, and the code that it refers to agree.

The closure is the pair of a symbol and a record. Each captured value is stored in its member of the
record, under the type that the binding of the maker gives it. There is code for the symbol whenever
an instance of the body is needed or the body is at hand. All such code is the lowering of the body
under a binding that does to every type of the body what the binding of the maker does, up to
qualifiers. Its header has the types of the closure value, after the environment, and its captured
names have their places in the members of the same record. -/
theorem closure_agreesWithBody (hnames : program.NamesFunctions) {l : Lowering} {body : String}
    {captures : List String} {span : Span} {s s' : Build}
    {during : List (Script.Event Step.Answer)} {value : Value}
    (hclosure : Performs program settings output (l.closure body captures span) s during value s')
    {f : FunctionDef} (hf : program.function? body = some f) (hbody : f.isClosureBody = true)
    (hgeneric : f.isGeneric = false) (hcaptures : f.captures.length = captures.length)
    (hbound : ∀ name t, l.bindings.find? name = some t → program.knowsType name = false)
    (hclosed : program.isOpenList (l.closureArgs program f) = false) :
    ∃ symbol r environment record,
      symbol = Session.symbol ⟨program, settings⟩ (ofInstance f.name (l.closureArgs program f)) ∧
      during.getLast? = some ⟨.emit (.insertValue r ⟨.fatPtr, .thin symbol⟩
        ⟨.ptr, environment⟩ 1), ()⟩ ∧
      value.operand = .temp r ∧ value.ty = .closure (f.paramTypes.map l.subst) (l.subst f.ret) ∧
      record = program.irs (f.captures.map fun c => l.subst c.ty) ∧
      (∀ i ir, record[i]? = some ir → StoresMember (.anon record) environment i ir during) ∧
      (program.closureParams f ≠ [] ∨
          (f ∈ program.home.functions.items ∧ f.isReady = true ∧ f.isExtern = false) →
        ∃ piece ∈ Session.functionCodes ⟨program, settings⟩ output.instances,
          piece.symbol = symbol) ∧
      ∀ piece ∈ Session.functionCodes ⟨program, settings⟩ output.instances, piece.symbol = symbol →
        ∃ b, piece = .function f symbol b none ∧
          (∀ t ∈ f.types, (t.subst b).unqualified = (l.subst t).unqualified) ∧
          (∃ t own t', Performs program settings output piece.script t own () t') ∧
          ∀ t own t', Performs program settings output piece.script t own () t' →
            (∃ params, headers own = [.define (program.returnIr (l.subst f.ret)) symbol
                (⟨.ptr, .env⟩ :: params)] ∧
              params.map IR.Typed.ty = program.irs (f.paramTypes.map l.subst)) ∧
            ∀ i c, f.captures[i]? = some c → ∃ ir, record[i]? = some ir ∧
              BindsMember (.anon record) .env i ⟨c.name, c.ty.subst b, ir⟩ own := by
  obtain ⟨r, environment, hlast, hoperand, hty, hstores, hrequired⟩ :=
    Lowering.closure_parts hf hbody hcaptures hclosed hclosure.runs
  have hcompile := hclosure.compile_eq_ok
  have hfound : program.function? f.name = some f :=
    Program.lookup_name hnames.nodup (hnames.bare _ (Program.mem_names_of_lookup hf)) hf
  have hargs : ∀ t ∈ l.closureArgs program f, t.Over .clean := by
    by_cases hparams : program.closureParams f = []
    · rw [Lowering.closureArgs, hparams]
      exact List.forall_mem_nil _
    · exact (hclosure.requests_clean hnames.types (hrequired hparams)).2
  refine ⟨_, r, environment, _, rfl, hlast, hoperand, hty, rfl, hstores, fun hcode => ?_,
    fun piece hpiece hsymbol => ?_⟩
  · by_cases hparams : program.closureParams f = []
    · obtain ⟨hhome, hready, hforeign⟩ := hcode.resolve_left (not_not_intro hparams)
      rw [Lowering.closureArgs, hparams]
      exact Session.exists_homePiece hhome hready hforeign hparams
    · exact exists_piece_of_count hnames hargs hcompile hfound
        (hclosure.count_instances (hrequired hparams))
  obtain ⟨args, heq, hpieceEq⟩ :=
    piece_of_symbol hnames hargs hcompile hf hbody hgeneric hpiece hsymbol
  have hsubst : ∀ t ∈ f.types, (t.subst (.ofArgs (program.closureParams f) args)).unqualified =
      (l.subst t).unqualified := fun t ht => Lowering.unqualified_subst_closureArgs hbound heq ht
  subst hpieceEq
  exact ⟨_, rfl, hsubst, performs_of_mem_pieces hcompile (Session.functionCodes_subset _ _ hpiece),
    fun t own t' hown => code_of_unqualified_subst hbody hsubst hown.runs⟩

/-! ### Qualified arguments -/

/-- The code of a closure that captures a value and gives back its argument. -/
def keeper : FunctionDef where
  name := "k"
  params := [⟨"n", .prim .i32⟩]
  ret := .prim .i32
  captures := [⟨"a", .ofName "T" []⟩]
  body := some (.mk [] (some (.ident {} "n")))

/-- A generic function that makes the closure. -/
def maker (name : String) : FunctionDef where
  name := name
  generics := ["T"]
  params := [⟨"a", .ofName "T" []⟩]
  body := some (.mk [.eval (.closure {} "k" ["a"])] none)

/-- A call of such a function with a struct as explicit argument, under a qualifier. -/
def makerCall (name qualifier : String) : Expr :=
  .call {} (.path {} ⟨[name], [.named qualifier "Pair" []]⟩) [pairLiteral]

/-- Two generic functions that make one closure, for a struct that is referred to by its bare name
first and under its module then. -/
def keeping : Program where
  home := {
    functions := .ofList [
      keeper, maker "g", maker "h",
      { name := "f"
        body := some (.mk [.eval (makerCall "g" ""), .eval (makerCall "h" "geo")] none) }] }
  imports := [{
    path := "geo"
    structs := .ofList [{ name := "Pair", fields := [{ name := "x", ty := .prim .i32 }] }] }]

theorem namesFunctions_keeping : keeping.NamesFunctions where
  types := by decide +kernel
  nodup := by decide
  bare := by decide
  separable := by decide

/-- The second closure is made under the qualified name. -/
theorem performs_closure_keeping (h : compile keeping { depth := 9 } = .ok output)
    (hitem : .plain .func "h" [.named "geo" "Pair" []] ∈ output.instances) :
    ∃ s during value s', Performs keeping { depth := 9 } output
      ((Lowering.ofDepth (.ofArgs ["T"] [.named "geo" "Pair" []]) (.prim .unit) 8).closure "k"
        ["a"] .dummy) s during value s' := by
  have hpiece : Session.piece? ⟨keeping, { depth := 9 }⟩
      (.plain .func "h" [.named "geo" "Pair" []]) = some (.function (maker "h") "@tml_h__Pair"
        (.ofArgs ["T"] [.named "geo" "Pair" []]) none) := rfl
  obtain ⟨t, own, t', hlower⟩ := performs_of_mem_pieces h
    (mem_append_right _ (mem_filterMap.2 ⟨_, hitem, hpiece⟩))
  obtain ⟨t, own, value, t', hblock⟩ := hlower.body_of_lowerFunction rfl rfl
  exact hblock.shape_of_block mem_cons_self

/-- The second closure is made under the qualified name, and agrees with the code that was generated
for the bare one. -/
theorem closure_agreesWithBody_keeping :
    keeping.NamesFunctions ∧ ∃ output, compile keeping { depth := 9 } = .ok output ∧
      output.instances.filter (fun item => item.kind = .func) =
        [.plain .func "g" [.named "" "Pair" []], .plain .func "h" [.named "geo" "Pair" []],
          .plain .func "k" [.named "" "Pair" []]] ∧
      ∃ s during value s', Performs keeping { depth := 9 } output
        ((Lowering.ofDepth (.ofArgs ["T"] [.named "geo" "Pair" []]) (.prim .unit) 8).closure "k"
          ["a"] .dummy) s during value s' ∧
      ∃ r environment, during.getLast? = some ⟨.emit (.insertValue r
          ⟨.fatPtr, .thin "@tml_k__Pair"⟩ ⟨.ptr, environment⟩ 1), ()⟩ ∧
        value.ty = .closure [.prim .i32] (.prim .i32) ∧
        StoresMember (.anon [.named "%struct.Pair"]) environment 0 (.named "%struct.Pair") during ∧
        ∃ b t own t', .function keeper "@tml_k__Pair" b none ∈
            Session.functionCodes ⟨keeping, { depth := 9 }⟩ output.instances ∧
          Performs keeping { depth := 9 } output
            (Gen.lowerFunction keeper "@tml_k__Pair" b none) t own () t' ∧
          (∃ params, headers own = [.define .i32 "@tml_k__Pair" (⟨.ptr, .env⟩ :: params)] ∧
            params.map IR.Typed.ty = [.i32]) ∧
          BindsMember (.anon [.named "%struct.Pair"]) .env 0
            ⟨"a", (Ty.ofName "T" []).subst b, .named "%struct.Pair"⟩ own := by
  refine ⟨namesFunctions_keeping, exists_of_compile_and (fun output hcompile hinstances => ?_)
    (by decide +kernel)⟩
  have hitem : .plain .func "h" [.named "geo" "Pair" []] ∈
      output.instances.filter (fun item => item.kind = .func) := by
    rw [hinstances]
    exact List.mem_cons_of_mem _ List.mem_cons_self
  obtain ⟨s, during, value, s', hclosure⟩ :=
    performs_closure_keeping hcompile (List.mem_of_mem_filter hitem)
  have hparams : keeping.closureParams keeper = ["T"] := by decide +kernel
  have hbound : ∀ name t, (Bindings.ofArgs ["T"] [.named "geo" "Pair" []]).find? name = some t →
      keeping.knowsType name = false := by
    intro name t hfind
    have hfind :=
      (Bindings.find?_ofArgs_map ["T"] (fun _ => .named "geo" "Pair" []) name).symm.trans hfind
    split at hfind
    · rename_i hname
      obtain rfl := List.mem_singleton.1 hname
      decide
    · cases hfind
  obtain ⟨symbol, r, environment, record, hsymbol, hlast, -, hty, hrecord, hstores, hexists,
      hbodies⟩ :=
    closure_agreesWithBody namesFunctions_keeping hclosure (f := keeper) rfl rfl rfl rfl hbound
      (by rw [Lowering.closureArgs, hparams]; decide)
  rw [Lowering.closureArgs, hparams] at hsymbol
  obtain rfl : symbol = "@tml_k__Pair" := hsymbol
  obtain rfl : record = [.named "%struct.Pair"] := hrecord.trans (by decide)
  obtain ⟨piece, hpiece, hpieceSymbol⟩ := hexists (.inl (by rw [hparams]; decide))
  obtain ⟨b, rfl, -, ⟨t, own, t', hlower⟩, hall⟩ := hbodies piece hpiece hpieceSymbol
  obtain ⟨hheader, hbinds⟩ := hall t own t' hlower
  obtain ⟨ir, hir, hmember⟩ := hbinds 0 _ rfl
  cases hir
  exact ⟨s, during, value, s', hclosure, r, environment, hlast, hty, hstores 0 _ rfl, b, t, own, t',
    hpiece, hlower, hheader, hmember⟩

/-! ### Head words -/

/-- A struct that is called like the head of a tuple, and one closure that is made for an instance
of the struct and for a tuple. -/
def closingHeadWord : Program where
  home := {
    structs := .ofList [
      { name := "tuple", generics := ["T"], fields := [{ name := "x", ty := .ofName "T" [] }] }]
    functions := .ofList [
      { name := "k", captures := [⟨"a", .ofName "T" []⟩], body := some (.mk [] none) },
      maker "g", maker "h",
      { name := "f"
        params := [⟨"p", .ofName "tuple" [.prim .i32]⟩, ⟨"q", .tuple [.prim .i32]⟩]
        body := some (.mk [.eval (.call {} (.ident {} "g") [.ident {} "p"]),
          .eval (.call {} (.ident {} "h") [.ident {} "q"])] none) }] }

theorem over_closingHeadWord :
    closingHeadWord.Over (fun name => IsClean name ∨ name = Symbol.tupleHead) := by
  decide +kernel

/-- Where a struct is called like the head of a tuple, an instance of the struct and a tuple have
one symbol. The code of the closure is generated for the struct and reads a record with the struct
in it; the closure that is made for the tuple refers to this code and stores a record with the
tuple. -/
theorem closure_disagrees_of_headWord :
    closingHeadWord.Over (fun name => IsClean name ∨ name = Symbol.tupleHead) ∧
      (closingHeadWord.names Module.functions).Nodup ∧ closingHeadWord.typeNames.Nodup ∧
      (∀ name ∈ closingHeadWord.names Module.functions, IsClean name) ∧
      closingHeadWord.knowsType "T" = false ∧
      ∃ output, compile closingHeadWord { depth := 9 } = .ok output ∧
        output.assembly.functions.toList.drop 2 = [
          { header := some (.define .void "@tml_h__tuple__1__I32" [⟨.anon [.i32], .arg "a"⟩])
            lines := #[
              .instr (.alloca 9 (.anon [.i32])),
              .instr (.store ⟨.anon [.i32], .arg "a"⟩ (.temp 9)),
              .instr (.call (some 10) .ptr (.global "@malloc") [⟨.i64, .int 4⟩]),
              .instr (.load 11 (.anon [.i32]) (.temp 9)),
              .instr (.member 12 (.anon [.anon [.i32]]) (.temp 10) 0),
              .instr (.store ⟨.anon [.i32], .temp 11⟩ (.temp 12)),
              .instr (.insertValue 13 ⟨.fatPtr, .thin "@tml_k__tuple__1__I32"⟩ ⟨.ptr, .temp 10⟩ 1),
              .instr (.ret none)] },
          { header := some (.define .void "@tml_k__tuple__1__I32" [⟨.ptr, .env⟩])
            lines := #[
              .instr (.member 14 (.anon [.named "%struct.tuple__I32"]) .env 0),
              .instr (.ret none)] }] :=
  ⟨over_closingHeadWord, by decide, by decide, by decide, by decide,
    exists_of_compile (by decide +kernel)⟩

end Compile

end Monomorph
