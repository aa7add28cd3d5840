import Monomorph.Proofs.Compile.Symbols

/-!
# Every type that is mentioned is defined

The name of a type is used as soon as its instance is requested, while its definition is written
rounds later. At any moment a name that is used is one that the compilation defines, or an instance
of it is requested, or a request is put aside. All instances that are requested are generated in the
end, so that every name is defined if nothing was put aside.

Structs and unions share a kind of instance but not the start of their names. So their symbols must
be told apart, which they are when no name of a struct or union contains the separator of words.

## Main results

* `TypeDefinitions.definedName?_congr`, `Compile.definedOnce_of_compile_eq_ok`.
-/

namespace Monomorph

open List Script Monomorph.Symbol

/-- A program whose types are told apart by their names: no two have the same one, all are referred
to by bare names, every base is a class, and no class is named like a built-in kind or a wrapper. -/
structure Program.NamesTypes (p : Program) : Prop where
  nodup : p.typeNames.Nodup
  bare : p.Over IsBare
  bases : ∀ m ∈ p.modules, ∀ d ∈ m.classes.items, ∀ base ∈ d.base, (p.class? base).isSome
  classes : ∀ name ∈ p.names Module.classes,
    Primitive.ofName? name = none ∧ Wrapper.ofName? name = none

namespace TypeDefinitions

variable (p : Program) {item : WorkItem} {name : String}

/-! ### Instances of types -/

/-- The name of the type that an instance defines. -/
def definedName? (item : WorkItem) : Option String :=
  match item.kind with
  | .struct => (p.struct? item.base).map fun d =>
      (if d.isUnion then "%union." else "%struct.") ++ item.symbol
  | .enum => (p.enum? item.base).map fun _ => "%struct." ++ item.symbol
  | .cls => (p.class? item.base).map fun _ => "%class." ++ item.symbol
  | .func | .method => none

/-- A request for code or for the instance of a known type. For structs and unions the symbol shows
which one it is. -/
structure IsRequest (item : WorkItem) : Prop where
  known : item.kind.isCode ∨ (definedName? p item).isSome
  shown : item.kind = .struct →
    Separable item.base.toList ∧ item.symbol = ofInstance item.base item.args

variable {p}

/-- Instances with one kind and symbol define one name. -/
theorem definedName?_congr {item' : WorkItem} (h : IsRequest p item) (h' : IsRequest p item')
    (hkey : item.key = item'.key) : definedName? p item = definedName? p item' := by
  obtain ⟨hkind, hsymbol⟩ := Prod.mk.inj hkey
  have hknown := h.known
  have hknown' := h'.known
  rw [definedName?] at hknown hknown'
  rw [definedName?, definedName?, ← hkind, hsymbol]
  rw [← hkind] at hknown'
  cases hcase : item.kind with
  | struct =>
    obtain ⟨hbase, hshown⟩ := h.shown hcase
    obtain ⟨hbase', hshown'⟩ := h'.shown (hkind ▸ hcase)
    rw [hshown, hshown'] at hsymbol
    rw [base_eq_of_ofInstance_eq hbase hbase' hsymbol]
  | enum | cls =>
    rw [hcase] at hknown hknown'
    obtain ⟨d, hd⟩ := Option.isSome_iff_exists.1
      (Option.isSome_map.symm.trans (hknown.resolve_left nofun))
    obtain ⟨d', hd'⟩ := Option.isSome_iff_exists.1
      (Option.isSome_map.symm.trans (hknown'.resolve_left nofun))
    dsimp only
    rw [hd, hd']
    rfl
  | func | method => rfl

/-! ### Names -/

section

variable (p) (events : List Compile.Event)

/-- A name that a compilation defines or that a requested instance defines, unless a request is put
aside. -/
inductive Named (name : String) : Prop
  | defined {body} (h : ⟨.step (.defineType name body), ()⟩ ∈ events)
  | requested {own} (h : ⟨.step (.require own), own.symbol⟩ ∈ events)
      (hname : definedName? p own = some name)
  | deferred {own symbol} (h : ⟨.step (.defer own), symbol⟩ ∈ events)

/-- A type all of whose names are so. -/
def Mentionable (t : IR.Ty) : Prop := ∀ name ∈ t.names, Named p events name

/-- A module that mentions only such types. -/
structure Written (mode : Mode) (a : IR.Assembly) : Prop where
  bodies : ∀ d ∈ a.types.toList, Mentionable p events d.body
  declarations : ∀ d ∈ a.declarations.toList, ∀ t ∈ d.types, Mentionable p events t
  functions : ∀ f ∈ a.functions.toList, f.IsStructured ∧ ∀ t ∈ f.types, Mentionable p events t
  draft : ∀ t ∈ a.draft.types, Mentionable p events t
  structured : mode = .inside → a.draft.IsStructured

/-- The local names and the constructors mention only such types too. -/
structure Inv (mode : Mode) (s : Build) : Prop where
  assembly : Written p events mode s.assembly
  scope : ∀ entry ∈ s.scope.entries, entry.2.ty.Over IsBare ∧ Mentionable p events entry.2.ir
  ctors : ∀ entry ∈ s.ctors, Mentionable p events entry.2.ret

end

/-- The names of source types are bare, and the names of types are defined or will be. -/
def facts (session : Session) (events : List Compile.Event) : Facts session where
  focus := .taking session fun step answer => ⟨.step step, answer⟩ ∈ events
  Name := IsBare
  Item := IsRequest session.program
  TypeName := Named session.program events
  Temp _ _ := True
  Inv := Inv session.program events
  Order _ _ := True
  order_refl _ := trivial
  order_trans _ _ := trivial
  temp_mono _ h := h

variable {session : Session} {events : List Compile.Event} {mode : Mode} {s s' : Build}
  {ret : IR.Ty} {step : Step} {answer : step.Answer} {args : List Ty}

/-! ### Modules -/

namespace Written

variable {a : IR.Assembly} (h : Written p events mode a)

include h

theorem defineType (name : String) {body : IR.Ty} (hbody : Mentionable p events body) :
    Written p events mode (a.defineType name body) := by
  rw [IR.Assembly.defineType]
  split
  · exact h
  · refine { h with bodies := ?_ }
    simp only [Array.toList_push]
    exact forall_mem_append.2 ⟨h.bodies, forall_mem_singleton.2 hbody⟩

theorem declare (symbol : String) {params : List IR.Ty}
    (htypes : ∀ t ∈ ret :: params, Mentionable p events t) :
    Written p events mode (a.declare symbol ret params) := by
  rw [IR.Assembly.declare]
  split
  · exact h
  · refine { h with declarations := ?_ }
    simp only [Array.toList_push]
    exact forall_mem_append.2 ⟨h.declarations, forall_mem_singleton.2 htypes⟩

theorem stringGlobal (value : String) : Written p events mode (a.stringGlobal value).2 := by
  rw [IR.Assembly.stringGlobal]
  split
  · exact h
  · exact { h with }

theorem append {line : IR.Line} (hline : line.isStructured)
    (htypes : ∀ t ∈ line.types, Mentionable p events t) :
    Written p events mode (a.append line) := by
  have hlines : (a.append line).draft.lines.toList = a.draft.lines.toList ++ [line] :=
    Array.toList_push
  refine { h with draft := ?_, structured := fun hmode => ⟨(h.structured hmode).1, ?_⟩ }
  · have htypes' : (a.append line).draft.types = a.draft.types ++ line.types := by
      rw [IR.Function.types, hlines, flatMap_append, flatMap_singleton, ← append_assoc]
      rfl
    rw [htypes']
    exact forall_mem_append.2 ⟨h.draft, htypes⟩
  · rw [hlines]
    exact forall_mem_append.2 ⟨(h.structured hmode).2, forall_mem_singleton.2 hline⟩

/-- Recording the entry of a function mentions no type name. -/
theorem cover (name : String) : Written p events mode (a.cover name) := by
  have hptr : Mentionable p events .ptr := forall_mem_nil _
  have hvoid : Mentionable p events .void := forall_mem_nil _
  rw [IR.Assembly.cover]
  split
  · have hdeclared := h.declare IR.Assembly.coverSymbol
      (forall_mem_cons.2 ⟨hvoid, forall_mem_singleton.2 hptr⟩)
    generalize a.declare IR.Assembly.coverSymbol .void [.ptr] = declared at hdeclared
    have hmarked : Written p events mode (declared.markerGlobal name).2 := by
      rw [IR.Assembly.markerGlobal]
      split
      · exact hdeclared
      · exact { hdeclared with }
    exact hmarked.append rfl (forall_mem_cons.2 ⟨hvoid, forall_mem_singleton.2 hptr⟩)
  · exact h

theorem begin (symbol : String) {params : List IR.Typed} (hret : Mentionable p events ret)
    (hparams : ∀ param ∈ params, Mentionable p events param.ty) :
    Written p events .inside (a.begin (.define ret symbol params)) := by
  refine { h with
    draft := fun t ht => ?_, structured := fun _ => ⟨⟨ret, symbol, params, rfl⟩, forall_mem_nil _⟩ }
  rw [IR.Function.types] at ht
  simp only [IR.Assembly.begin, Option.toList_some, flatMap_singleton, IR.Header.types,
    flatMap_nil, append_nil, mem_cons, mem_map] at ht
  obtain rfl | ⟨param, hparam, rfl⟩ := ht
  · exact hret
  · exact hparams param hparam

omit h in
theorem finish (h : Written p events .inside a) : Written p events .outside a.finish := by
  refine { h with functions := ?_, draft := forall_mem_nil _, structured := by rintro ⟨⟩ }
  simp only [IR.Assembly.finish, Array.toList_push]
  exact forall_mem_append.2 ⟨h.functions, forall_mem_singleton.2 ⟨h.structured rfl, h.draft⟩⟩

end Written

/-! ### States -/

/-- Steps that leave the function alone. -/
theorem Inv.quiet (h : Inv session.program events mode s)
    (hallows : (facts session events).Allows s step)
    (hperform : step.perform session s = .ok (answer, s')) :
    Inv session.program events mode s' := by
  cases step with
  | bindLocal | storeConv | fresh | freshLabel | emit | block | beginFunction
  | finishFunction => exact hallows.elim
  | registerCtor key ctor =>
    cases hperform
    rw [Build.registerCtor]
    split
    · exact h
    · exact { h with ctors := forall_mem_cons.2 ⟨hallows.2.1, h.ctors⟩ }
  | defineType name body =>
    cases hperform
    exact { h with assembly := h.assembly.defineType name hallows.2 }
  | declare symbol ret params =>
    cases hperform
    exact { h with assembly := h.assembly.declare symbol hallows }
  | stringGlobal value =>
    cases hperform
    exact { h with assembly := h.assembly.stringGlobal value }
  | _ =>
    obtain ⟨memo, rfl⟩ := Step.eq_of_perform hperform
    exact { h with }

theorem Inv.append (h : Inv p events mode s) {line : IR.Line} (hline : line.isStructured)
    (htypes : ∀ t ∈ line.types, Mentionable p events t) : Inv p events mode (s.append line) :=
  { h with assembly := h.assembly.append hline htypes }

/-- An instruction whose types are good. -/
theorem Inv.emit (h : Inv session.program events mode s) {i : IR.Instr}
    (hi : (facts session events).Ok s' i) : Inv session.program events mode (s.emit i) :=
  h.append rfl hi.1

theorem Inv.takeTemp (h : Inv p events mode s) : Inv p events mode s.takeTemp :=
  { h with assembly := { h.assembly with } }

theorem Inv.move {move : Move} {answer : move.Answer} (h : Inv p events mode s)
    (hmove : move.IsBetween) (hperform : move.perform session s = .ok (answer, s')) :
    Inv p events mode s' := by
  cases move with
  | step own => exact hmove.elim
  | takeRound =>
    obtain ⟨-, -, rfl⟩ | ⟨-, -, rfl⟩ := Build.takeRound_eq_ok hperform
    · exact h
    · exact { h with }
  | _ =>
    cases hperform
    exact { h with assembly := { h.assembly with } }

theorem ok_operand (operand : IR.Operand) : (facts session events).Ok s operand := by
  cases operand <;> trivial

/-- Code generation one line after the other. -/
def linear (session : Session) (events : List Compile.Event) : Linear session where
  toFacts := facts session events
  quiet h hallows _ hperform := ⟨h.quiet hallows hperform, trivial⟩
  takeTemp h := ⟨h.takeTemp, trivial⟩
  result _ _ h _ _ hi _ := ⟨h.emit hi, trivial, trivial⟩
  effect h _ _ hi _ := ⟨h.emit hi, trivial⟩
  takeLabel h := ⟨{ h with assembly := { h.assembly with } }, trivial⟩
  place _ h := ⟨h.append rfl (forall_mem_nil _), trivial⟩
  leave h _ hi _ := ⟨h.emit hi, trivial⟩
  join _ _ h hty _ _ := ⟨h.takeTemp.append rfl (forall_mem_singleton.2 hty), trivial, trivial⟩

/-! ### Types -/

/-- Where an instance is requested, the name of the type that it defines is good. -/
theorem ensures_request {kind : InstanceKind} {base : String} (sigil : String)
    (hargs : ∀ t ∈ args, t.Over IsBare) (isOpen : Bool)
    (hdefined : definedName? session.program (.plain kind base args) =
      some (sigil ++ ofInstance base args))
    (hshown : kind = .struct → Separable base.toList) :
    (linear session events).Ensures mode s (Gen.request (.plain kind base args) isOpen)
      fun _ symbol => Named session.program events (sigil ++ ofInstance base args) ∧
        Mentionable session.program events (.named (sigil ++ symbol)) := by
  have hrequest : IsRequest session.program (.plain kind base args) :=
    ⟨.inr (hdefined ▸ rfl), fun hkind => ⟨hshown hkind, rfl⟩⟩
  rw [Gen.request]
  split
  · exact Elements.ensures_perform trivial fun _ _ _ _ htakes =>
      ⟨.deferred htakes, forall_mem_singleton.2 (.deferred htakes)⟩
  · refine Elements.ensures_perform ⟨hrequest, hargs, Facts.ok_none⟩
      fun answer s' hperform _ htakes => ?_
    cases hperform
    exact ⟨.requested htakes hdefined, forall_mem_singleton.2 (.requested htakes hdefined)⟩

/-- The representation of a struct, enum or class instance mentions a good name. -/
theorem sound_definedType (hname : IsBare name) (hargs : ∀ t ∈ args, t.Over IsBare)
    (hseparable : ∀ own ∈ session.program.names Module.structs, Separable own.toList) :
    (linear session events).Sound mode s (Gen.definedType name args) := by
  refine .program ?_
  dsimp only
  split
  next d hd =>
    obtain ⟨rfl, hmem⟩ := Program.name_of_lookup hname hd
    refine .bind (ensures_request _ hargs _ ?_ fun _ => hseparable _ hmem)
      fun symbol s₂ _ hsymbol => .pure hsymbol.2
    exact congrArg (Option.map _) hd
  · split
    next d hd =>
      obtain ⟨rfl, -⟩ := Program.name_of_lookup hname hd
      refine .bind (ensures_request "%struct." hargs _ ?_ ?_) fun symbol s₂ _ hsymbol => .pure ?_
      · exact congrArg (Option.map _) hd
      · rintro ⟨⟩
      · split
        · exact forall_mem_nil _
        · exact hsymbol.2
    · split
      next d hd =>
        obtain ⟨rfl, -⟩ := Program.name_of_lookup hname hd
        refine .bind (ensures_request "%class." hargs _ ?_ ?_) fun symbol s₂ _ hsymbol => .pure ?_
        · exact congrArg (Option.map _) hd
        · rintro ⟨⟩
        · split
          · exact hsymbol.2
          · exact forall_mem_nil _
      · exact .pure (forall_mem_nil _)

/-- Every name under which the block of a class is asked for is found, and found as a class. -/
theorem class?_of_namesClass (hp : p.NamesTypes) (hclass : p.NamesClass name)
    (hname : IsBare name) :
    ∃ d, p.class? name = some d ∧ d.name = name ∧
      p.struct? name = none ∧ p.enum? name = none ∧ Primitive.ofName? name = none ∧
      Wrapper.ofName? name = none := by
  have hmem : name ∈ p.names Module.classes := by
    cases hclass with
    | found h => exact (Program.name_of_lookup hname h).2
    | own hm hd => exact mem_flatMap.2 ⟨_, hm, mem_map_of_mem hd⟩
    | base hm hd h => exact (Program.isSome_lookup_iff hname).1 (hp.bases _ hm _ hd _ h)
  obtain ⟨d, hd⟩ := Option.isSome_iff_exists.1 ((Program.isSome_lookup_iff hname).2 hmem)
  obtain ⟨hstruct, henum⟩ := Program.notMem_of_mem_classes hp.nodup hmem
  obtain ⟨hprimitive, hwrapper⟩ := hp.classes name hmem
  exact ⟨d, hd, (Program.name_of_lookup hname hd).1, Program.lookup_eq_none hname hstruct,
    Program.lookup_eq_none hname henum, hprimitive, hwrapper⟩

/-- The block of a class has a good name, whether its instances are values or not. -/
theorem sound_classStruct (hp : session.program.NamesTypes)
    (hclass : session.program.NamesClass name) (hname : IsBare name)
    (hargs : ∀ t ∈ args, t.Over IsBare) :
    (linear session events).Sound mode s (Gen.classStruct name args) := by
  obtain ⟨d, hd, rfl, hstruct, henum, hprimitive, hwrapper⟩ :=
    class?_of_namesClass hp hclass hname
  have hirType : Gen.irType (.ofName d.name args) = Gen.definedType d.name args := by
    rw [Ty.ofName, Gen.irType, hprimitive, ite_self]
    simp only [Gen.nominalType, hwrapper]
  have hensures : (linear session events).Ensures mode s (Gen.definedType d.name args) fun _ _ =>
      Named session.program events ("%class." ++ ofInstance d.name args) := by
    refine .program ?_
    simp only [hstruct, henum, hd]
    refine .bind (ensures_request _ hargs _ ?_ (by rintro ⟨⟩))
      fun symbol s₂ _ hsymbol => .pure hsymbol.1
    exact congrArg (Option.map _) hd
  rw [Gen.classStruct, hirType]
  exact .bind (Q := fun _ _ => Named session.program events _)
    (.bind hensures fun _ _ _ h => .pure h) fun _ _ _ h => .pure (forall_mem_singleton.2 h)

/-! ### Definitions -/

/-- Every run of the script defines a type. -/
def Defines (session : Session) (name : String) {α : Type} (m : Gen α) : Prop :=
  ∀ s events a s', session.Runs m s events a s' →
    ∃ body, ⟨.defineType name body, ()⟩ ∈ events

theorem defines_bind {α β : Type} (m : Gen α) {f : α → Gen β}
    (hf : ∀ a, Defines session name (f a)) :
    Defines session name (m >>= f) := by
  intro s events b last hrun
  obtain ⟨first, a, mid, rest, -, hrest, rfl⟩ := hrun.of_bind
  obtain ⟨body, hmem⟩ := hf a mid rest b last hrest
  exact ⟨body, mem_append_right _ hmem⟩

theorem defines_defineType (name : String) (body : IR.Ty) :
    Defines session name (Gen.defineType name body) := by
  intro s events answer s' hrun
  obtain ⟨-, rfl⟩ := hrun.of_ask
  exact ⟨body, mem_cons_self⟩

theorem defines_defineStruct (d : StructDef) (args : List Ty) (symbol : String) :
    Defines session ((if d.isUnion then "%union." else "%struct.") ++ symbol)
      (Gen.defineStruct d args symbol) := by
  rw [Gen.defineStruct]
  split
  · exact defines_bind _ fun _ => defines_bind _ fun _ => defines_defineType _ _
  · exact defines_bind _ fun _ => defines_defineType _ _

theorem defines_defineEnum (d : EnumDef) (args : List Ty) (symbol : String) :
    Defines session ("%struct." ++ symbol) (Gen.defineEnum d args symbol) :=
  defines_bind _ fun _ => defines_bind _ fun _ => defines_defineType _ _

theorem defines_defineClass (d : ClassDef) (args : List Ty) (symbol : String) :
    Defines session ("%class." ++ symbol) (Gen.defineClass d args symbol) := by
  rw [Gen.defineClass]
  split <;> exact defines_bind _ fun _ => defines_bind _ fun _ => defines_defineType _ _

theorem defines_generate (h : definedName? session.program item = some name) :
    Defines session name (Gen.generate item) := by
  intro s events a last hrun
  obtain ⟨kind, base, args, method, symbol⟩ := item
  have hown {m : Gen Unit} (hm : Defines session name m)
      (hfound : ∃ own, session.Runs m s own () last ∧
        events = ⟨.program, session.program⟩ :: own) :
      ∃ body, ⟨.defineType name body, ()⟩ ∈ events := by
    obtain ⟨own, hown, rfl⟩ := hfound
    obtain ⟨body, hmem⟩ := hm s own () last hown
    exact ⟨body, mem_cons_of_mem _ hmem⟩
  cases kind with
  | struct =>
    obtain ⟨d, hd, rfl⟩ := Option.map_eq_some_iff.1 h
    exact hown (defines_defineStruct d args symbol) (Gen.runs_generate_of rfl hd hrun)
  | enum =>
    obtain ⟨d, hd, rfl⟩ := Option.map_eq_some_iff.1 h
    exact hown (defines_defineEnum d args symbol) (Gen.runs_generate_of rfl hd hrun)
  | cls =>
    obtain ⟨d, hd, rfl⟩ := Option.map_eq_some_iff.1 h
    exact hown (defines_defineClass d args symbol) (Gen.runs_generate_of rfl hd hrun)
  | func | method => cases h

/-! ### The discipline -/

variable (session events) (hp : session.program.NamesTypes)
  (hseparable : ∀ own ∈ session.program.names Module.structs, Separable own.toList)

/-- Code generation mentions only names that are defined or will be. -/
def discipline : Discipline session where
  toElements := (linear session events).toElements
  program := hp.bare
  code h _ := ⟨.inl h, fun hkind => by rw [hkind] at h; cases h⟩
  scope h entry hentry := ⟨trivial, ok_operand _, h.scope entry hentry⟩
  ctors h entry hentry := ⟨trivial, h.ctors entry hentry, trivial⟩
  bindLocal _ h hl := ⟨{ h with scope := forall_mem_cons.2 ⟨hl.2, h.scope⟩ }, trivial⟩
  defined := .defined
  definedType hname hargs := sound_definedType hname hargs hseparable
  classStruct hclass hname hargs := sound_classStruct hp hclass hname hargs
  stop hend _ hi := Linear.stop hend hi
  assertThat := Linear.assertThat
  callEither := Linear.callEither
  begin symbol h hret hparams :=
    have hbegun := h.assembly.begin symbol hret fun param hparam => (hparams param hparam).1
    { h with scope := forall_mem_nil _, assembly := hbegun.cover _ }
  finish h hvalue _ :=
    have hemit := h.emit (Facts.ok_ret hvalue)
    { hemit with assembly := hemit.assembly.finish }
  move h hmove _ hperform := h.move hmove hperform

instance : (discipline session events hp hseparable).IsFull :=
  ⟨Focus.allows_taking _⟩

end TypeDefinitions

/-! ### First definitions -/

theorem IR.Assembly.definesType_iff {a : Assembly} {name : String} :
    a.definesType name ↔ name ∈ a.types.toList.map TypeDef.name := by
  rw [definesType, Array.any_eq_true', mem_map]
  simp

theorem IR.Assembly.types_cover (a : Assembly) (name : String) :
    (a.cover name).types = a.types := by
  rw [cover]
  split
  · simp only [declare, markerGlobal]
    (repeat' split) <;> rfl
  · rfl

/-- What a step does to the types of a module. -/
def Step.onTypes : Step → IR.Assembly → IR.Assembly
  | defineType name body, a => a.defineType name body
  | _, a => a

theorem Step.types_of_perform {session : Session} {step : Step} {answer : step.Answer}
    {s s' : Build} (h : step.perform session s = .ok (answer, s')) :
    s'.assembly.types = (step.onTypes s.assembly).types := by
  cases step with
  | declare symbol ret params =>
    cases h
    simp only [IR.Assembly.declare]
    split <;> rfl
  | stringGlobal value =>
    cases h
    simp only [IR.Assembly.stringGlobal]
    split <;> rfl
  | beginFunction ret symbol params =>
    cases h
    exact IR.Assembly.types_cover _ _
  | _ =>
    obtain ⟨memo, rfl⟩ := eq_of_perform h
    rfl

namespace Compile

/-- The type that an event defines. -/
def typeDefined : Event → List IR.TypeDef
  | ⟨.step (.defineType name body), _⟩ => [⟨name, body⟩]
  | _ => []

/-- The types of a state are the first definitions of a history. -/
def TypesAgree (history : List Event) (s : Build) : Prop :=
  s.assembly.types.toList = firsts IR.TypeDef.name (history.flatMap typeDefined)

variable {session : Session} {history : List Event} {s s' : Build}

section

variable (h : TypesAgree history s)

include h

theorem TypesAgree.idle {event : Event} (hevent : typeDefined event = [])
    (htypes : s'.assembly.types = s.assembly.types) : TypesAgree (history ++ [event]) s' := by
  rw [TypesAgree, flatMap_concat_of_nil hevent, htypes]
  exact h

theorem TypesAgree.defineType (name : String) (body : IR.Ty) :
    TypesAgree (history ++ [⟨.step (.defineType name body), ()⟩])
      { s with assembly := s.assembly.defineType name body } := by
  have hdefined : s.assembly.definesType name ↔
      name ∈ (history.flatMap typeDefined).map IR.TypeDef.name := by
    rw [IR.Assembly.definesType_iff, h, mem_map_firsts]
  rw [TypesAgree, flatMap_concat, typeDefined, firsts_concat, IR.Assembly.defineType]
  by_cases hname : s.assembly.definesType name
  · rw [if_pos hname, if_pos (hdefined.1 hname)]
    exact h
  · rw [if_neg hname, if_neg fun hmem => hname (hdefined.2 hmem), ← h]
    exact Array.toList_push

theorem TypesAgree.step {own : Step} {answer : own.Answer}
    (hperform : own.perform session s = .ok (answer, s')) :
    TypesAgree (history ++ [⟨.step own, answer⟩]) s' := by
  have htypes := own.types_of_perform hperform
  cases own with
  | defineType name body =>
    cases hperform
    exact h.defineType name body
  | _ => exact h.idle rfl htypes

theorem TypesAgree.perform {move : Move} {answer : move.Answer}
    (hmove : move.perform session s = .ok (answer, s')) :
    TypesAgree (history ++ [⟨move, answer⟩]) s' := by
  cases move with
  | step own => exact h.step hmove
  | takeRound =>
    obtain ⟨-, rfl, rfl⟩ | ⟨-, rfl, rfl⟩ := Build.takeRound_eq_ok hmove <;> exact h.idle rfl rfl
  | _ =>
    cases hmove
    exact h.idle rfl rfl

end

/-- The types of a result are the first definitions. -/
theorem types_eq_firsts {program : Program} {settings : Settings} {events : List Event}
    (h : Runs (Move.perform ⟨program, settings⟩) all (.initial settings) events () s) :
    s.assembly.types.toList = firsts IR.TypeDef.name (events.flatMap typeDefined) :=
  h.invariant (P := TypesAgree) (fun _ _ _ _ _ _ h hmove => h.perform hmove) all.only_true [] rfl

/-- What is defined in the course of a compilation is defined in the result. -/
theorem mem_types_of_event {program : Program} {settings : Settings} {events : List Event}
    (h : Runs (Move.perform ⟨program, settings⟩) all (.initial settings) events () s)
    {name : String} {body : IR.Ty} (hevent : ⟨.step (.defineType name body), ()⟩ ∈ events) :
    name ∈ s.assembly.types.toList.map IR.TypeDef.name := by
  rw [types_eq_firsts h, mem_map_firsts]
  exact mem_map.2 ⟨⟨name, body⟩, mem_flatMap.2 ⟨_, hevent, mem_singleton_self _⟩, rfl⟩

/-- In a compiled module without requests that were put aside, every name that occurs in a type
body, a declaration, a function header or an instruction is defined by exactly one type definition.
No header and no line is given by its text. -/
theorem definedOnce_of_compile_eq_ok {program : Program} {settings : Settings} {output : Output}
    (hp : program.NamesTypes)
    (hseparable : ∀ name ∈ program.names Module.structs, Separable name.toList)
    (h : compile program settings = .ok output) (hdeferred : output.deferred = []) :
    (∀ t ∈ output.assembly.mentioned, ∀ name ∈ t.names,
      (output.assembly.types.toList.map IR.TypeDef.name).count name = 1) ∧
    ∀ f ∈ output.assembly.functions.toList, f.IsStructured := by
  obtain ⟨events, s, hruns, rfl⟩ := runs_of_compile_eq_ok h
  have hinitial : TypeDefinitions.Inv program events .outside (.initial settings) :=
    ⟨⟨List.forall_mem_nil _, List.forall_mem_nil _, List.forall_mem_nil _, List.forall_mem_nil _,
      by rintro ⟨⟩⟩, List.forall_mem_nil _, List.forall_mem_nil _⟩
  obtain ⟨hinv, -, haccepts⟩ := Discipline.of_runs_all
    (D := TypeDefinitions.discipline ⟨program, settings⟩ events hp hseparable) hinitial hruns
    fun _ _ h => h
  have hwritten : TypeDefinitions.Written program events .outside s.assembly := hinv.assembly
  have hdefined : ∀ t, TypeDefinitions.Mentionable program events t → ∀ name ∈ t.names,
      (s.assembly.types.toList.map IR.TypeDef.name).count name = 1 := by
    intro t ht name hname
    have hdistinct : (s.assembly.types.toList.map IR.TypeDef.name).Nodup := by
      rw [types_eq_firsts hruns]
      exact nodup_map_firsts _ _
    refine List.count_eq_one_of_mem hdistinct ?_
    cases ht name hname with
    | defined hevent => exact mem_types_of_event hruns hevent
    | @requested item hevent hitem =>
      -- An instance with the same kind and symbol was generated, and it defines the same name.
      have hcount := ((ledger_initial settings).runs hruns).count_processed (runs_all hruns).2.1
        (mem_flatMap.2 ⟨_, hevent, mem_singleton_self item⟩)
      obtain ⟨own, hown, hkey⟩ := mem_map.1 (count_pos_iff.1 (hcount ▸ Nat.one_pos))
      have hrequest := haccepts _ (require_of_mem_processed hruns hown) s
      have hsame := TypeDefinitions.definedName?_congr hrequest.1 (haccepts _ hevent s).1 hkey
      obtain ⟨t, during, t', hown⟩ := performs_generate h hown
      obtain ⟨body, hmem⟩ :=
        TypeDefinitions.defines_generate (hsame.trans hitem) t during () t' hown.runs
      obtain ⟨_, last, hall, heq, hpart⟩ := hown.occurs.part
      have htypes : last.assembly.types = s.assembly.types := congrArg (·.assembly.types) heq
      rw [← htypes]
      exact mem_types_of_event hall (hpart.subset (mem_map_of_mem hmem))
    | deferred hevent => exact absurd hdeferred (deferred_of_event hruns hevent)
  refine ⟨fun t ht => hdefined t ?_, fun f hf => (hwritten.functions f hf).1⟩
  rw [IR.Assembly.mentioned, List.mem_append, List.mem_append] at ht
  obtain (ht | ht) | ht := ht
  · obtain ⟨d, hd, rfl⟩ := List.mem_map.1 ht
    exact hwritten.bodies d hd
  · obtain ⟨d, hd, ht⟩ := List.mem_flatMap.1 ht
    exact hwritten.declarations d hd t ht
  · obtain ⟨f, hf, ht⟩ := List.mem_flatMap.1 ht
    exact (hwritten.functions f hf).2 t ht

/-- A union, a struct, an enum and a class with a base, all of which a function takes. -/
def sampler : Program where
  home := {
    structs := .ofList [
      { name := "Pair", generics := ["A"], fields := [{ name := "first", ty := .ofName "A" [] }] },
      { name := "Bits", generics := ["A"], isUnion := true
        fields := [{ name := "word", ty := .ofName "A" [] }] }]
    enums := .ofList [
      { name := "Choice", variants := [{ name := "One", payload := [.prim .i64] }] }]
    classes := .ofList [
      { name := "Shape" }, { name := "Circle", base := some "Shape", isDeclaredValue := true }]
    functions := .ofList [
      { name := "take"
        params := [⟨"pair", .ofName "Pair" [.ofName "Choice" []]⟩,
          ⟨"bits", .ofName "Bits" [.prim .i32]⟩, ⟨"circle", .classRef "Circle"⟩]
        body := some (.mk [] none) }] }

theorem namesTypes_sampler : sampler.NamesTypes where
  nodup := by decide
  bare := by decide +kernel
  bases := by decide
  classes := by decide

theorem definedOnce_of_compile_eq_ok_sampler :
    ∃ output, compile sampler { depth := 9 } = .ok output ∧
      output.assembly.types.toList.map IR.TypeDef.name =
        ["%struct.Pair__Choice", "%union.Bits__I32", "%class.Circle", "%struct.Choice",
          "%class.Shape"] ∧
      (∀ t ∈ output.assembly.mentioned, ∀ name ∈ t.names,
        (output.assembly.types.toList.map IR.TypeDef.name).count name = 1) ∧
      ∀ f ∈ output.assembly.functions.toList, f.IsStructured := by
  refine exists_of_compile_and (fun output hcompile _ => ?_) (by decide +kernel)
  have hdeferred := of_compile_eq_ok (P := fun output => output.deferred = []) hcompile
    (by decide +kernel)
  exact definedOnce_of_compile_eq_ok namesTypes_sampler (by decide) hcompile hdeferred

/-- A struct whose name is the symbol of an instance of a union. -/
def overlapping : Program where
  home := {
    structs := .ofList [
      { name := "A__I32", fields := [{ name := "x", ty := .prim .i32 }] },
      { name := "A", generics := ["T"], isUnion := true
        fields := [{ name := "x", ty := .ofName "T" [] }] }]
    functions := .ofList [
      { name := "f"
        params := [⟨"p", .ofName "A__I32" []⟩, ⟨"q", .ofName "A" [.prim .i32]⟩]
        body := some (.mk [] none) }] }

theorem namesTypes_overlapping : overlapping.NamesTypes where
  nodup := by decide
  bare := by decide +kernel
  bases := by decide
  classes := by decide

/-- Where the name of a struct contains the separator, the instance of a union can have its symbol.
Only the first of the two is requested, and the type of the other is mentioned but not defined. -/
theorem undefined_of_overlapping :
    overlapping.NamesTypes ∧ ∃ output, compile overlapping { depth := 9 } = .ok output ∧
      output.deferred = [] ∧ .named "%union.A__I32" ∈ output.assembly.mentioned ∧
      (output.assembly.types.toList.map IR.TypeDef.name).count "%union.A__I32" = 0 :=
  ⟨namesTypes_overlapping, exists_of_compile (by decide +kernel)⟩

end Compile

end Monomorph
