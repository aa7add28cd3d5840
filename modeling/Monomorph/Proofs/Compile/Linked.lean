import Monomorph.Proofs.Compile.Passages

/-!
# What a compiled module refers to

Every function that a module calls, takes as a value or lists in a dispatch table is accounted for
by the compilation that wrote the module, every instance that is requested belongs to a definition
that was found, and a missing definition is reported only of such an instance.
-/

namespace Monomorph

open List Script

/-! ### Modules -/

namespace IR

/-- The functions that a line refers to. -/
def Line.symbols : Line → List String
  | instr i => i.symbols
  | _ => []

/-- The functions that the code of a function refers to. -/
def Function.symbols (f : Function) : List String := f.lines.toList.flatMap Line.symbols

/-- The functions that a constant lists. -/
def Global.symbols : Global → List String
  | table _ entries => entries.filterMap id
  | _ => []

namespace Assembly

/-- The functions that a module refers to: in its code and in its dispatch tables. -/
def symbols (a : Assembly) : List String :=
  a.functions.toList.flatMap Function.symbols ++ a.globals.toList.flatMap Global.symbols

/-- The functions that a module and the function being drafted refer to are declared or in a given
set. -/
def Covers (a : Assembly) (C : String → Prop) : Prop :=
  ∀ symbol ∈ a.symbols ++ a.draft.symbols, C symbol ∨ a.declares symbol = true

variable {a : Assembly} {C : String → Prop}

/-- A module that refers to more covers it, if what is new is covered. -/
theorem Covers.extend (h : a.Covers C) {a' : Assembly}
    (hdeclares : ∀ symbol, a.declares symbol = true → a'.declares symbol = true)
    (hsymbols : ∀ symbol ∈ a'.symbols ++ a'.draft.symbols,
      symbol ∈ a.symbols ++ a.draft.symbols ∨ C symbol ∨ a'.declares symbol = true) :
    a'.Covers C := by
  intro symbol hsymbol
  obtain hold | hnew := hsymbols symbol hsymbol
  · exact (h symbol hold).imp_right (hdeclares symbol)
  · exact hnew

theorem declares_declare (a : Assembly) (symbol : String) (ret : Ty) (params : List Ty) :
    (a.declare symbol ret params).declares symbol = true := by
  rw [declare]
  split
  · assumption
  · simp [declares]

theorem declares_of_declares (symbol : String) (ret : Ty) (params : List Ty) {other : String}
    (h : a.declares other = true) : (a.declare symbol ret params).declares other = true := by
  rw [declare]
  split
  · exact h
  · rw [declares, Array.any_push, Bool.or_eq_true]
    exact .inl h

variable (h : a.Covers C)

include h

theorem Covers.declare (symbol : String) (ret : Ty) (params : List Ty) :
    (a.declare symbol ret params).Covers C := by
  refine h.extend (fun _ => declares_of_declares symbol ret params) fun own hown => .inl ?_
  rw [Assembly.declare] at hown
  split at hown <;> exact hown

theorem Covers.defineType (name : String) (body : Ty) : (a.defineType name body).Covers C := by
  rw [Assembly.defineType]
  split <;> exact h

/-- A constant whose entries are covered. -/
theorem Covers.addGlobal {g : Global} (hg : ∀ symbol ∈ g.symbols, C symbol) :
    (a.addGlobal g).Covers C := by
  refine h.extend (fun _ hdeclares => hdeclares) fun symbol hsymbol => ?_
  simp only [Assembly.symbols, Assembly.addGlobal, Array.toList_push, flatMap_append,
    flatMap_singleton, mem_append] at hsymbol ⊢
  obtain (hfunctions | hglobals | hnew) | hdraft := hsymbol
  · exact .inl (.inl (.inl hfunctions))
  · exact .inl (.inl (.inr hglobals))
  · exact .inr (.inl (hg symbol hnew))
  · exact .inl (.inr hdraft)

theorem Covers.stringGlobal (value : String) : (a.stringGlobal value).2.Covers C := by
  rw [Assembly.stringGlobal]
  split
  · exact h
  · exact h.addGlobal (g := .bytes _ value) (forall_mem_nil _)

/-- A line that refers only to what is covered. -/
theorem Covers.append {line : Line}
    (hline : ∀ symbol ∈ line.symbols, C symbol ∨ a.declares symbol = true) :
    (a.append line).Covers C := by
  refine h.extend (fun _ hdeclares => hdeclares) fun symbol hsymbol => ?_
  simp only [Assembly.append, Function.symbols, Array.toList_push, flatMap_append,
    flatMap_singleton, mem_append] at hsymbol ⊢
  obtain hsymbols | hdraft | hnew := hsymbol
  · exact .inl (.inl hsymbols)
  · exact .inl (.inr hdraft)
  · exact .inr (hline symbol hnew)

theorem Covers.begin (header : Header) : (a.begin header).Covers C :=
  h.extend (fun _ hdeclares => hdeclares) fun symbol hsymbol => by
    simp only [Assembly.begin, Function.symbols, flatMap_nil, append_nil] at hsymbol
    exact .inl (mem_append_left _ hsymbol)

theorem Covers.finish : a.finish.Covers C := by
  refine h.extend (fun _ hdeclares => hdeclares) fun symbol hsymbol => .inl ?_
  simp only [Assembly.symbols, Assembly.finish, Array.toList_push, flatMap_append,
    flatMap_singleton, Function.symbols, flatMap_nil, append_nil,
    mem_append] at hsymbol ⊢
  obtain (hfunctions | hdraft) | hglobals := hsymbol
  · exact .inl (.inl hfunctions)
  · exact .inr hdraft
  · exact .inl (.inr hglobals)

theorem Covers.markerGlobal (name : String) : (a.markerGlobal name).2.Covers C := by
  rw [Assembly.markerGlobal]
  split
  · exact h
  · exact h.addGlobal (g := .bytes _ name) (forall_mem_nil _)

omit h in
theorem declares_markerGlobal (name symbol : String) :
    (a.markerGlobal name).2.declares symbol = a.declares symbol := by
  rw [markerGlobal]
  split <;> rfl

/-- The function that records entries is declared before it is called. -/
theorem Covers.cover (name : String) : (a.cover name).Covers C := by
  rw [Assembly.cover]
  split
  · refine ((h.declare coverSymbol .void [.ptr]).markerGlobal name).append ?_
    refine forall_mem_singleton.2 (.inr ?_)
    rw [declares_markerGlobal]
    exact declares_declare a coverSymbol .void [.ptr]
  · exact h

end Assembly

end IR

/-! ### What a compilation accounts for -/

namespace Linkage

variable (session : Session) (events : List Compile.Event)

/-- The functions that a compilation accounts for: those that it declares, those of the instances
that it requests or puts aside, and those that the module at hand is taken to write. -/
inductive Accounts : String → Prop
  | declared {symbol ret params}
      (h : ⟨.step (.declare symbol ret params), ()⟩ ∈ events) : Accounts symbol
  | requested {item} (hcode : item.kind.isCode = true)
      (h : ∃ name, ⟨.step (.require item), name⟩ ∈ events) : Accounts (session.symbol item.symbol)
  | deferred {item} (h : ⟨.step (.defer item), Symbol.placeholder item.base⟩ ∈ events) :
      Accounts (session.symbol (Symbol.placeholder item.base))
  | listed {name} (h : session.program.Lists name) : Accounts (session.symbol name)

/-- All steps of a compilation are known, and code refers to functions that it accounts for. -/
def focus : Focus session where
  Refers := Accounts session events
  Requested item := ∃ name, ⟨.step (.require item), name⟩ ∈ events
  Tabled request := ∃ table, ⟨.step (.requireTable request), table⟩ ∈ events
  Takes step answer := ⟨.step step, answer⟩ ∈ events
  Code _ := True
  Opens _ := True
  Fails := True
  Returns _ := True
  Binds _ := True
  Defers _ := True
  declared h := .declared h
  required h := ⟨_, h⟩
  requested hcode h := .requested hcode h
  deferred h := .deferred h
  listed h := .listed h
  tabled h := ⟨_, h⟩
  opens _ := trivial
  opened _ _ _ := trivial
  binds _ _ := trivial
  defers _ := trivial

/-- A state that refers only to functions that the compilation accounts for, and in which a missing
definition is reported only of an instance that was requested. -/
structure Inv (s : Build) : Prop where
  scope : ∀ entry ∈ s.scope.entries, ∀ symbol ∈ entry.2.storage.operand.code,
    Accounts session events symbol
  ctors : ∀ entry ∈ s.ctors, session.Registers entry.1 entry.2
  assembly : s.assembly.Covers (Accounts session events)
  diagnostics : ∀ d ∈ s.diagnostics.kept, (focus session events).Reports d

/-- Code refers to functions that the compilation accounts for. -/
def facts : Facts session where
  focus := focus session events
  Name := .full
  Item := (focus session events).Grants
  TypeName _ := True
  Temp _ _ := True
  Inv _ := Inv session events
  Order _ _ := True
  order_refl _ := trivial
  order_trans _ _ := trivial
  temp_mono _ _ := trivial

variable {session events} {s s' : Build}

theorem ok_operand {operand : IR.Operand} : (facts session events).Ok s operand ↔
      ∀ symbol ∈ operand.code, Accounts session events symbol := by
  cases operand with
  | thin symbol =>
    exact ⟨fun h => forall_mem_singleton.2 h, fun h => h symbol mem_cons_self⟩
  | _ => exact ⟨fun _ => forall_mem_nil _, fun _ => trivial⟩

/-- What a good instruction refers to is accounted for. -/
theorem accounts_of_mem_symbols {i : IR.Instr} (hi : (facts session events).Ok s i)
    (hemits : (focus session events).Emits i) {symbol : String} (h : symbol ∈ i.symbols) :
    Accounts session events symbol := by
  obtain h | h := mem_append.1 h
  · cases i with
    | call r ret callee args =>
      cases callee with
      | global name => exact mem_singleton.1 h ▸ hemits
      | _ => cases h
    | _ => cases h
  · obtain ⟨operand, hoperand, h⟩ := mem_flatMap.1 h
    exact ok_operand.1 (hi.2 operand hoperand) symbol h

/-! ### Steps -/

section

variable (h : Inv session events s)

include h

theorem Inv.emit {i : IR.Instr} (hi : (facts session events).Ok s' i)
    (hemits : (focus session events).Emits i) : Inv session events (s.emit i) :=
  { h with
    assembly := h.assembly.append fun _ hsymbol =>
      .inl (accounts_of_mem_symbols hi hemits hsymbol) }

theorem Inv.report {d : Diagnostic} (hd : (focus session events).Reports d) :
    Inv session events (s.report d) := by
  refine { h with diagnostics := ?_ }
  rw [Build.report]
  obtain ⟨hpush, -⟩ | ⟨hpush, -⟩ := s.diagnostics.push_cases d
  · rw [hpush]
    exact h.diagnostics
  · rw [hpush]
    exact forall_mem_append.2 ⟨h.diagnostics, forall_mem_singleton.2 hd⟩

/-- A step that leaves the function alone. -/
theorem Inv.quiet {step : Step} {answer : step.Answer}
    (hallows : (facts session events).Allows s step)
    (hperform : step.perform session s = .ok (answer, s')) : Inv session events s' := by
  cases step with
  | bindLocal | storeConv | fresh | freshLabel | emit | block | beginFunction
  | finishFunction => exact hallows.elim
  | registerCtor key ctor =>
    cases hperform
    rw [Build.registerCtor]
    split
    · exact h
    · exact { h with ctors := forall_mem_cons.2 ⟨hallows.1, h.ctors⟩ }
  | defineType name body =>
    cases hperform
    exact { h with assembly := h.assembly.defineType name body }
  | declare symbol ret params =>
    cases hperform
    exact { h with assembly := h.assembly.declare symbol ret params }
  | stringGlobal value =>
    cases hperform
    exact { h with assembly := h.assembly.stringGlobal value }
  | report d =>
    cases hperform
    exact h.report hallows.1
  | reportDefaulted item resolution span =>
    cases hperform
    split
    · exact h
    · -- What is reported about a default never has the code of a missing definition.
      refine h.report fun hcode => ?_
      rw [Resolution.diagnostic] at hcode
      split at hcode <;> cases hcode
  | _ =>
    obtain ⟨memo, rfl⟩ := Step.eq_of_perform hperform
    exact { h with }

/-- A move between two pieces of code. -/
theorem Inv.move {move : Move} {answer : move.Answer} (hmove : move.IsBetween)
    (hmoves : (focus session events).Moves move)
    (hperform : move.perform session s = .ok (answer, s')) : Inv session events s' := by
  cases move with
  | step own => exact hmove.elim
  | takeRound =>
    obtain ⟨-, -, rfl⟩ | ⟨-, -, rfl⟩ := Build.takeRound_eq_ok hperform
    · exact h
    · exact { h with }
  | writeTable name entries =>
    cases hperform
    refine { h with assembly := h.assembly.addGlobal fun symbol hsymbol => ?_ }
    obtain ⟨entry, hentry, rfl⟩ := mem_filterMap.1 hsymbol
    exact hmoves symbol hentry
  | _ =>
    cases hperform
    exact { h with }

end

/-- The constructors that are registered are listed. -/
theorem accounts_of_registers {key : String} {ctor : Ctor} (h : session.Registers key ctor) :
    Accounts session events ctor.symbol := by
  obtain ⟨d, f, hoffers, hsymbol⟩ := h
  obtain ⟨m, hm, hd⟩ := hoffers.known
  exact hsymbol ▸ .listed (.constructor hm hd hoffers.closed hoffers.mem)

/-! ### Compilations -/

variable (session events)

/-- Instructions refer to functions that the compilation accounts for. -/
def linear : Linear session where
  toFacts := facts session events
  quiet h hallows _ hperform := ⟨h.quiet hallows hperform, trivial⟩
  takeTemp h := ⟨{ h with }, trivial⟩
  result _ _ h _ _ hi hemits := ⟨h.emit hi hemits, trivial, trivial⟩
  effect h _ _ hi hemits := ⟨h.emit hi hemits, trivial⟩
  takeLabel h := ⟨{ h with }, trivial⟩
  place _ h := ⟨{ h with assembly := h.assembly.append (forall_mem_nil _) }, trivial⟩
  leave h _ hi hemits := ⟨h.emit hi hemits, trivial⟩
  join _ _ h hty hfirst hsecond :=
    ⟨Inv.emit (s := Build.takeTemp _) { h with }
      ⟨forall_mem_singleton.2 hty, Facts.ok_pair hfirst hsecond⟩ trivial, trivial, trivial⟩

/-- Representing types refers to functions that the compilation accounts for. -/
def representing : Representing session where
  toElements := (linear session events).toElements
  defined _ := trivial
  definedType _ hargs := Elements.sound_definedType (fun _ h => h) (fun _ => trivial) _ hargs

/-- Code generation refers to functions that the compilation accounts for. -/
def discipline : Discipline session where
  toRepresenting := representing session events
  program := session.over_full
  code _ hgrants := hgrants
  scope h entry hentry := ⟨trivial, ok_operand.2 (h.scope entry hentry),
    Ty.over_full _, fun _ _ => trivial⟩
  ctors h entry hentry :=
    ⟨trivial, fun _ _ => trivial, accounts_of_registers (h.ctors entry hentry)⟩
  bindLocal _ h hl :=
    ⟨{ h with scope := forall_mem_cons.2 ⟨ok_operand.1 hl.1, h.scope⟩ }, trivial⟩
  classStruct _ := Representing.sound_classStruct fun _ => trivial
  stop hend _ hi := Linear.stop (L := linear session events) hend hi
  assertThat := Linear.assertThat (L := linear session events)
  callEither := Linear.callEither (L := linear session events)
  begin _ h _ _ :=
    { h with scope := forall_mem_nil _, assembly := (h.assembly.begin _).cover _ }
  finish h hvalue hreturns :=
    have hemit := h.emit (i := .ret _) (Facts.ok_ret hvalue) hreturns
    { hemit with assembly := hemit.assembly.finish }
  move h hmove hmoves hperform := h.move hmove hmoves hperform

instance : (discipline session events).IsFull where
  allows _ _ := ⟨fun _ _ => trivial, trivial, fun _ _ _ _ => trivial, fun _ => trivial,
    fun _ => trivial⟩

variable {program : Program} {settings : Settings} {events : List Compile.Event} {s : Build}

/-- All steps of a compilation are good, and its last state refers only to functions that it
accounts for. -/
theorem of_runs_all
    (h : Runs (Move.perform ⟨program, settings⟩) Compile.all (.initial settings) events () s) :
    (∀ event ∈ events, Compile.Accepts (facts ⟨program, settings⟩ events) event) ∧
      Inv ⟨program, settings⟩ events s := by
  have hinitial : Inv ⟨program, settings⟩ events (.initial settings) :=
    ⟨forall_mem_nil _, forall_mem_nil _, forall_mem_nil _, forall_mem_nil _⟩
  have htakes : Compile.Takes (focus ⟨program, settings⟩ events) events := fun _ _ hmem => hmem
  obtain ⟨hinv, -, haccepts⟩ := Discipline.of_runs_all
    (D := discipline ⟨program, settings⟩ events) hinitial h htakes
  exact ⟨haccepts, hinv⟩

end Linkage

end Monomorph
