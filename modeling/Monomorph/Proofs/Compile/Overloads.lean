import Monomorph.Proofs.Compile.Functions
import Monomorph.Proofs.Compile.Linked
import Monomorph.Proofs.Symbol.Methods

/-!
# Constructors of one class

The constructors of a class without parameters are found by a key, in which the types of their
parameters are written in full, and are named by a symbol, in which each type has only a suffix. All
constructors are registered before any code is generated, so a call whose arguments have the types
of some constructor finds one of this key and refers to it by its symbol.

The symbol has one suffix for each parameter, and the suffixes can be read off it. So it stands for
one key where types that are written differently have different suffixes. All structs share the
suffix of pointers: two constructors for different structs have one symbol.

## Main results

* `Ctor.symbolOf_eq_iff`, `Compile.constructor_reached`, `Compile.constructors_share_symbol`.
-/

namespace Monomorph

open List Script

namespace Symbol

/-- Words without underscores, each after an underscore, can be told apart. -/
theorem eq_of_flatMap_cons {ws vs : List Word} (hws : ∀ w ∈ ws, '_' ∉ w) (hvs : ∀ v ∈ vs, '_' ∉ v)
    (h : ws.flatMap ('_' :: ·) = vs.flatMap ('_' :: ·)) : ws = vs := by
  -- With one more underscore behind them, all words are followed by one.
  have hnext : ∀ us : List Word, ∃ x, us.flatMap ('_' :: ·) ++ ['_'] = '_' :: x := by
    intro us
    cases us with
    | nil => exact ⟨[], rfl⟩
    | cons u us => exact ⟨_, rfl⟩
  induction ws generalizing vs with
  | nil =>
    cases vs with
    | nil => rfl
    | cons v vs => cases h
  | cons w ws ih =>
    cases vs with
    | nil => cases h
    | cons v vs =>
      obtain ⟨hw, hws'⟩ := forall_mem_cons.1 hws
      obtain ⟨hv, hvs'⟩ := forall_mem_cons.1 hvs
      have htail : w ++ ws.flatMap ('_' :: ·) = v ++ vs.flatMap ('_' :: ·) := (List.cons.inj h).2
      obtain ⟨x, hx⟩ := hnext ws
      obtain ⟨y, hy⟩ := hnext vs
      have hcut : w ++ '_' :: x = v ++ '_' :: y := by
        rw [← hx, ← hy, ← append_assoc, htail, append_assoc]
      obtain ⟨rfl, -⟩ := eq_of_unbroken hw hv hcut
      exact congrArg (w :: ·) (ih hws' hvs' (append_cancel_left htail))

end Symbol

namespace Ctor

theorem notMem_suffix (t : IR.Ty) : '_' ∉ t.suffix.toList := by
  cases t <;> (dsimp only [IR.Ty.suffix]; decide)

theorem toList_join_suffixes (ts : List IR.Ty) :
    (String.join (ts.map fun t => "_" ++ t.suffix)).toList =
      (ts.map fun t => t.suffix.toList).flatMap ('_' :: ·) := by
  simp only [String.toList_join, flatMap_map, String.toList_append]
  rfl

/-- The symbol of a constructor tells as much of its parameters as their suffixes. -/
theorem symbolOf_eq_iff {className : String} {params params' : List IR.Ty} :
    symbolOf className params = symbolOf className params' ↔
      params.map IR.Ty.suffix = params'.map IR.Ty.suffix := by
  have hwords : ∀ ts : List IR.Ty, ∀ w ∈ ts.map (fun t => t.suffix.toList), '_' ∉ w :=
    fun ts => forall_mem_map.2 fun t _ => notMem_suffix t
  rw [symbolOf, symbolOf, String.join_cons, String.join_cons, String.append_right_inj]
  constructor
  · intro h
    have hlists := congrArg String.toList h
    rw [toList_join_suffixes, toList_join_suffixes] at hlists
    have hlists := Symbol.eq_of_flatMap_cons (hwords params) (hwords params') hlists
    refine map_injective_iff.2 (fun _ _ => String.toList_inj.1) ?_
    rwa [map_map, map_map]
  · intro h
    have hjoin := congrArg (fun suffixes => String.join (suffixes.map ("_" ++ ·))) h
    rwa [map_map, map_map] at hjoin

end Ctor

/-- Constructors of a class whose parameters have the same suffixes have the same key. -/
def ClassDef.Separates (d : ClassDef) (p : Program) : Prop :=
  ∀ f ∈ d.constructors, ∀ g ∈ d.constructors, (p.irs f.paramTypes).map IR.Ty.suffix =
    (p.irs g.paramTypes).map IR.Ty.suffix → p.overload d f = p.overload d g

instance (d : ClassDef) (p : Program) : Decidable (d.Separates p) :=
  inferInstanceAs (Decidable (∀ f ∈ d.constructors, ∀ g ∈ d.constructors,
    (p.irs f.paramTypes).map IR.Ty.suffix = (p.irs g.paramTypes).map IR.Ty.suffix →
      p.overload d f = p.overload d g))

/-- The symbols of the constructors of a class tell as much as their keys just if the class
separates its constructors. -/
theorem ClassDef.separates_iff (d : ClassDef) (session : Session) :
    d.Separates session.program ↔ ∀ f ∈ d.constructors, ∀ g ∈ d.constructors,
      (session.constructorPiece d f).symbol = (session.constructorPiece d g).symbol →
        session.program.overload d f = session.program.overload d g := by
  have hsymbol : ∀ f g, (session.constructorPiece d f).symbol =
      (session.constructorPiece d g).symbol ↔ (session.program.irs f.paramTypes).map IR.Ty.suffix =
        (session.program.irs g.paramTypes).map IR.Ty.suffix :=
    fun f g => Session.symbol_inj.trans Ctor.symbolOf_eq_iff
  simp only [ClassDef.Separates, hsymbol]

/-! ### Registration -/

/-- A constructor is registered under a key. -/
def Build.Knows (s : Build) (key : String) : Prop := (s.ctors.lookup key).isSome = true

section Registration

variable {session : Session} {key : String} {s s' : Build} {move : Move} {answer : move.Answer}
  {α : Type} {events : Gen.Trace} {a : α} {m : Compile α}
  {ctors : List (String × Ctor)} {ctor : Ctor}

theorem Build.knows_registerCtor (s : Build) (key : String) (ctor : Ctor) :
    (s.registerCtor key ctor).Knows key := by
  rw [Build.registerCtor]
  split
  · assumption
  · rw [Build.Knows, lookup_cons_self]
    rfl

namespace Build.Knows

/-- What is registered stays registered. -/
theorem perform (h : s.Knows key) {step : Step} {answer : step.Answer}
    (hperform : step.perform session s = .ok (answer, s')) : s'.Knows key := by
  cases step with
  | registerCtor own ctor =>
    cases hperform
    rw [Build.registerCtor]
    split
    · exact h
    · rw [Build.Knows, lookup_cons]
      split
      · rfl
      · exact h
  | _ =>
    obtain ⟨memo, rfl⟩ := Step.eq_of_perform hperform
    exact h

theorem performMove (h : s.Knows key) (hperform : move.perform session s = .ok (answer, s')) :
    s'.Knows key := by
  cases move with
  | step own => exact h.perform hperform
  | takeRound =>
    obtain ⟨-, -, rfl⟩ | ⟨-, -, rfl⟩ := Build.takeRound_eq_ok hperform <;> exact h
  | _ =>
    cases hperform
    exact h

/-- What is registered is found where the constructors are read. -/
theorem of_event (h : s.Knows key) {events : List Compile.Event}
    (hruns : Runs (Move.perform session) m s events a s')
    (hevent : ⟨.step .ctors, ctors⟩ ∈ events) : (ctors.lookup key).isSome = true := by
  obtain ⟨_, _, t, t', -, hbefore, hperform, -⟩ := hruns.leads.of_mem hevent
  have ht : t.Knows key := hbefore.invariant (fun _ _ _ _ _ hs hmove => hs.performMove hmove) h
  cases hperform
  exact ht

/-- What a script registers for a member of a list is registered when it was performed for all. -/
theorem forM {f : α → Gen PUnit} {l : List α}
    (hruns : session.Runs (l.forM f) s events () s') (ha : a ∈ l)
    (hf : ∀ t own t', session.Runs (f a) t own () t' → t'.Knows key) :
    s'.Knows key := by
  obtain ⟨_, t, own, t', _, -, hown, hafter, -⟩ := hruns.forM ha
  exact hafter.invariant (fun _ _ _ _ _ hs hstep => hs.perform hstep) (hf t own t' hown)

/-- Every constructor is registered under its key. -/
theorem registerCtors (hruns : session.Runs Gen.registerCtors s events () s')
    {d : ClassDef} {f : FunctionDef} (hoffers : session.program.Offers key d f) : s'.Knows key := by
  obtain ⟨own, hown, -⟩ := Gen.runs_program_bind hruns
  obtain ⟨m, hm, hd⟩ := hoffers.known
  refine forM hown hm fun _ _ _ hmodule => ?_
  refine forM hmodule (mem_filter.2 ⟨hd, hoffers.closed⟩) fun _ _ _ hclass => ?_
  refine forM hclass hoffers.mem fun t own t' hctor => ?_
  obtain ⟨_, params, t₁, _, hparams, hrest, -⟩ := hctor.of_bind
  obtain ⟨_, ret, t₂, _, -, hrest, -⟩ := hrest.of_bind
  obtain ⟨_, symbol, t₃, _, -, hrest, -⟩ := hrest.of_bind
  obtain ⟨hregister, -⟩ := hrest.of_ask
  cases hregister
  obtain ⟨rfl, -⟩ := (Gen.gives_irs session f.paramTypes).of_runs hparams
  exact hoffers.key_eq ▸ t₃.knows_registerCtor _ _

end Build.Knows

/-- The constructors after a move are those before it, with one that it registers. -/
theorem Move.mem_ctors_of_perform {session : Session} {s s' : Build}
    (h : move.perform session s = .ok (answer, s')) {key : String} (hmem : (key, ctor) ∈ s'.ctors) :
    (key, ctor) ∈ s.ctors ∨ move = .step (.registerCtor key ctor) := by
  cases move with
  | step own =>
    have hown : own.perform session s = .ok (answer, s') := h
    obtain ⟨memo, rfl⟩ := Step.eq_of_perform hown
    cases own with
    | registerCtor own other =>
      simp only [Step.after, Step.onCtors] at hmem
      split at hmem
      · exact .inl hmem
      · obtain heq | hmem := mem_cons.1 hmem
        · cases heq
          exact .inr rfl
        · exact .inl hmem
    | _ => exact .inl hmem
  | takeRound =>
    obtain ⟨-, -, rfl⟩ | ⟨-, -, rfl⟩ := Build.takeRound_eq_ok h <;> exact .inl hmem
  | _ =>
    cases h
    exact .inl hmem

/-- Registration does not read what is registered. -/
theorem Gen.only_registerCtors : Gen.registerCtors.Only (· ≠ Step.ctors) := by
  have hrepresents : ∀ step : Step, step.Represents → step ≠ .ctors := by
    rintro _ ⟨⟩ <;> rintro ⟨⟩
  refine .step (by rintro ⟨⟩) fun p => only_forM (fun m => only_forM (fun d =>
    only_forM (fun f => ?_) _) _) _
  refine ((only_irTypes _).mono hrepresents).bind fun params => ?_
  have hstruct : (classStruct d.name []).Only (· ≠ Step.ctors) :=
    ((only_irType _).mono hrepresents).discard.bind fun _ => trivial
  refine .bind (hstruct.bind fun _ => trivial) fun ret => ?_
  have hsymbol : (functionSymbol (Ctor.symbolOf d.name params)).Only (· ≠ Step.ctors) :=
    .step (by rintro ⟨⟩) fun _ => trivial
  exact hsymbol.bind fun symbol => only_perform (by rintro ⟨⟩)

end Registration

namespace Compile

variable {program : Program} {settings : Settings} {output : Output} {events : List Event}
  {last : Build} {ctors : List (String × Ctor)} {key : String}

/-- Wherever the constructors are read, all are registered. -/
theorem isSome_lookup_of_event
    (hruns : Runs (Move.perform ⟨program, settings⟩) all (.initial settings) events () last)
    (hevent : ⟨.step .ctors, ctors⟩ ∈ events) {d : ClassDef} {f : FunctionDef}
    (hoffers : program.Offers key d f) : (ctors.lookup key).isSome = true := by
  obtain ⟨_, _, s₁, rest, hregister, hrest, rfl⟩ := hruns.of_bind
  obtain ⟨own, hown, rfl⟩ := runs_ofGen hregister
  have hknows : s₁.Knows key := .registerCtors hown hoffers
  obtain hbefore | hafter := mem_append.1 hevent
  · obtain ⟨event, hmem, heq⟩ := mem_map.1 hbefore
    have hne := hown.only Gen.only_registerCtors event hmem
    obtain ⟨step, answer⟩ := event
    cases heq
    exact (hne rfl).elim
  · exact hknows.of_event hrest hafter

/-- What is found where the constructors are read was registered. -/
theorem registers_of_event
    (hruns : Runs (Move.perform ⟨program, settings⟩) all (.initial settings) events () last)
    (hevent : ⟨.step .ctors, ctors⟩ ∈ events) {ctor : Ctor}
    (hlookup : ctors.lookup key = some ctor) : Session.Registers ⟨program, settings⟩ key ctor := by
  have hleads := hruns.leadsBy (P := fun move => ∀ key ctor,
    move = .step (.registerCtor key ctor) → Session.Registers ⟨program, settings⟩ key ctor) (by
      rintro ⟨_, answer⟩ hmem key ctor rfl
      exact (Linkage.of_runs_all hruns).1 _ hmem)
  obtain ⟨_, _, t, t', -, hbefore, hperform, -⟩ := hleads.of_mem hevent
  cases hperform
  obtain ⟨front, back, hctors, -⟩ := lookup_eq_some_iff.1 hlookup
  change t.ctors = _ at hctors
  refine hbefore.invariant (I := fun s => ∀ key ctor, (key, ctor) ∈ s.ctors →
    Session.Registers ⟨program, settings⟩ key ctor) ?_ (fun _ _ hmem => by cases hmem) _ _
    (by rw [hctors]; exact mem_append_right front mem_cons_self)
  intro s move answer s' hregisters hs hmove key ctor hmem
  exact (Move.mem_ctors_of_perform hmove hmem).elim (hs key ctor) (hregisters key ctor)

/-- Every constructor of a class at hand without parameters is written under its symbol. The
constructors of a class that have different keys have different symbols just if the class separates
them. A call whose arguments have the types of some constructor refers to a constructor of that key,
and in a class that separates, its symbol is that of no constructor of another key. -/
theorem constructor_reached (h : compile program settings = .ok output) :
    (∀ d ∈ program.home.classes.items, d.generics.isEmpty = true → ∀ f ∈ d.constructors,
      ∃ written ∈ output.assembly.functions.toList, Writes program settings output
        (Session.constructorPiece ⟨program, settings⟩ d f) written) ∧
    (∀ d : ClassDef, d.Separates program ↔ ∀ f ∈ d.constructors, ∀ g ∈ d.constructors,
      program.overload d f ≠ program.overload d g →
        (Session.constructorPiece ⟨program, settings⟩ d f).symbol ≠
          (Session.constructorPiece ⟨program, settings⟩ d g).symbol) ∧
    ∀ {d : ClassDef} {irs : List IR.Ty} {s s' : Build}
      {during : List (Script.Event Step.Answer)} {ctor : Ctor},
      Performs program settings output (Lowering.ctorFor d irs) s during ctor s' →
      (∃ owner f, program.Offers (Ctor.key d.name irs) owner f) →
      ∃ owner f, program.Offers (Ctor.key d.name irs) owner f ∧
        ctor.symbol = (Session.constructorPiece ⟨program, settings⟩ owner f).symbol ∧
        (owner.Separates program → ∀ g ∈ owner.constructors,
          (Session.constructorPiece ⟨program, settings⟩ owner g).symbol = ctor.symbol →
            program.overload owner g = Ctor.key d.name irs) := by
  have hsame := fun d : ClassDef => d.separates_iff ⟨program, settings⟩
  refine ⟨fun d hd hgenerics f hf =>
      exists_writes_of_mem_pieces h (Session.constructorPiece_mem_pieces hd hgenerics hf),
    fun d => (hsame d).trans (forall₄_congr fun _ _ _ _ => not_imp_not.symm), ?_⟩
  rintro d irs s s' during ctor hctor ⟨_, _, hoffers⟩
  obtain ⟨asking, ctors, s₁, rest, hask, hrest, rfl⟩ := hctor.bind
  obtain ⟨-, rfl⟩ := runs_ask_done_iff.1 hask.runs
  obtain ⟨events, last, hall, -, hpart⟩ := hask.occurs.part
  have hevent := hpart.subset (List.mem_singleton_self _)
  obtain ⟨own, hown⟩ := Option.isSome_iff_exists.1 (isSome_lookup_of_event hall hevent hoffers)
  have hrest := hrest.runs
  rw [hown, Option.some_or] at hrest
  obtain ⟨-, rfl, -⟩ := runs_pure_iff.1 hrest
  obtain ⟨owner, f, hoffers, hsymbol⟩ := registers_of_event hall hevent hown
  refine ⟨owner, f, hoffers, hsymbol, fun hseparates g hg heq => ?_⟩
  rw [← hoffers.key_eq]
  exact (hsame owner).1 hseparates g hg f hoffers.mem (heq.trans hsymbol)

/-- A class with a constructor for each of some types. -/
def pointOf (params : List Ty) : ClassDef where
  name := "P"
  constructors := params.map fun t =>
    { name := "new", params := [⟨"a", t⟩], body := some (.mk [] none) }

/-- Constructors for a number, a truth value and a struct. -/
def point : ClassDef := pointOf [.prim .i32, .prim .bool, .ofName "S" []]

/-- A call of the first of them. -/
def overloading : Program where
  home := {
    structs := .ofList [{ name := "S" }]
    classes := .ofList [point]
    functions := .ofList [{
      name := "f"
      body := some (.mk [.eval (.call {} (.path {} ⟨["P", "new"], []⟩)
        [.lit {} (.int 1)])] none) }] }

theorem performs_ctorFor_overloading {output : Output}
    (h : compile overloading { depth := 9 } = .ok output) :
    ∃ s during ctor s', Performs overloading { depth := 9 } output
      (Lowering.ctorFor point [.i32]) s during ctor s' := by
  obtain ⟨t, own, value, t', hcall⟩ := performs_homeEval h mem_cons_self rfl rfl rfl rfl
    mem_cons_self rfl
  obtain ⟨_, _, t₁, _, hfirst, -, -⟩ := hcall.bind
  -- The path names no function of a kind, no variant, no intrinsic and no generic function.
  obtain ⟨_, hfirst⟩ := hfirst.firstOf_of_declines rfl
  obtain ⟨_, hfirst⟩ := hfirst.firstOf_of_declines rfl
  obtain ⟨_, hfirst⟩ := hfirst.firstOf_of_declines rfl
  obtain ⟨_, hfirst⟩ := hfirst.firstOf_of_declines rfl
  obtain ⟨_, _, t₂, _, hconstruct, -, -⟩ := hfirst.bind
  obtain ⟨_, hconstruct⟩ := hconstruct.program_bind
  obtain ⟨_, actual, t₃, _, hvalues, hconstruct, -⟩ := hconstruct.bind
  obtain ⟨-, rfl, -⟩ := hvalues.runs.of_pure
  obtain ⟨own, ctor, t₄, _, hctor, -, -⟩ := hconstruct.bind
  exact ⟨t₃, own, ctor, t₄, hctor⟩

/-- The constructors of the class have three symbols, and the call refers to that for a number. -/
theorem constructor_reached_overloading :
    point.Separates overloading ∧ ∃ output, compile overloading { depth := 9 } = .ok output ∧
      (∀ f ∈ point.constructors, ∃ written ∈ output.assembly.functions.toList,
        Writes overloading { depth := 9 } output
          (Session.constructorPiece ⟨overloading, { depth := 9 }⟩ point f) written) ∧
      (∀ f ∈ point.constructors, ∀ g ∈ point.constructors,
        overloading.overload point f ≠ overloading.overload point g →
          (Session.constructorPiece ⟨overloading, { depth := 9 }⟩ point f).symbol ≠
            (Session.constructorPiece ⟨overloading, { depth := 9 }⟩ point g).symbol) ∧
      ∃ s during ctor s', Performs overloading { depth := 9 } output
          (Lowering.ctorFor point [.i32]) s during ctor s' ∧
        ∃ owner f, overloading.Offers "P_new_i32" owner f ∧
          ctor.symbol =
            (Session.constructorPiece ⟨overloading, { depth := 9 }⟩ owner f).symbol := by
  obtain ⟨output, hcompile, -⟩ := exists_of_compile (P := fun _ => True)
    (by decide +kernel : (compile overloading { depth := 9 }).toOption.any _)
  have hseparates : point.Separates overloading := by decide +kernel
  obtain ⟨hwritten, hsymbols, hreached⟩ := constructor_reached hcompile
  obtain ⟨s, during, ctor, s', hctor⟩ := performs_ctorFor_overloading hcompile
  obtain ⟨owner, f, hoffers, hsymbol, -⟩ := hreached hctor ⟨point, _,
    ⟨overloading.home, List.mem_cons_self, List.mem_cons_self⟩, rfl, List.mem_cons_self, rfl⟩
  exact ⟨hseparates, output, hcompile, hwritten point List.mem_cons_self rfl,
    (hsymbols point).1 hseparates, s, during, ctor, s', hctor, owner, f, hoffers, hsymbol⟩

/-- Constructors for two structs. -/
def clashing : Program where
  home := {
    structs := .ofList [{ name := "S" }, { name := "R" }]
    classes := .ofList [pointOf [.ofName "S" [], .ofName "R" []]] }

/-- Two constructors of different keys are written under one symbol. -/
theorem constructors_share_symbol :
    (∃ f g, (pointOf [.ofName "S" [], .ofName "R" []]).constructors = [f, g] ∧
      clashing.overload (pointOf [.ofName "S" [], .ofName "R" []]) f ≠
        clashing.overload (pointOf [.ofName "S" [], .ofName "R" []]) g) ∧
    (compile clashing { depth := 9 }).toOption.map (fun output =>
        output.assembly.functions.toList.map IR.Function.symbol?) =
      some [some "@tml_P_new_ptr", some "@tml_P_new_ptr"] :=
  ⟨⟨_, _, rfl, by decide +kernel⟩, by decide +kernel⟩

end Compile

end Monomorph
