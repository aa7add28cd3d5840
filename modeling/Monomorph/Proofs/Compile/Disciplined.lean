import Monomorph.Proofs.Compile.FixedPoint
import Monomorph.Proofs.Lowering.Bodies

/-!
# Compilations keep a discipline

The items of the module at hand, the instances of every round and the entries of dispatch tables
all consist of code that keeps the invariant of a discipline, and what is handed out between them
was good when it was requested. So the invariant holds at the end of a compilation, whatever the
program is.
-/

namespace Monomorph

open List Script

variable {item : WorkItem}

namespace Discipline

open Facts Elements Representing

variable {session : Session} {D : Discipline session} {α β : Type} {mode : Mode} {s s' : Build}
  {d : ClassDef} {l : List α} {f : FunctionDef} {args : List Ty} {key : MethodKey}

/-- A script that is performed for each member of a list and needs no facts. -/
theorem sound_each {f : α → Gen PUnit} (hf : ∀ a ∈ l, ∀ s, D.Sound mode s (f a)) :
    D.Sound mode s (l.forM f) :=
  sound_forM (P := fun _ => True) (fun _ _ => trivial) trivial fun a ha s _ => hf a ha s

/-- Results of which something is known that does not depend on the state. -/
theorem ensures_mapM {f : α → Gen β} {P : β → Prop}
    (hf : ∀ a ∈ l, ∀ s, D.Ensures mode s (f a) fun _ b => P b) :
    D.Ensures mode s (l.mapM f) fun _ bs => ∀ b ∈ bs, P b := by
  induction l generalizing s with
  | nil => exact .pure (forall_mem_nil _)
  | cons a l ih =>
    obtain ⟨ha, hl⟩ := forall_mem_cons.1 hf
    rw [mapM_cons]
    exact .bind (ha s) fun b _ _ hb => .bind (ih hl) fun bs _ _ hbs =>
      .pure (forall_mem_cons.2 ⟨hb, hbs⟩)

/-! ### The module at hand -/

theorem sound_homeFunction [D.IsFull] (hf : f.Over D.Name) :
    D.Sound .outside s (Gen.homeFunction f) := by
  refine .program ?_
  split
  · exact .functionSymbol
      (sound_lowerFunction hf (IsFull.allows _ _) Bindings.over_empty _ nofun)
  · exact .pure trivial

theorem sound_homeMethod [D.IsFull] (typeName : String) {receiver : Receiver}
    (hreceiver : receiver.ty.Over D.Name) (hf : f.Over D.Name) :
    D.Sound .outside s (Gen.homeMethod typeName receiver f) := by
  rw [Gen.homeMethod]
  split
  · refine .functionSymbol
      (sound_lowerFunction hf (IsFull.allows _ _) Bindings.over_empty _ ?_)
    split
    · rintro _ ⟨⟩
      exact hreceiver
    · exact nofun
  · exact .pure trivial

theorem sound_homeImpl [D.IsFull] {d : ImplDef} (hd : d.Over D.Name) :
    D.Sound .outside s (Gen.homeImpl d) := by
  rw [Gen.homeImpl]
  split
  · exact .pure trivial
  · split
    · exact .program (sound_each fun f hf _ => sound_homeMethod _ hd.selfTy (hd.methods f hf))
    · exact .pure trivial

theorem over_ofClass (hd : d.Over D.Name) (hargs : ∀ t ∈ args, t.Over D.Name) :
    (Receiver.ofClass d args).ty.Over D.Name :=
  Ty.over_ofName hd.name hargs

theorem sound_homeClass [D.IsFull] (hclass : session.program.NamesClass d.name)
    (hd : d.Over D.Name) : D.Sound .outside s (Gen.homeClass d) := by
  rw [Gen.homeClass]
  split
  · refine .bind (sound_each fun f hf s => ?_) fun _ s₁ _ _ => sound_each fun f hf _ =>
      sound_homeMethod _ (over_ofClass hd (forall_mem_nil _)) (hd.methods f hf)
    have hf := hd.constructors f hf
    refine .bind (sound_irTypes _ (Ty.overList_iff.2 hf.paramTypes) s) fun _ s₁ _ _ => ?_
    exact .functionSymbol (sound_lowerConstructor hf (IsFull.allows _ _) Bindings.over_empty
      hclass hd (forall_mem_nil _) _)
  · exact .pure trivial

/-- The code of the module at hand. -/
theorem sound_homeItems [D.IsFull] : D.Sound .outside s Gen.homeItems := by
  have hmem : session.program.home ∈ session.program.modules := mem_cons_self
  have hhome := D.program _ hmem
  refine .program ?_
  refine .bind (sound_each fun f hf _ => sound_homeFunction (hhome.functions f hf))
    fun _ s₂ _ _ => ?_
  refine .bind (sound_each fun d hd _ => sound_homeImpl (hhome.impls d hd)) fun _ s₃ _ _ => ?_
  exact sound_each fun d hd _ => sound_homeClass (.own hmem hd) (hhome.classes d hd)

/-! ### Instances -/

section Types

variable {item : WorkItem} (hitem : D.Ok s item)

include hitem

theorem sound_defineStruct (hkind : item.kind = .struct) {d : StructDef}
    (hfind : session.program.struct? item.base = some d) :
    D.Sound mode s (Gen.defineStruct d item.args item.symbol) := by
  have htypes : ∀ t ∈ d.fieldTypes item.args, t.Over D.Name :=
    FieldDef.over_typesUnder (D.program.struct? hfind).fields hitem.2.1
  have hname := (D.program.struct? hfind).name
  rw [Gen.defineStruct]
  split
  · refine .bind (sound_sizeOf (Ty.over_ofName hname hitem.2.1)) fun size s₁ _ _ => ?_
    refine .bind (ensures_discard (ensures_irTypes htypes)) fun _ s₂ _ _ => ?_
    exact (ensures_defineType (.union (fun _ => hitem) hkind _) (ok_closed rfl)).weaken
      fun _ _ _ => trivial
  · refine .bind (ensures_irTypes htypes) fun irs s₁ _ hirs => ?_
    obtain ⟨hirs, rfl⟩ := hirs
    exact (ensures_defineType (.struct (fun _ => hitem) hkind hfind) (ok_anon hirs)).weaken
      fun _ _ _ => trivial

theorem sound_defineEnum (hkind : item.kind = .enum) {d : EnumDef}
    (hfind : session.program.enum? item.base = some d) :
    D.Sound mode s (Gen.defineEnum d item.args item.symbol) := by
  have hd := D.program.enum? hfind
  refine .bind (ensures_discard (ensures_irTypes fun t ht => ?_)) fun _ s₁ _ _ => ?_
  · obtain ⟨variant, hvariant, ht⟩ := mem_filterMap.1 ht
    exact hd.payload? hvariant hitem.2.1 ht
  · refine .bind (Q := fun _ words => D.focus.Takes (.payloadWords d item.args) words)
      (ensures_perform ⟨hd, hitem.2.1⟩ fun _ _ _ _ htakes => htakes) fun words s₂ _ hwords => ?_
    refine (ensures_defineType (.enum (fun _ => hitem) hkind hfind hwords) (ok_closed ?_)).weaken
      fun _ _ _ => trivial
    split <;> rfl

theorem sound_defineClass (hkind : item.kind = .cls)
    (hfind : session.program.class? item.base = some d) :
    D.Sound mode s (Gen.defineClass d item.args item.symbol) := by
  obtain ⟨m, hm, hmem⟩ := Program.mem_of_lookup hfind
  have hd := D.program.class? hfind
  have hrest : ∀ s, D.Ok s d.firstIr → D.Sound mode s (do
      let rest ← Gen.irTypes (d.fieldTypes item.args)
      Gen.defineType ("%class." ++ item.symbol) (.anon (d.firstIr :: rest))) := by
    intro s hfirst
    refine .bind (ensures_irTypes (FieldDef.over_typesUnder hd.fields hitem.2.1))
      fun rest s₁ _ hrest => ?_
    obtain ⟨hrest, rfl⟩ := hrest
    have hfirst : D.Ok s₁ d.firstIr := hfirst
    exact (ensures_defineType (.cls (fun _ => hitem) hkind hfind)
      (ok_anon (forall_mem_cons.2 ⟨hfirst, hrest⟩))).weaken fun _ _ _ => trivial
  rw [Gen.defineClass]
  rw [ClassDef.firstIr] at hrest
  cases hbase : d.base with
  | some base =>
    rw [hbase] at hrest
    refine .bind ((D.classStruct (.base hm hmem hbase) (hd.base base hbase)
      (forall_mem_nil _)).and_result fun hrun _ =>
        ((Gen.gives_classStruct base).of_runs hrun).1) fun first s₁ _ hfirst => ?_
    obtain ⟨hfirst, rfl⟩ := hfirst
    exact hrest s₁ hfirst
  | none =>
    rw [hbase] at hrest
    exact hrest s (ok_closed rfl)

end Types

theorem sound_generateFunction [D.IsFull] (hf : f.Over D.Name) (hargs : ∀ t ∈ args, t.Over D.Name)
    (symbol : String) : D.Sound .outside s (Gen.generateFunction f args symbol) :=
  .program (.functionSymbol
    (sound_lowerFunction hf (IsFull.allows _ _) (Bindings.over_ofArgs hargs _) _ nofun))

theorem ensures_generateClassMethod [D.IsFull] (hclass : session.program.NamesClass d.name)
    (hd : d.Over D.Name) (hargs : ∀ t ∈ item.args, t.Over D.Name)
    (hkey : ∀ t ∈ key.args, t.Over D.Name) :
    D.Ensures .outside s (Gen.generateClassMethod d item key) fun _ found => found =
      ((key.name = "new" && !d.constructors.isEmpty) || (d.method? key.name).isSome) := by
  have hb : ∀ f : FunctionDef, Bindings.Over D.Name
      ((Bindings.ofArgs d.generics item.args).extend (.ofArgs f.generics key.args)) := fun f =>
    (Bindings.over_ofArgs hargs _).extend (Bindings.over_ofArgs hkey _)
  refine .functionSymbol ?_
  have hhead : (if key.name = "new" then d.constructors.head? else none).isSome =
      (key.name = "new" && !d.constructors.isEmpty) := by
    by_cases hnew : key.name = "new"
    · simp only [hnew, if_true, decide_true, Bool.true_and]
      cases d.constructors <;> rfl
    · simp only [hnew, if_false, decide_false, Bool.false_and, Option.isSome_none]
  have hmem : ∀ f, (if key.name = "new" then d.constructors.head? else none) = some f →
      f ∈ d.constructors := by
    intro f hhead
    split at hhead
    · exact mem_of_head? hhead
    · cases hhead
  rw [← hhead]
  generalize (if key.name = "new" then d.constructors.head? else none) = constructor at hmem ⊢
  cases constructor with
  | some f =>
    exact .bind (sound_lowerConstructor (hd.constructors f (hmem f rfl)) (IsFull.allows _ _)
      (hb f) hclass hd hargs _) fun _ _ _ _ => .pure rfl
  | none =>
    cases hmethod : d.method? key.name with
    | none => exact .pure rfl
    | some f =>
      have hf := hd.methods f (mem_of_find?_eq_some hmethod)
      refine .bind (sound_lowerFunction hf (IsFull.allows _ _) (hb f) _ ?_)
        fun _ _ _ _ => .pure rfl
      split
      · rintro _ ⟨⟩
        exact over_ofClass hd hargs
      · exact nofun

theorem ensures_generateImplMethod [D.IsFull] (hargs : ∀ t ∈ item.args, t.Over D.Name)
    (hkey : ∀ t ∈ key.args, t.Over D.Name) :
    D.Ensures .outside s (Gen.generateImplMethod item key) fun _ found =>
      found = (session.program.implMethod? item.base key.name).isSome := by
  refine .program ?_
  split
  next heq => exact .pure (by rw [heq]; rfl)
  next origin impl f hfind =>
    obtain ⟨-, hf, hbase⟩ := D.program.implMethod? hfind
    have howner : (Ty.ofName item.base item.args).Over D.Name := Ty.over_ofName hbase hargs
    have hb := Ty.Over.matchInto impl.generics impl.selfTy howner Bindings.over_empty
    refine .functionSymbol (.bind (sound_lowerFunction hf (IsFull.allows _ _)
      (hb.extend (Bindings.over_ofArgs hkey _)) _ ?_) fun _ _ _ _ => .pure (by rw [hfind]; rfl))
    split
    · rintro _ ⟨⟩
      exact howner
    · exact nofun

theorem ensures_generateMethod [D.IsFull] (h : D.Ok s item) :
    D.Ensures .outside s (Gen.generateMethod item) fun _ found => found =
      item.method.any fun key => session.program.findsMethod item.base key.name := by
  rw [Gen.generateMethod]
  split
  next heq => exact .pure (by rw [heq]; rfl)
  next key hkey =>
    have hmethod := h.2.2 key.args (Option.map_eq_some_iff.2 ⟨key, hkey, rfl⟩)
    refine .program ?_
    rw [hkey, Option.any_some, Program.findsMethod]
    cases hfind : session.program.class? item.base with
    | some d =>
      exact ensures_generateClassMethod (namesClass_of_class? hfind) (D.program.class? hfind) h.2.1
        hmethod
    | none => exact ensures_generateImplMethod h.2.1 hmethod

/-- An instance is generated if there is a definition. -/
theorem ensures_generateFrom {definition : Option α} {f : α → List Ty → String → Gen Unit}
    (hf : ∀ d, definition = some d → D.Sound mode s (f d item.args item.symbol)) :
    D.Ensures mode s (Gen.generateFrom definition f item) fun _ found =>
      found = definition.isSome := by
  cases definition with
  | none => exact .pure rfl
  | some d => exact .bind (hf d rfl) fun _ _ _ _ => .pure rfl

/-- An instance is generated if its definition is found again. -/
theorem ensures_generateFound [D.IsFull] (h : D.Ok s item) :
    D.Ensures .outside s (Gen.generateFound item) fun _ found =>
      found = session.program.finds item := by
  refine .program ?_
  have h : D.Ok s item := h
  unfold Program.finds
  cases hkind : item.kind with
  | struct => exact ensures_generateFrom fun d hd => sound_defineStruct h hkind hd
  | enum => exact ensures_generateFrom fun d hd => sound_defineEnum h hkind hd
  | cls => exact ensures_generateFrom fun d hd => sound_defineClass h hkind hd
  | func =>
    exact ensures_generateFrom fun f hf => sound_generateFunction (D.program.function? hf) h.2.1 _
  | method => exact ensures_generateMethod h

/-- The code and the types of an instance. A missing definition is reported only of an instance that
was requested. -/
theorem sound_generate [D.IsFull] (h : D.Ok s item) (hrequested : D.focus.Requested item) :
    D.Sound .outside s (Gen.generate item) := by
  refine .bind (ensures_generateFound h) fun found s₁ _ hfound => ?_
  split
  next hmissing =>
    rw [Bool.not_eq_true'] at hmissing
    exact sound_report (fun _ => ⟨rfl, item, hrequested, hfound ▸ hmissing⟩) (.inl rfl)
  · exact .pure trivial

/-! ### Dispatch tables -/

/-- The entry of a behavior method is an instance, declared, or code of the module at hand. -/
theorem ensures_behaviorEntry {selfTy : Ty} (h : selfTy.Over D.Name) {behavior : String}
    (htabled : D.focus.Tabled (.behavior selfTy behavior args)) {method : String}
    (hslot : method ∈ session.program.slotMethods (.behavior selfTy behavior args)) :
    D.Ensures mode s (Gen.behaviorEntry selfTy behavior method) fun _ entry =>
      ∀ symbol ∈ entry, D.focus.Refers symbol := by
  unfold Gen.behaviorEntry
  have hargs : ∀ t ∈ (selfTy.nominal?.getD ("", [])).2, t.Over D.Name := by
    cases hnominal : selfTy.nominal? with
    | none => exact forall_mem_nil _
    | some pair => exact h.nominal? hnominal
  refine .program ?_
  dsimp only
  split
  · refine .bind (sound_report ?_ (.inl rfl)) fun _ _ _ _ => .pure nofun
    rintro ⟨⟩
  next hprovided =>
    obtain ⟨⟨origin, impl⟩, hfound, hmethod⟩ := Option.bind_eq_some_iff.1 hprovided
    obtain ⟨f, hmethod, ⟨⟩⟩ := Option.map_eq_some_iff.1 hmethod
    obtain ⟨hmethod, -⟩ := Option.filter_eq_some_iff.1 hmethod
    obtain ⟨himpl, hname⟩ := Program.of_implOf? hfound
    have hf := (D.program.implOf? hfound).1.methods _ (mem_of_find?_eq_some hmethod)
    split
    · refine .functionSymbol (ensures_declare_when (ok_ofDef hf ?_ _) (fun horigin => ?_)
        fun s₃ _ h => .pure (by rintro _ ⟨⟩; exact h))
      · exact Ty.Over.matchInto impl.generics impl.selfTy h Bindings.over_empty
      · obtain rfl := not_not.1 horigin
        exact D.focus.listed (.implMethod (Program.mem_home_impls himpl) hname hmethod)
    · rename_i hgenerics
      refine .bind (ensures_require (ok_ofMethod ⟨.implMethod himpl hname hmethod
        (.inl fun hnil => hgenerics (List.isEmpty_iff.2 hnil)) _ _, fun _ => .slot htabled hslot⟩
        hargs (forall_mem_nil _))) fun own s₂ _ hown => ?_
      exact .functionSymbol (.pure (by rintro _ ⟨⟩; exact hown rfl))

/-- The entry of a slot of a class is an instance, declared, or code of the module at hand. -/
theorem ensures_classEntry {className : String} (hargs : ∀ t ∈ args, t.Over D.Name)
    (htabled : D.focus.Tabled (.cls className args)) {slot : ClassSlot}
    (hslot : slot ∈ session.program.classSlots className) :
    D.Ensures mode s (Gen.classEntry className args slot) fun _ entry =>
      ∀ symbol ∈ entry, D.focus.Refers symbol := by
  refine .program ?_
  split
  · exact .pure nofun
  next owner howner =>
    split
    · exact .pure nofun
    · rename_i f hfound
      obtain ⟨hmethod, -⟩ := Option.filter_eq_some_iff.1 hfound
      have hf := (D.program.class? howner).methods f (mem_of_find?_eq_some hmethod)
      split
      · refine .functionSymbol (ensures_declare_when (ok_ofDef hf Bindings.over_empty _)
          (fun hhome => ?_) fun s₃ _ h => .pure (by rintro _ ⟨⟩; exact h))
        rw [Bool.not_eq_true', Bool.not_eq_false] at hhome
        exact D.focus.listed (.classMethod howner hmethod hhome)
      · have hitem : D.Ok s (WorkItem.ofMethod owner.name
            (if owner.name = className then args else []) slot.method []) := by
          by_cases hown : owner.name = className
          · rw [if_pos hown]
            refine ok_ofMethod ⟨.classMethod howner hmethod _ [], fun _ => ?_⟩ hargs
              (forall_mem_nil _)
            rw [hown]
            exact .slot htabled (mem_map_of_mem hslot)
          · rw [if_neg hown]
            exact ok_ofMethod (.of_closed (.classMethod howner hmethod _ []) rfl)
              (forall_mem_nil _) (forall_mem_nil _)
        refine .bind (ensures_require hitem) fun own s₂ _ hown => ?_
        exact .functionSymbol (.pure (by rintro _ ⟨⟩; exact hown rfl))

/-- The entries of a dispatch table. -/
theorem ensures_tableEntries {request : Dispatch.Request} (h : D.Ok s request)
    (htabled : D.focus.Tabled request) : D.Ensures mode s (Gen.tableEntries request)
      fun _ entries => ∀ symbol, some symbol ∈ entries → D.focus.Refers symbol := by
  cases request with
  | behavior selfTy name args =>
    exact .program ((ensures_mapM fun method hmethod s =>
      ensures_behaviorEntry (h selfTy mem_cons_self) htabled hmethod).weaken
        fun _ entries h symbol hsymbol => h (some symbol) hsymbol symbol rfl)
  | cls name args =>
    exact .program ((ensures_mapM fun slot hslot s => ensures_classEntry h htabled hslot).weaken
      fun _ entries h symbol hsymbol => h (some symbol) hsymbol symbol rfl)

end Discipline

/-! ### Whole compilations -/

namespace Compile

/-- The bounds of functions among the events of a compilation. -/
def bounds (events : List Event) : List Bound :=
  events.filterMap fun
    | ⟨.step own, _⟩ => own.bound?
    | _ => none

theorem bounds_append (events later : List Event) :
    bounds (events ++ later) = bounds events ++ bounds later :=
  filterMap_append

/-- A step of code generation as an event of a compilation. -/
def ofStep (event : Script.Event Step.Answer) : Event := ⟨.step event.1, event.2⟩

/-- A run of code generation inside a compilation is a run on its own. -/
theorem runs_ofGen {session : Session} {α : Type} {m : Gen α} {s s' : Build} {a : α}
    {events : List Event} (h : Runs (Move.perform session) (ofGen m) s events a s') :
    ∃ own, session.Runs m s own a s' ∧ events = own.map ofStep := by
  induction m generalizing s events with
  | done b =>
    cases h
    exact ⟨[], .done _ _, rfl⟩
  | fail fault => cases h
  | ask step next ih =>
    cases h with
    | ask hstep hnext =>
      obtain ⟨own, hown, rfl⟩ := ih _ hnext
      exact ⟨_, .ask hstep hown, rfl⟩

theorem bounds_map_ofStep (events : Gen.Trace) :
    bounds (events.map ofStep) = Monomorph.bounds events := by
  rw [bounds, filterMap_map]
  rfl

variable {session : Session}

/-- What the steps that leave a trace may do in a compilation. -/
def Accepts (F : Facts session) : Event → Prop
  | ⟨.step own, _⟩ => F.Accepts own
  | _ => True

/-- If the move binds a local name, it gives it a good meaning. -/
def BindsWell (F : Facts session) (s : Build) : Move → Prop
  | .step own => F.BindsWell s own
  | _ => True

theorem leads_map_ofStep {P : Build → Step → Prop} {Q : Build → Move → Prop} {s s' : Build}
    {events : Gen.Trace} (h : LeadsBy (Step.perform session) P s events s')
    (hQ : ∀ s step, P s step → Q s (.step step)) :
    LeadsBy (Move.perform session) Q s (events.map ofStep) s' := by
  induction h with
  | nil s => exact .nil s
  | cons hstep hP _ ih => exact .cons hstep (hQ _ _ hP) ih

theorem accepts_map_ofStep {F : Facts session} {events : Gen.Trace} :
    (∀ event ∈ events.map ofStep, Accepts F event) ↔ ∀ event ∈ events, F.Accepts event.1 :=
  forall_mem_map

/-- The steps among the events of a compilation are among those of which something is known. -/
def Takes (focus : Focus session) (events : List Event) : Prop :=
  ∀ step answer, ⟨.step step, answer⟩ ∈ events → focus.Takes step answer

variable {focus : Focus session}

theorem takes_append {events later : List Event} :
    Takes focus (events ++ later) ↔ Takes focus events ∧ Takes focus later := by
  simp only [Takes, mem_append, or_imp, forall_and]

theorem Takes.of_map_ofStep {F : Facts session} {events : Gen.Trace}
    (h : Takes F.focus (events.map ofStep)) : F.Takes events :=
  fun event hevent => h event.1 event.2 (mem_map_of_mem hevent)

end Compile

namespace Discipline

variable {session : Session} (D : Discipline session)
  {α β : Type} {s s' : Build} {Q : Build → α → Prop} {R : Build → β → Prop}

/-- A state between functions that keeps the invariant, after known steps that consist of whole
functions and are good. -/
structure Reaches (history : List Compile.Event) (s : Build) : Prop where
  inv : D.Inv .outside s
  ledger : ∃ limit, Compile.Ledger limit history s
  sets : Bound.IsBalanced (Compile.bounds history)
  accepts : ∀ event ∈ history, Compile.Accepts D.toFacts event
  leads : LeadsBy (Move.perform session) (Compile.BindsWell D.toFacts) (.initial session.settings)
    history s
  takes : Compile.Takes D.focus history

/-- Every run of the script leads from such a state to another. -/
def Advances (s : Build) (m : Compile α) (Q : Build → α → Prop) : Prop :=
  ∀ history, D.Reaches history s → ∀ events a s', Runs (Move.perform session) m s events a s' →
    Compile.Takes D.focus events → D.Reaches (history ++ events) s' ∧ Q s' a

variable {D} {program : Program} {settings : Settings} {history events : List Compile.Event}

theorem Reaches.append {m : Compile α} {a : α} (h : D.Reaches history s)
    (hrun : Runs (Move.perform session) m s events a s') (hinv : D.Inv .outside s')
    (hsets : Bound.IsBalanced (Compile.bounds events))
    (haccepts : ∀ event ∈ events, Compile.Accepts D.toFacts event)
    (hleads : LeadsBy (Move.perform session) (Compile.BindsWell D.toFacts) s events s')
    (htakes : Compile.Takes D.focus events) : D.Reaches (history ++ events) s' where
  inv := hinv
  ledger := h.ledger.imp fun _ hledger => hledger.runs hrun
  sets := Compile.bounds_append history events ▸ h.sets.append hsets
  accepts := forall_mem_append.2 ⟨h.accepts, haccepts⟩
  leads := h.leads.append hleads
  takes := Compile.takes_append.2 ⟨h.takes, htakes⟩

theorem advances_pure {a : α} (h : Q s a) : D.Advances s (pure a) Q := by
  intro history hs events a' s' hrun _
  obtain ⟨rfl, rfl, rfl⟩ := hrun.of_pure
  rw [append_nil]
  exact ⟨hs, h⟩

theorem advances_bind {m : Compile α} {f : α → Compile β}
    (hm : D.Advances s m Q) (hf : ∀ a s', Q s' a → D.Advances s' (f a) R) :
    D.Advances s (m >>= f) R := by
  intro history hs events b last hrun htakes
  obtain ⟨first, a, mid, rest, hfirst, hrest, rfl⟩ := hrun.of_bind
  obtain ⟨htakes, htakes'⟩ := Compile.takes_append.1 htakes
  obtain ⟨hmid, ha⟩ := hm history hs first a mid hfirst htakes
  rw [← append_assoc]
  exact hf a mid ha _ hmid rest b last hrest htakes'

/-- Code generation as part of a compilation. -/
theorem advances_ofGen {m : Gen α} (hm : D.Ensures .outside s m Q) :
    D.Advances s (Compile.ofGen m) Q := by
  intro history hs events a s' hrun htakes
  obtain ⟨own, hown, rfl⟩ := Compile.runs_ofGen hrun
  obtain ⟨hs', -, htraced, ha⟩ := hm.ends hs.inv own a s' hown htakes.of_map_ofStep
  refine ⟨hs.append hrun hs' ?_ (Compile.accepts_map_ofStep.2 htraced.accepts)
    (Compile.leads_map_ofStep htraced.leads fun _ _ => id) htakes, ha⟩
  rw [Compile.bounds_map_ofStep]
  exact htraced.sets

/-- A move between two pieces of code. -/
theorem advances_perform (move : Move) {Q : Build → move.Answer → Prop}
    (hmove : move.IsBetween) (hmoves : D.focus.Moves move)
    (h : ∀ history answer s', D.Reaches history s → move.perform session s = .ok (answer, s') →
      Q s' answer) : D.Advances s (Compile.perform move) Q := by
  intro history hs events answer s' hrun htakes
  obtain ⟨hperform, rfl⟩ := hrun.of_ask
  refine ⟨hs.append hrun (D.move hs.inv hmove hmoves hperform) ?_ ?_
    (.cons hperform ?_ (.nil s')) htakes, h history answer s' hs hperform⟩
  · cases move with
    | step own => exact hmove.elim
    | _ => exact Bound.isBalanced_nil
  · cases move with
    | step own => exact hmove.elim
    | _ => exact forall_mem_singleton.2 trivial
  · cases move with
    | step own => exact hmove.elim
    | _ => trivial

theorem advances_move (move : Move) (hmove : move.IsBetween) (hmoves : D.focus.Moves move) :
    D.Advances s (Compile.perform move) fun _ _ => True :=
  advances_perform move hmove hmoves fun _ _ _ _ _ => trivial

theorem advances_forM {f : α → Compile PUnit} {l : List α}
    (hf : ∀ a ∈ l, ∀ s, D.Advances s (f a) fun _ _ => True) :
    D.Advances s (l.forM f) fun _ _ => True := by
  induction l generalizing s with
  | nil => exact advances_pure trivial
  | cons a l ih =>
    obtain ⟨ha, hl⟩ := forall_mem_cons.1 hf
    exact advances_bind (ha s) fun _ _ _ => ih hl

/-- The requested tables are good, and so are their entries. -/
theorem advances_writeTables : D.Advances s Compile.writeTables fun _ _ => True := by
  refine advances_bind
    (Q := fun s' requests => ∀ request ∈ requests, D.Ok s' request ∧ D.focus.Tabled request)
    (advances_perform .takeTables trivial trivial fun history answer s' hs hperform => ?_)
    fun requests s₁ hrequests => ?_
  · cases hperform
    intro request hrequest
    obtain ⟨limit, hledger⟩ := hs.ledger
    obtain ⟨table, hevent⟩ := Compile.exists_requireTable_of_mem
      (mem_of_mem_firsts _ (hledger.tables.items ▸ mem_append_right _ hrequest))
    exact ⟨hs.accepts _ hevent _, D.focus.tabled (hs.takes _ _ hevent)⟩
  · refine advances_forM fun request hrequest s => ?_
    obtain ⟨hrequest, htabled⟩ := hrequests request hrequest
    have hrequest : D.Ok s request := hrequest
    exact advances_bind (advances_ofGen (ensures_tableEntries hrequest htabled))
      fun entries s₂ hentries => advances_move (.writeTable ..) trivial hentries

/-- The instances of a round are good. -/
theorem advances_takeRound : D.Advances s (Compile.perform .takeRound) fun s' answer =>
      ∀ items ∈ answer, ∀ item ∈ items, D.Ok s' item ∧ D.focus.Requested item := by
  refine advances_perform .takeRound trivial trivial fun history answer s' hs hperform => ?_
  obtain ⟨-, rfl, rfl⟩ | ⟨-, rfl, rfl⟩ := Build.takeRound_eq_ok hperform
  · rintro _ ⟨⟩
  · rintro _ ⟨⟩ item hitem
    obtain ⟨limit, hledger⟩ := hs.ledger
    obtain ⟨symbol, hevent⟩ := Compile.exists_require_of_mem
      (mem_of_mem_firsts _ (hledger.worklist.held.items ▸ mem_append_right _ hitem))
    exact ⟨hs.accepts _ hevent _, D.focus.required (hs.takes _ _ hevent)⟩

variable [D.IsFull]

theorem advances_generate (h : D.Ok s item) (hrequested : D.focus.Requested item) :
    D.Advances s (Compile.generate item) fun _ _ => True := by
  refine advances_bind (advances_move (.generate item) trivial trivial) fun _ s₁ _ => ?_
  have h : D.Ok s₁ item := h
  exact advances_ofGen ((sound_generate h hrequested).weaken fun _ _ _ => trivial)

theorem advances_drain (limit : Nat) : D.Advances s (Compile.drain limit) fun _ _ => True := by
  induction limit generalizing s with
  | zero => exact advances_pure trivial
  | succ limit ih =>
    refine advances_bind advances_writeTables fun _ s₁ _ => ?_
    refine advances_bind advances_takeRound fun answer s₂ hanswer => ?_
    cases answer with
    | some batch =>
      refine advances_bind (advances_forM fun item hitem s => ?_) fun _ _ _ => ih
      obtain ⟨hitem, hrequested⟩ := hanswer batch rfl item hitem
      exact advances_generate hitem hrequested
    | none =>
      refine advances_bind (advances_move .tablesPending trivial trivial) fun pending s₃ _ => ?_
      split
      · exact ih
      · exact advances_pure trivial

/-- Whole compilations keep the invariant. -/
theorem advances_all : D.Advances s Compile.all fun _ _ => True := by
  refine advances_bind (advances_ofGen sound_registerCtors) fun _ s₁ _ => ?_
  refine advances_bind (advances_ofGen sound_homeItems) fun _ s₂ _ => ?_
  refine advances_bind (advances_move .maxRounds trivial trivial) fun maxRounds s₃ _ => ?_
  refine advances_bind (advances_drain _) fun _ s₄ _ => ?_
  refine advances_bind (advances_move .deferred trivial trivial) fun items s₅ _ => ?_
  refine advances_forM fun item _ s => advances_ofGen
    ((Elements.sound_report ?_ (.inr rfl)).weaken fun _ _ _ => trivial)
  rintro ⟨⟩

section Runs

variable {D : Discipline ⟨program, settings⟩} [D.IsFull]
  (hinitial : D.Inv .outside (.initial settings))
  (h : Runs (Move.perform ⟨program, settings⟩) Compile.all (.initial settings) events () s)
  (htakes : Compile.Takes D.focus events)

include hinitial h htakes

theorem reaches_of_runs_all : D.Reaches events s := by
  have hstart : D.Reaches [] (.initial settings) :=
    ⟨hinitial, ⟨_, Compile.ledger_initial settings⟩, Bound.isBalanced_nil, forall_mem_nil _, .nil _,
      by rintro _ _ ⟨⟩⟩
  exact (advances_all [] hstart events () s h htakes).1

/-- A compilation ends in a state that keeps the invariant, consists of whole functions and leaves a
good trace. -/
theorem of_runs_all : D.Inv .outside s ∧ Bound.IsBalanced (Compile.bounds events) ∧
      ∀ event ∈ events, Compile.Accepts D.toFacts event :=
  have hs := reaches_of_runs_all hinitial h htakes
  ⟨hs.inv, hs.sets, hs.accepts⟩

end Runs

end Discipline

end Monomorph
