import Monomorph.Compile.Instance
import Monomorph.Proofs.Layout.Memo
import Monomorph.Proofs.Script.Simulation

/-!
# The bodies of named instruction types

The representation of a type names other types, whose bodies are written while it is computed or
when the instances that it requests are generated. Names show what they stand for: a sigil, a base
and arguments. So a name has one body, up to what the memo says about the payloads of an enum.
-/

namespace Monomorph

open List Script Monomorph.Symbol

variable {args : List Ty} {E : Step → Prop} {name : String} {item : WorkItem} {step : Step}
  {p : Program}

/-! ### Representations -/

namespace Program

variable (p : Program)

/-- The symbol that answers a request. -/
def symbolOf (base : String) (args : List Ty) : String :=
  if p.isOpenList args then placeholder base else ofInstance base args

/-- The representation of a struct, enum or class instance. -/
def definedIr (name : String) (args : List Ty) : IR.Ty :=
  match p.struct? name with
  | some d => .named ((if d.isUnion then "%union." else "%struct.") ++ p.symbolOf d.name args)
  | none =>
    match p.enum? name with
    | some d =>
        if p.isOpenList args then .i32 else .named ("%struct." ++ p.symbolOf d.name args)
    | none =>
      match p.class? name with
      | some d => if d.isValue then .named ("%class." ++ p.symbolOf d.name args) else .ptr
      | none => .ptr

/-- The representation of a nominal type. -/
def nominalIr (name : String) (args : List Ty) : IR.Ty :=
  match Wrapper.ofName? name, args with
  | some wrapper, [_] =>
      if wrapper.isBoxed then .named ("%struct." ++ ofInstance name args) else .ptr
  | _, _ => p.definedIr name args

theorem nominalIr_of_not_isWrapped (h : Layout.isWrapped name args = false) :
    p.nominalIr name args = p.definedIr name args := by
  unfold nominalIr
  split
  next wrapper arg hwrapper =>
    rw [Layout.isWrapped, hwrapper] at h
    cases h
  · rfl

mutual

/-- The representation of the values of a type. -/
def ir : Ty → IR.Ty
  | .prim kind => kind.ir
  | .ref .. | .ptr _ => .ptr
  | .func .. | .closure .. => .fatPtr
  | .dyn behavior args => .named ("%dyn." ++ ofInstance behavior args)
  | .slice _ => .anon [.ptr, .i64]
  | .tuple elems => if elems.isEmpty then .empty else .anon (irs elems)
  | .array elem length => .array length (ir elem)
  | .classRef name => p.nominalIr name []
  | .named _ name args =>
      match (if args.isEmpty then Primitive.ofName? name else none) with
      | some kind => kind.ir
      | none => p.nominalIr name args

/-- The representations of several types. -/
def irs : List Ty → List IR.Ty
  | [] => []
  | t :: ts => ir t :: irs ts

end

theorem ir_of_declared? {t : Ty} (hname : IsClean name)
    (hdeclared : t.declared? = some (name, args)) : p.ir t = p.nominalIr name args := by
  obtain ⟨qualifier, rfl⟩ | ⟨rfl, rfl⟩ := Ty.eq_of_declared? hdeclared
  · rw [ir, hname.ofName?_eq_none, ite_self]
  · rw [ir]

theorem irs_eq_map (ts : List Ty) : p.irs ts = ts.map p.ir := by
  induction ts with
  | nil => rfl
  | cons t ts ih => rw [irs, ih, map_cons]

end Program

/-! ### Scripts that give one answer -/

section Gives

variable {α β : Type} {session : Session} {E : Step → Prop} {m : Gen α}

/-- From every state a script gives the same answer, leaves the memo as it is and asks only for
certain steps. -/
def Gives (session : Session) (E : Step → Prop) (m : Gen α) (a : α) : Prop :=
  ∀ s, ∃ events s', session.Runs m s events a s' ∧ s'.memo = s.memo ∧
    ∀ event ∈ events, E event.1

protected theorem Gives.pure (a : α) : Gives session E (pure a) a :=
  fun s => ⟨[], s, .done a s, rfl, forall_mem_nil _⟩

theorem Gives.bind {f : α → Gen β} {a : α} {b : β} (hm : Gives session E m a)
    (hf : Gives session E (f a) b) : Gives session E (m >>= f) b := by
  intro s
  obtain ⟨first, mid, hfirst, hmid, hfirstE⟩ := hm s
  obtain ⟨rest, last, hrest, hlast, hrestE⟩ := hf mid
  exact ⟨first ++ rest, last, hfirst.bind hrest,
    hlast.trans hmid, forall_mem_append.2 ⟨hfirstE, hrestE⟩⟩

theorem gives_perform {answer : step.Answer} (hE : E step)
    (h : ∀ s, ∃ s', step.perform session s = .ok (answer, s') ∧ s'.memo = s.memo) :
    Gives session E (Gen.perform step) answer := by
  intro s
  obtain ⟨s', hs', hmemo⟩ := h s
  exact ⟨_, s', runs_ask_done_iff.2 ⟨hs', rfl⟩, hmemo, forall_mem_singleton.2 hE⟩

theorem gives_program (hE : E .program) : Gives session E Gen.program session.program :=
  gives_perform hE fun s => ⟨s, rfl, rfl⟩

theorem gives_defineType {body : IR.Ty} (hE : E (.defineType name body)) :
    Gives session E (Gen.defineType name body) () :=
  gives_perform hE fun _ => ⟨_, rfl, rfl⟩

theorem gives_request {kind : InstanceKind} {base : String}
    (hrequire : session.program.isOpenList args = false → E (.require (.plain kind base args)))
    (hdefer : E (.defer (.plain kind base args))) :
    Gives session E (Gen.request (.plain kind base args) (session.program.isOpenList args))
      (session.program.symbolOf base args) := by
  rw [Gen.request, Program.symbolOf]
  cases hopen : session.program.isOpenList args with
  | true => exact gives_perform hdefer fun _ => ⟨_, rfl, rfl⟩
  | false => exact gives_perform (hrequire hopen) fun _ => ⟨_, rfl, rfl⟩

/-- What a script gives is what each of its runs gives. -/
theorem Gives.of_runs {a b : α} (h : Gives session E m a) {s s' : Build}
    {events : Gen.Trace} (hrun : session.Runs m s events b s') :
    b = a ∧ s'.memo = s.memo ∧ ∀ event ∈ events, E event.1 := by
  obtain ⟨events', s'', hruns, hmemo, hE⟩ := h s
  obtain ⟨rfl, rfl, rfl⟩ := hrun.unique hruns
  exact ⟨rfl, hmemo, hE⟩

theorem Gives.of_bind {f : α → Gen β} {a : α} {b : β} (h : Gives session E m a) {s s' : Build}
    {events : Gen.Trace} (hrun : session.Runs (m >>= f) s events b s') :
    ∃ own mid rest, session.Runs m s own a mid ∧ session.Runs (f a) mid rest b s' ∧
      events = own ++ rest := by
  obtain ⟨own, _, mid, rest, hown, hrest, rfl⟩ := hrun.of_bind
  obtain ⟨rfl, -⟩ := h.of_runs hown
  exact ⟨own, mid, rest, hown, hrest, rfl⟩

end Gives

/-! ### The steps that represent a type -/

namespace Layout

/-- How the name of a type starts. -/
inductive Sigil
  | dyn
  | struct
  | union
  | cls
  deriving DecidableEq

/-- The text of a sigil. -/
def Sigil.text : Sigil → String
  | dyn => "%dyn."
  | struct => "%struct."
  | union => "%union."
  | cls => "%class."

/-- A base and arguments with clean names. -/
structure IsCleanKey (base : String) (args : List Ty) : Prop where
  base : IsClean base
  args : ∀ t ∈ args, t.Writable

theorem IsCleanKey.isKey {base : String} (h : IsCleanKey base args) : IsKey base args :=
  ⟨h.base.separable, h.args⟩

/-- The bodies that are written while a type is represented. -/
inductive Direct : Sigil → String → List Ty → IR.Ty → Prop
  | dyn (behavior : String) (args : List Ty) : Direct .dyn behavior args .fatPtr
  | boxed {name wrapper} (h : Wrapper.ofName? name = some wrapper) (arg : Ty) :
      Direct .struct name [arg] (.anon [.ptr])

/-- A base and arguments that are requested: they are closed and not those of a wrapper. -/
structure IsRequest (p : Program) (base : String) (args : List Ty) : Prop where
  key : IsCleanKey base args
  notWrapped : isWrapped base args = false
  closed : p.isOpenList args = false

/-- The instances that are requested while a type is represented. -/
inductive Requested (p : Program) : WorkItem → Prop
  | struct {name args d} (h : IsRequest p name args)
      (hd : p.struct? name = some d) : Requested p (.plain .struct name args)
  | enum {name args d} (h : IsRequest p name args)
      (hstruct : p.struct? name = none) (hd : p.enum? name = some d) :
      Requested p (.plain .enum name args)
  | cls {name args d} (h : IsRequest p name args)
      (hstruct : p.struct? name = none) (henum : p.enum? name = none)
      (hd : p.class? name = some d) : Requested p (.plain .cls name args)

theorem Requested.notWrapped (h : Requested p item) : isWrapped item.base item.args = false := by
  cases h with
  | struct h | enum h | cls h => exact h.notWrapped

/-- The steps that represent a type with clean names. -/
def Represents (p : Program) : Step → Prop
  | .defineType name body => ∃ sigil base args, name = sigil.text ++ ofInstance base args ∧
      IsCleanKey base args ∧ Direct sigil base args body
  | .require item => Requested p item
  | _ => True

end Layout

namespace Gen

open Layout

variable {session : Session} {t : Ty}

theorem gives_definedType (hE : E .program) (hdefer : ∀ item, E (.defer item))
    (hstruct : ∀ d, session.program.isOpenList args = false →
      session.program.struct? name = some d → E (.require (.plain .struct d.name args)))
    (henum : ∀ d, session.program.isOpenList args = false → session.program.struct? name = none →
      session.program.enum? name = some d → E (.require (.plain .enum d.name args)))
    (hclass : ∀ d, session.program.isOpenList args = false → session.program.struct? name = none →
      session.program.enum? name = none → session.program.class? name = some d →
      E (.require (.plain .cls d.name args))) :
    Gives session E (definedType name args) (session.program.definedIr name args) := by
  refine (gives_program hE).bind ?_
  rw [Program.definedIr]
  cases hs : session.program.struct? name with
  | some d =>
    exact (gives_request (fun hclosed => hstruct d hclosed hs) (hdefer _)).bind (.pure _)
  | none =>
    cases he : session.program.enum? name with
    | some d =>
      exact (gives_request (fun hclosed => henum d hclosed hs he) (hdefer _)).bind (.pure _)
    | none =>
      cases hc : session.program.class? name with
      | some d =>
        exact (gives_request (fun hclosed => hclass d hclosed hs he hc) (hdefer _)).bind
          (.pure _)
      | none => exact .pure _

theorem gives_definedType_of_clean (hkey : IsCleanKey name args)
    (hwrapped : isWrapped name args = false) :
    Gives session (Represents session.program) (definedType name args)
      (session.program.definedIr name args) := by
  have hbare := isBare_of_isClean hkey.base
  refine gives_definedType trivial (fun _ => trivial) (fun d hclosed hd => ?_)
    (fun d hclosed hs hd => ?_) fun d hclosed hs he hd => ?_
  · rw [Program.name_of_struct? hbare hd]
    exact .struct ⟨hkey, hwrapped, hclosed⟩ hd
  · rw [Program.name_of_enum? hbare hd]
    exact .enum ⟨hkey, hwrapped, hclosed⟩ hs hd
  · rw [Program.name_of_class? hbare hd]
    exact .cls ⟨hkey, hwrapped, hclosed⟩ hs he hd

theorem nominalType_of_not_isWrapped (h : isWrapped name args = false)
    (representArgs : Gen (List IR.Ty)) :
    nominalType name args representArgs = definedType name args := by
  unfold nominalType
  split
  next wrapper arg hwrapper =>
    rw [isWrapped, hwrapper] at h
    cases h
  · rfl

/-- The representation of a nominal type, where that of a wrapper may be defined. -/
theorem gives_nominalType (hE : E .program)
    (hboxed : ∀ wrapper arg, Wrapper.ofName? name = some wrapper → args = [arg] →
      E (.defineType ("%struct." ++ ofInstance name [arg]) (.anon [.ptr])))
    (hdefined : isWrapped name args = false →
      Gives session E (definedType name args) (session.program.definedIr name args))
    {representArgs : Gen (List IR.Ty)} {irs : List IR.Ty}
    (hargs : Gives session E representArgs irs) :
    Gives session E (nominalType name args representArgs)
      (session.program.nominalIr name args) := by
  by_cases hwrapped : isWrapped name args = true
  · obtain ⟨wrapper, arg, hwrapper, rfl⟩ := exists_of_isWrapped hwrapped
    simp only [nominalType, Program.nominalIr, hwrapper]
    split
    · refine (gives_defineType (hboxed wrapper arg hwrapper rfl)).bind ((gives_program hE).bind ?_)
      split
      · exact (hargs.bind (Gives.pure ())).bind (.pure _)
      · exact .pure _
    · exact .pure _
  · have hwrapped := Bool.eq_false_iff.2 hwrapped
    rw [nominalType_of_not_isWrapped hwrapped, Program.nominalIr_of_not_isWrapped _ hwrapped]
    exact hdefined hwrapped

/-- Types of a certain kind, with which their parts are too, are represented by certain steps. -/
structure RepresentedBy (session : Session) (E : Step → Prop) (K : Ty → Prop) : Prop where
  /-- Types known through a behavior. -/
  dyn {behavior : String} {args : List Ty} : K (.dyn behavior args) →
    E (.defineType ("%dyn." ++ ofInstance behavior args) .fatPtr)
  /-- Nominal types. -/
  nominal {t : Ty} {name : String} {args : List Ty} {representArgs : Gen (List IR.Ty)}
    {irs : List IR.Ty} : K t → t.declared? = some (name, args) →
      Gives session E representArgs irs →
        Gives session E (nominalType name args representArgs) (session.program.nominalIr name args)
  args {qualifier name : String} {args : List Ty} : K (.named qualifier name args) →
    ∀ t ∈ args, K t
  elems {elems : List Ty} : K (.tuple elems) → ∀ t ∈ elems, K t
  elem {elem : Ty} {length : UInt64} : K (.array elem length) → K elem

namespace RepresentedBy

variable {E : Step → Prop} {K : Ty → Prop}

mutual

/-- Every run that represents a type gives the same answer. -/
theorem gives_irType (h : RepresentedBy session E K) : (t : Ty) → K t →
    Gives session E (irType t) (session.program.ir t)
  | .prim _, _ | .ref .., _ | .ptr _, _ | .func .., _ | .closure .., _ | .slice _, _ => by
      rw [irType, Program.ir]
      exact .pure _
  | .dyn behavior args, ht => by
      rw [irType, Program.ir]
      exact (gives_defineType (h.dyn ht)).bind (.pure _)
  | .tuple elems, ht => by
      rw [irType, Program.ir]
      split
      · exact .pure _
      · exact (gives_irTypes h elems (h.elems ht)).bind (.pure _)
  | .array elem length, ht => by
      rw [irType, Program.ir]
      exact (gives_irType h elem (h.elem ht)).bind (.pure _)
  | .classRef name, ht => by
      rw [irType, Program.ir]
      exact h.nominal ht rfl (Gives.pure [])
  | .named _ name args, ht => by
      rw [irType, Program.ir]
      cases if args.isEmpty then Primitive.ofName? name else none with
      | some kind => exact .pure _
      | none => exact h.nominal ht rfl (gives_irTypes h args (h.args ht))

theorem gives_irTypes (h : RepresentedBy session E K) : (ts : List Ty) → (∀ t ∈ ts, K t) →
    Gives session E (irTypes ts) (session.program.irs ts)
  | [], _ => by rw [irTypes, Program.irs]; exact .pure _
  | t :: ts, hts => by
      rw [irTypes, Program.irs]
      exact (gives_irType h t (forall_mem_cons.1 hts).1).bind
        ((gives_irTypes h ts (forall_mem_cons.1 hts).2).bind (.pure _))

end

end RepresentedBy

/-- All types, by any steps. -/
theorem representedBy_any (session : Session) :
    RepresentedBy session (fun _ => True) fun _ => True where
  dyn _ := trivial
  nominal _ _ := gives_nominalType trivial (fun _ _ _ _ => trivial) fun _ =>
    gives_definedType trivial (fun _ => trivial) (fun _ _ _ => trivial) (fun _ _ _ _ => trivial)
      fun _ _ _ _ _ => trivial
  args _ _ _ := trivial
  elems _ _ _ := trivial
  elem _ := trivial

/-- Every run that represents a type gives the same answer. -/
theorem gives_ir (session : Session) (t : Ty) :
    Gives session (fun _ => True) (irType t) (session.program.ir t) :=
  (representedBy_any session).gives_irType t trivial

theorem gives_irs (session : Session) (ts : List Ty) :
    Gives session (fun _ => True) (irTypes ts) (session.program.irs ts) :=
  (representedBy_any session).gives_irTypes ts fun _ _ => trivial

theorem isCleanKey_of_declared? (h : t.Writable) (hdeclared : t.declared? = some (name, args)) :
    IsCleanKey name args := by
  obtain ⟨qualifier, rfl⟩ | ⟨rfl, rfl⟩ := Ty.eq_of_declared? hdeclared
  · rw [Ty.writable_named] at h
    exact ⟨h.1, h.2.2⟩
  · exact ⟨(Ty.writable_classRef _).1 h, forall_mem_nil _⟩

/-- Types with clean names, by steps that show what they do. -/
theorem representedBy_clean (session : Session) :
    RepresentedBy session (Represents session.program) Ty.Writable where
  dyn h := by
    rw [Ty.writable_dyn] at h
    exact ⟨.dyn, _, _, rfl, ⟨h.1, h.2.2⟩, .dyn _ _⟩
  nominal h hdeclared := by
    have hkey := isCleanKey_of_declared? h hdeclared
    refine gives_nominalType trivial (fun wrapper arg hwrapper hargs => ?_) fun hwrapped =>
      gives_definedType_of_clean hkey hwrapped
    subst hargs
    exact ⟨.struct, _, _, rfl, hkey, .boxed hwrapper arg⟩
  args h := ((Ty.writable_named ..).1 h).2.2
  elems h := ((Ty.writable_tuple ..).1 h).2
  elem h := (writable_apply (.array _) _).1 h

/-- Every run that represents a type with clean names gives the same answer. -/
theorem gives_irType (session : Session) (t : Ty) (h : t.Writable) :
    Gives session (Represents session.program) (irType t) (session.program.ir t) :=
  (representedBy_clean session).gives_irType t h

theorem gives_irTypes (session : Session) (ts : List Ty) (h : ∀ t ∈ ts, t.Writable) :
    Gives session (Represents session.program) (irTypes ts) (session.program.irs ts) :=
  (representedBy_clean session).gives_irTypes ts h

/-- A type is represented from every state. -/
theorem run_irType {p : Program} (ht : t.Writable) (settings : Settings) (s : Build) :
    ∃ s', (irType t).run (Step.perform ⟨p, settings⟩) s = .ok (p.ir t, s') := by
  obtain ⟨events, s', hruns, -, -⟩ := gives_irType ⟨p, settings⟩ t ht s
  exact ⟨s', run_eq_ok_iff.2 ⟨events, hruns⟩⟩

end Gen

/-! ### Erased representations -/

namespace Program

variable (p : Program)

theorem nominalIr_unqualifiedList (name : String) (args : List Ty) :
    p.nominalIr name (Ty.unqualifiedList args) = p.nominalIr name args := by
  have hsymbol : ∀ base, ofInstance base (Ty.unqualifiedList args) = ofInstance base args := by
    intro base
    rw [ofInstance, ofInstance, wordsList_unqualifiedList]
  have hdefined : p.definedIr name (Ty.unqualifiedList args) = p.definedIr name args := by
    simp only [definedIr, symbolOf, hsymbol, p.isOpenList_unqualifiedList]
  by_cases hwrapped : Layout.isWrapped name args = true
  · obtain ⟨wrapper, arg, hwrapper, rfl⟩ := Layout.exists_of_isWrapped hwrapped
    simp only [nominalIr, hwrapper, Ty.unqualifiedList]
    rw [← hsymbol name]
    rfl
  · have hwrapped := Bool.eq_false_iff.2 hwrapped
    have hwrapped' := (Layout.isWrapped_congr (Ty.unqualifiedList_unqualifiedList args) name).trans
      hwrapped
    rw [p.nominalIr_of_not_isWrapped hwrapped, p.nominalIr_of_not_isWrapped hwrapped', hdefined]

mutual

/-- Qualifiers do not matter for representations. -/
theorem ir_unqualified : (t : Ty) → p.ir t.unqualified = p.ir t
  | .prim _ | .ref .. | .ptr _ | .func .. | .closure .. | .slice _ | .classRef _ => rfl
  | .dyn behavior args => by
      simp only [Ty.unqualified, ir, ofInstance, wordsList_unqualifiedList]
  | .tuple elems => by
      have hempty : (Ty.unqualifiedList elems).isEmpty = elems.isEmpty := by cases elems <;> rfl
      simp only [Ty.unqualified, ir, hempty, irs_unqualifiedList elems]
  | .array elem length => by simp only [Ty.unqualified, ir, ir_unqualified elem]
  | .named _ name args => by
      have hempty : (Ty.unqualifiedList args).isEmpty = args.isEmpty := by cases args <;> rfl
      simp only [Ty.unqualified, ir, hempty, p.nominalIr_unqualifiedList]

theorem irs_unqualifiedList : (ts : List Ty) → p.irs (Ty.unqualifiedList ts) = p.irs ts
  | [] => rfl
  | t :: ts => by simp only [Ty.unqualifiedList, irs, ir_unqualified t, irs_unqualifiedList ts]

end

theorem irs_congr {ts ts' : List Ty} (h : ts.map Ty.unqualified = ts'.map Ty.unqualified) :
    p.irs ts = p.irs ts' := by
  rw [← p.irs_unqualifiedList ts, ← p.irs_unqualifiedList ts', Ty.unqualifiedList_eq_map, h,
    ← Ty.unqualifiedList_eq_map]

end Program

/-! ### Bodies -/

/-- What the block of a class starts with: the block of its base, or the pointer to its dispatch
table. -/
def ClassDef.firstIr (d : ClassDef) : IR.Ty :=
  match d.base with
  | some base => .named ("%class." ++ ofInstance base [])
  | none => .ptr

namespace Layout

/-- The body of the instance of a base for arguments. The words for the payloads of an enum and the
bytes of a union are those that some reachable memo leads to. -/
inductive Body (p : Program) : Sigil → String → List Ty → IR.Ty → Prop
  | direct {sigil base args body} (h : Direct sigil base args body) : Body p sigil base args body
  | struct {name args d} (hwrapped : isWrapped name args = false) (hd : p.struct? name = some d) :
      Body p .struct name args (.anon (p.irs (d.fieldTypes args)))
  | union {name args d depth e memo memo'} (hd : p.struct? name = some d) (hmemo : Reachable p memo)
      (he : (extentOf p depth (.ofName d.name args)).run memo = .ok (e, memo')) :
      Body p .union name args (.anon [.array e.size .i8])
  | enum {name args d depth words memo memo'} (hwrapped : isWrapped name args = false)
      (hstruct : p.struct? name = none) (hd : p.enum? name = some d) (hmemo : Reachable p memo)
      (hwords : (payloadWords p depth d args).run memo = .ok (words, memo')) :
      Body p .struct name args (.anon (if words = 0 then [.i32] else [.i32, .array words .i64]))
  | cls {name args d} (hd : p.class? name = some d) :
      Body p .cls name args (.anon (d.firstIr :: p.irs (d.fieldTypes args)))

/-- The type definitions that are bodies of the instances that their names show. -/
def IsBody (p : Program) (name : String) (body : IR.Ty) : Prop :=
  ∃ sigil base args, name = sigil.text ++ ofInstance base args ∧ IsCleanKey base args ∧
    Body p sigil base args body

/-- The steps that define only bodies. -/
def DefinesBodies (p : Program) : Step → Prop
  | .defineType name body => IsBody p name body
  | _ => True

theorem Represents.definesBodies (h : Represents p step) : DefinesBodies p step := by
  cases step with
  | defineType =>
    obtain ⟨sigil, base, args, hname, hkey, hdirect⟩ := h
    exact ⟨sigil, base, args, hname, hkey, .direct hdirect⟩
  | _ => trivial

end Layout

/-! ### Scripts that define bodies -/

namespace Gen

open Layout

variable {session : Session} {α : Type} {s s' : Build} {events : Gen.Trace}
  {symbol : String} {a : α} {ts : List Ty} {d : StructDef}

/-- A script that goes on with the program. -/
theorem runs_program_bind {f : Program → Gen α}
    (h : session.Runs (program >>= f) s events a s') :
    ∃ rest, session.Runs (f session.program) s rest a s' ∧
      events = ⟨.program, session.program⟩ :: rest :=
  h.of_ask_bind rfl

/-- An instance whose definition is found is generated from it. -/
theorem runs_generate_of {find : Program → Option α} {f : α → List Ty → String → Gen Unit}
    (hitem : generateFound item = program >>= fun p => generateFrom (find p) f item) {d : α}
    (hd : find session.program = some d)
    (h : session.Runs (generate item) s events () s') :
    ∃ own, session.Runs (f d item.args item.symbol) s own () s' ∧
      events = ⟨.program, session.program⟩ :: own := by
  rw [generate, hitem] at h
  obtain ⟨finding, found, s₁, reporting, hfound, hreport, rfl⟩ := h.of_bind
  obtain ⟨generating, hgenerate, rfl⟩ := runs_program_bind hfound
  rw [hd] at hgenerate
  obtain ⟨_, hown, rfl⟩ := hgenerate.of_bind_pure
  obtain ⟨rfl, -, rfl⟩ := hreport.of_pure
  exact ⟨generating, hown, append_nil _⟩

/-- The fields of a struct are represented, and then it is defined. -/
theorem runs_defineStruct (hunion : d.isUnion = false)
    (h : session.Runs (defineStruct d args symbol) s events () s') :
    ∃ own irs mid, session.Runs (irTypes (d.fieldTypes args)) s own irs mid ∧
      events = own ++ [⟨.defineType ("%struct." ++ symbol)
        (.anon (session.program.irs (d.fieldTypes args))), ()⟩] := by
  rw [defineStruct, if_neg (Bool.eq_false_iff.1 hunion)] at h
  obtain ⟨own, mid, _, hown, hdefine, rfl⟩ := (gives_irs session _).of_bind h
  obtain ⟨-, rfl⟩ := hdefine.of_ask
  exact ⟨own, _, mid, hown, rfl⟩

/-- The size of a union is asked for first. -/
theorem runs_defineUnion (hunion : d.isUnion = true)
    (h : session.Runs (defineStruct d args symbol) s events () s') :
    ∃ e memo own irs mid, (Layout.extentOf session.program session.settings.depth
        (.ofName d.name args)).run s.memo = .ok (e, memo) ∧
      session.Runs (irTypes (d.fieldTypes args)) { s with memo } own irs mid ∧
      events = ⟨.extent (.ofName d.name args), e⟩ ::
        (own ++ [⟨.defineType ("%union." ++ symbol) (.anon [.array e.size .i8]), ()⟩]) := by
  rw [defineStruct, if_pos hunion] at h
  obtain ⟨_, size, s₁, _, hsize, hrest, rfl⟩ := h.of_bind
  obtain ⟨e, hask, rfl⟩ := hsize.of_bind_pure
  obtain ⟨hperform, rfl⟩ := hask.of_ask
  obtain ⟨memo, hquery, rfl⟩ := Build.query_eq_ok hperform
  obtain ⟨own, _, _, _, hfields, hdefine, rfl⟩ := hrest.of_bind
  obtain ⟨_, hown, -⟩ := hfields.of_bind_pure
  obtain ⟨-, rfl⟩ := hdefine.of_ask
  exact ⟨e, memo, own, _, _, hquery, hown, rfl⟩

/-- The payloads of an enum are represented, and then the words for them are asked for. -/
theorem runs_defineEnum {d : EnumDef}
    (h : session.Runs (defineEnum d args symbol) s events () s') :
    ∃ own irs mid words, session.Runs (irTypes (payloads d args)) s own irs mid ∧
      (payloadWords session.program session.settings.depth d args).run s.memo =
        .ok (words, s'.memo) ∧
      events = own ++ [⟨.payloadWords d args, words⟩, ⟨.defineType ("%struct." ++ symbol)
        (.anon (if words = 0 then [.i32] else [.i32, .array words .i64])), ()⟩] := by
  obtain ⟨own, _, _, _, hpayloads, hrest, rfl⟩ := h.of_bind
  obtain ⟨_, hown, -⟩ := hpayloads.of_bind_pure
  obtain ⟨words, last, _, hwords, hdefine, rfl⟩ := hrest.of_step_bind
  obtain ⟨hbody, rfl⟩ := hdefine.of_ask
  obtain ⟨memo, hquery, rfl⟩ := Build.query_eq_ok hwords
  cases hbody
  rw [((gives_irs session _).of_runs hown).2.1] at hquery
  exact ⟨own, _, _, words, hown, hquery, rfl⟩

theorem gives_classStruct (name : String) :
    Gives session (DefinesBodies session.program) (classStruct name [])
      (.named ("%class." ++ ofInstance name [])) := by
  have hdefined : Gives session (DefinesBodies session.program) (definedType name [])
      (session.program.definedIr name []) :=
    gives_definedType trivial (fun _ => trivial) (fun _ _ _ => trivial) (fun _ _ _ _ => trivial)
      fun _ _ _ _ _ => trivial
  have hbase : ∃ ir,
      Gives session (DefinesBodies session.program) (irType (.ofName name [])) ir := by
    rw [Ty.ofName, irType]
    split
    · exact ⟨_, .pure _⟩
    · rw [nominalType_of_not_isWrapped (by rw [isWrapped, Bool.and_comm]; rfl)]
      exact ⟨_, hdefined⟩
  obtain ⟨ir, hir⟩ := hbase
  exact (hir.bind (Gives.pure ())).bind (.pure _)

/-- What a class starts with and its fields are represented, and then it is defined. -/
theorem runs_defineClass {d : ClassDef}
    (h : session.Runs (defineClass d args symbol) s events () s') :
    ∃ first own mid irs mid', (∀ event ∈ first, DefinesBodies session.program event.1) ∧
      session.Runs (irTypes (d.fieldTypes args)) mid own irs mid' ∧
      events = first ++ (own ++ [⟨.defineType ("%class." ++ symbol)
        (.anon (d.firstIr :: session.program.irs (d.fieldTypes args))), ()⟩]) := by
  rw [defineClass] at h
  rw [ClassDef.firstIr]
  generalize d.base = base at h ⊢
  -- The two kinds of a first slot go on in the same way.
  cases base
  all_goals
    obtain ⟨first, _, mid, _, hfirst, hrest, rfl⟩ := h.of_bind
    obtain ⟨own, mid', _, hown, hdefine, rfl⟩ := (gives_irs session _).of_bind hrest
    obtain ⟨-, rfl⟩ := hdefine.of_ask
  · obtain ⟨rfl, -, hfirst⟩ := (Gives.pure _).of_runs hfirst
    exact ⟨first, own, mid, _, mid', hfirst, hown, rfl⟩
  · obtain ⟨rfl, -, hfirst⟩ := (gives_classStruct _).of_runs hfirst
    exact ⟨first, own, mid, _, mid', hfirst, hown, rfl⟩

theorem definesBodies_of_irTypes {irs : List IR.Ty} (hts : ∀ t ∈ ts, t.Writable)
    (h : session.Runs (irTypes ts) s events irs s') :
    ∀ event ∈ events, DefinesBodies session.program event.1 :=
  fun event hevent => (((gives_irTypes session ts hts).of_runs h).2.2 event hevent).definesBodies

/-- Generating an instance that a representation requests defines only bodies. -/
theorem definesBodies_of_generate (hp : session.program.HasCleanTypes)
    (hitem : Requested session.program item) (hmemo : Reachable session.program s.memo)
    (h : session.Runs (generate item) s events () s') :
    ∀ event ∈ events, DefinesBodies session.program event.1 := by
  cases hitem with
  | @struct name args d hrequest hd =>
    obtain ⟨m, hm, hitem⟩ := Program.mem_of_lookup hd
    have hfields := FieldDef.writable_typesUnder (hp.structs m hm d hitem) hrequest.key.args
    obtain ⟨_, hown, rfl⟩ := runs_generate_of rfl hd h
    refine forall_mem_cons.2 ⟨trivial, ?_⟩
    cases hunion : d.isUnion with
    | true =>
      obtain ⟨e, memo, own, irs, mid, he, hirs, rfl⟩ := runs_defineUnion hunion hown
      exact forall_mem_cons.2 ⟨trivial, forall_mem_append.2
        ⟨definesBodies_of_irTypes (hfields _) hirs, forall_mem_singleton.2
          ⟨.union, name, args, rfl, hrequest.key, .union hd hmemo he⟩⟩⟩
    | false =>
      obtain ⟨own, irs, mid, hirs, rfl⟩ := runs_defineStruct hunion hown
      exact forall_mem_append.2 ⟨definesBodies_of_irTypes (hfields _) hirs, forall_mem_singleton.2
          ⟨.struct, name, args, rfl, hrequest.key, .struct hrequest.notWrapped hd⟩⟩
  | @enum name args d hrequest hstruct hd =>
    obtain ⟨m, hm, hitem⟩ := Program.mem_of_lookup hd
    have hpayloads := EnumDef.writable_payloads (hp.enums m hm d hitem) hrequest.key.args
    obtain ⟨_, hown, rfl⟩ := runs_generate_of rfl hd h
    obtain ⟨own, irs, mid, words, hirs, hwords, rfl⟩ := runs_defineEnum hown
    exact forall_mem_cons.2 ⟨trivial, forall_mem_append.2
      ⟨definesBodies_of_irTypes hpayloads hirs, forall_mem_cons.2 ⟨trivial,
        forall_mem_singleton.2 ⟨.struct, name, args, rfl, hrequest.key,
          .enum hrequest.notWrapped hstruct hd hmemo hwords⟩⟩⟩⟩
  | @cls name args d hrequest _ _ hd =>
    obtain ⟨m, hm, hitem⟩ := Program.mem_of_lookup hd
    have hfields := FieldDef.writable_typesUnder (hp.classes m hm d hitem) hrequest.key.args
    obtain ⟨_, hown, rfl⟩ := runs_generate_of rfl hd h
    obtain ⟨first, own, mid, irs, mid', hfirst, hirs, rfl⟩ := runs_defineClass hown
    exact forall_mem_cons.2 ⟨trivial, forall_mem_append.2 ⟨hfirst,
      forall_mem_append.2 ⟨definesBodies_of_irTypes (hfields _) hirs,
        forall_mem_singleton.2 ⟨.cls, name, args, rfl, hrequest.key, .cls hd⟩⟩⟩⟩

end Gen

namespace Layout

variable {p : Program} {name : String} {body : IR.Ty}

/-- The bodies that are written for a name: while a type with clean names is represented, or when
an instance that its representation requests is generated. -/
inductive Emits (p : Program) : String → IR.Ty → Prop
  | represented {session t s s' events ir name body} (hsession : session.program = p)
      (ht : t.Writable) (hrun : Runs (Step.perform session) (Gen.irType t) s events ir s')
      (hbody : ⟨.defineType name body, ()⟩ ∈ events) : Emits p name body
  | generated {session session' t s₁ s₁' s₂ s₂' events₁ events₂ ir item} {symbol : String}
      {name body}
      (hsession : session.program = p) (ht : t.Writable)
      (hrun : Runs (Step.perform session) (Gen.irType t) s₁ events₁ ir s₁')
      (hitem : ⟨.require item, symbol⟩ ∈ events₁) (hsession' : session'.program = p)
      (hmemo : Reachable p s₂.memo)
      (hgenerate : Runs (Step.perform session') (Gen.generate item) s₂ events₂ () s₂')
      (hbody : ⟨.defineType name body, ()⟩ ∈ events₂) : Emits p name body

/-- What is written for a name is the body of the instance that it shows. -/
theorem Emits.isBody (hp : p.HasCleanTypes) (h : Emits p name body) : IsBody p name body := by
  cases h with
  | represented hsession ht hrun hbody =>
    subst hsession
    exact ((Gen.gives_irType _ _ ht).of_runs hrun).2.2 _ hbody |>.definesBodies
  | generated hsession ht hrun hitem hsession' hmemo hgenerate hbody =>
    have hrequested := ((Gen.gives_irType _ _ ht).of_runs hrun).2.2 _ hitem
    rw [hsession] at hrequested
    subst hsession'
    exact Gen.definesBodies_of_generate hp hrequested hmemo hgenerate _ hbody

end Layout

/-! ### What is written for an instance -/

section Asks

variable {α β : Type} {session : Session} {s s' : Build} {step : Step} {m : Gen α} {f : α → Gen β}

/-- A script has a run from some state, and one of its events is a certain step. -/
def Asks (session : Session) (s : Build) (m : Gen α) (step : Step) : Prop :=
  ∃ events a s' answer, session.Runs m s events a s' ∧ ⟨step, answer⟩ ∈ events

theorem asks_perform {answer : step.Answer} (h : step.perform session s = .ok (answer, s')) :
    Asks session s (Gen.perform step) step :=
  ⟨_, answer, s', answer, runs_ask_done_iff.2 ⟨h, rfl⟩, mem_singleton_self _⟩

theorem Asks.ask {other : Step} {answer : other.Answer} {next : other.Answer → Gen α}
    (hperform : other.perform session s = .ok (answer, s'))
    (h : Asks session s' (next answer) step) : Asks session s (.ask other next) step := by
  obtain ⟨events, a, last, own, hrun, hmem⟩ := h
  exact ⟨_, a, last, own, .ask hperform hrun, mem_cons_of_mem _ hmem⟩

/-- The first step of a script that has a run is asked for. -/
theorem Gives.asks_first {f : step.Answer → Gen β} {b : β}
    (h : Gives session E (Gen.perform step >>= f) b) (s : Build) :
    Asks session s (Gen.perform step >>= f) step := by
  obtain ⟨events, s', hrun, -, -⟩ := h s
  obtain ⟨answer, _, _, -, -, rfl⟩ := hrun.of_step_bind
  exact ⟨_, b, s', answer, hrun, mem_cons_self⟩

theorem Asks.bind (hm : Asks session s m step)
    (hf : ∀ a, ∃ b, Gives session (fun _ => True) (f a) b) : Asks session s (m >>= f) step := by
  obtain ⟨first, a, mid, answer, hfirst, hmem⟩ := hm
  obtain ⟨b, hb⟩ := hf a
  obtain ⟨rest, last, hrest, -, -⟩ := hb mid
  exact ⟨_, b, last, answer, hfirst.bind hrest, mem_append_left _ hmem⟩

theorem Gives.bind_asks {a : α} (hm : Gives session E m a)
    (hf : ∀ s', s'.memo = s.memo → Asks session s' (f a) step) : Asks session s (m >>= f) step := by
  obtain ⟨first, mid, hfirst, hmemo, -⟩ := hm s
  obtain ⟨rest, b, last, answer, hrest, hmem⟩ := hf mid hmemo
  exact ⟨_, b, last, answer, hfirst.bind hrest, mem_append_right _ hmem⟩

end Asks

namespace Gen

open Layout

variable {session : Session} {s : Build} {name : String} {args : List Ty} {d : StructDef}
  {memo : Memo}

theorem asks_defineType (session : Session) (s : Build) (name : String) (body : IR.Ty) :
    Asks session s (defineType name body) (.defineType name body) :=
  asks_perform rfl

/-- The instances that a definition is represented by are requested. -/
theorem asks_definedType (h : Requested session.program item) :
    Asks session s (definedType item.base item.args) (.require item) := by
  refine (gives_program (E := fun _ => True) trivial).bind_asks fun s' _ => ?_
  obtain ⟨h, hd⟩ | ⟨h, hstruct, hd⟩ | ⟨h, hstruct, henum, hd⟩ := h <;>
    dsimp only [WorkItem.plain]
  · rw [hd, h.closed, ← Program.name_of_struct? (isBare_of_isClean h.key.base) hd]
    exact Asks.bind (asks_perform rfl) fun _ => ⟨_, .pure _⟩
  · rw [hstruct, hd, h.closed, ← Program.name_of_enum? (isBare_of_isClean h.key.base) hd]
    exact Asks.bind (asks_perform rfl) fun _ => ⟨_, .pure _⟩
  · rw [hstruct, henum, hd, h.closed, ← Program.name_of_class? (isBare_of_isClean h.key.base) hd]
    exact Asks.bind (asks_perform rfl) fun _ => ⟨_, .pure _⟩

theorem irType_of_declared? {t : Ty} (hname : IsClean name)
    (hdeclared : t.declared? = some (name, args)) :
    ∃ representArgs, irType t = nominalType name args representArgs := by
  obtain ⟨qualifier, rfl⟩ | ⟨rfl, rfl⟩ := Ty.eq_of_declared? hdeclared
  · rw [irType, hname.ofName?_eq_none, ite_self]
    exact ⟨_, rfl⟩
  · rw [irType]
    exact ⟨_, rfl⟩

/-- An instance whose definition is found is generated from it. -/
theorem asks_generate_of {α : Type} {find : Program → Option α}
    {f : α → List Ty → String → Gen Unit} {d : α}
    (hitem : generateFound item = program >>= fun p => generateFrom (find p) f item)
    (hd : find session.program = some d)
    (h : ∀ s', s'.memo = s.memo → Asks session s' (f d item.args item.symbol) step) :
    Asks session s (generate item) step := by
  rw [generate, hitem]
  refine Asks.bind ((gives_program (E := fun _ => True) trivial).bind_asks fun s' hs' => ?_)
    fun found => ?_
  · rw [hd]
    exact (h s' hs').bind fun _ => ⟨_, .pure _⟩
  · split
    · exact ⟨(), gives_perform trivial fun _ => ⟨_, rfl, rfl⟩⟩
    · exact ⟨(), Gives.pure ()⟩

theorem asks_generate_struct (hd : session.program.struct? name = some d)
    (hunion : d.isUnion = false) :
    Asks session s (generate (.plain .struct name args))
      (.defineType ("%struct." ++ ofInstance name args)
        (.anon (session.program.irs (d.fieldTypes args)))) := by
  refine asks_generate_of rfl hd fun _ _ => ?_
  rw [defineStruct, if_neg (Bool.eq_false_iff.1 hunion)]
  exact (gives_irs _ _).bind_asks fun _ _ => asks_defineType _ _ _ _

theorem asks_generate_union (hd : session.program.struct? name = some d) (hunion : d.isUnion = true)
    {e : Extent} (he : (Layout.extentOf session.program session.settings.depth
      (.ofName d.name args)).run s.memo = .ok (e, memo)) :
    Asks session s (generate (.plain .struct name args))
      (.defineType ("%union." ++ ofInstance name args) (.anon [.array e.size .i8])) := by
  refine asks_generate_of rfl hd fun s₁ hs₁ => ?_
  rw [defineStruct, if_pos hunion]
  have hperform : (Step.extent (.ofName d.name args)).perform session s₁ =
      .ok (e, { s₁ with memo := memo }) := by
    rw [← hs₁] at he
    rw [Step.perform, Build.query, he]
  exact .ask hperform (((gives_irs _ _).bind (Gives.pure ())).bind_asks fun _ _ =>
    asks_defineType _ _ _ _)

theorem asks_generate_enum {d : EnumDef} (hd : session.program.enum? name = some d) {words : UInt64}
    (hwords : (payloadWords session.program session.settings.depth d args).run s.memo =
      .ok (words, memo)) :
    Asks session s (generate (.plain .enum name args))
      (.defineType ("%struct." ++ ofInstance name args)
        (.anon (if words = 0 then [.i32] else [.i32, .array words .i64]))) := by
  refine asks_generate_of rfl hd fun s₁ hs₁ =>
    ((gives_irs _ _).bind (Gives.pure ())).bind_asks fun s₂ hs₂ => ?_
  have hperform : (Step.payloadWords d args).perform session s₂ =
      .ok (words, { s₂ with memo := memo }) := by
    rw [← hs₁, ← hs₂] at hwords
    rw [Step.perform, Build.query, hwords]
  exact .ask hperform (asks_defineType _ _ _ _)

theorem asks_generate_cls {d : ClassDef} (hd : session.program.class? name = some d) :
    Asks session s (generate (.plain .cls name args))
      (.defineType ("%class." ++ ofInstance name args)
        (.anon (d.firstIr :: session.program.irs (d.fieldTypes args)))) := by
  refine asks_generate_of rfl hd fun s' _ => ?_
  rw [defineClass, ClassDef.firstIr]
  cases d.base with
  | none => exact (gives_irs _ _).bind_asks fun _ _ => asks_defineType _ _ _ _
  | some base =>
    exact (gives_classStruct base).bind_asks fun _ _ =>
      (gives_irs _ _).bind_asks fun _ _ => asks_defineType _ _ _ _

end Gen

namespace Layout

variable {p : Program} {t : Ty} {name : String} {body : IR.Ty}

theorem emits_of_asks (session : Session) (s : Build) (hsession : session.program = p)
    (ht : t.Writable) (h : Asks session s (Gen.irType t) (.defineType name body)) :
    Emits p name body := by
  obtain ⟨events, ir, s', answer, hrun, hmem⟩ := h
  exact .represented hsession ht hrun hmem

/-- What is written when a requested instance is generated. -/
theorem emits_of_requested (depth : Nat) (ht : t.Writable)
    (hdeclared : t.declared? = some (item.base, item.args)) (hitem : Requested p item)
    (h : Asks ⟨p, { depth }⟩ (.initial {}) (Gen.generate item) (.defineType name body)) :
    Emits p name body := by
  have hrequest : Asks ⟨p, { depth }⟩ (.initial {}) (Gen.irType t) (.require item) := by
    obtain ⟨representArgs, hir⟩ :=
      Gen.irType_of_declared? (Gen.isCleanKey_of_declared? ht hdeclared).base hdeclared
    rw [hir, Gen.nominalType_of_not_isWrapped hitem.notWrapped]
    exact Gen.asks_definedType hitem
  obtain ⟨events, ir, s', symbol, hrun, hmem⟩ := hrequest
  obtain ⟨events', a, s'', answer, hrun', hmem'⟩ := h
  exact .generated rfl ht hrun hmem rfl .initial hrun' hmem'

theorem emits_dyn {behavior : String} (h : (Ty.dyn behavior args).Writable) :
    Emits p ("%dyn." ++ ofInstance behavior args) .fatPtr := by
  have hgives := Gen.gives_irType ⟨p, {}⟩ _ h
  refine emits_of_asks ⟨p, {}⟩ (.initial {}) rfl h ?_
  rw [Gen.irType] at hgives ⊢
  exact hgives.asks_first _

theorem emits_boxed {wrapper : Wrapper} {arg : Ty} (ht : t.Writable)
    (hdeclared : t.declared? = some (name, [arg]))
    (hwrapper : Wrapper.ofName? name = some wrapper) (hboxed : wrapper.isBoxed = true) :
    Emits p ("%struct." ++ ofInstance name [arg]) (.anon [.ptr]) := by
  have hgives := Gen.gives_irType ⟨p, {}⟩ _ ht
  refine emits_of_asks ⟨p, {}⟩ (.initial {}) rfl ht ?_
  obtain ⟨representArgs, hir⟩ :=
    Gen.irType_of_declared? (Gen.isCleanKey_of_declared? ht hdeclared).base hdeclared
  simp only [hir, Gen.nominalType, hwrapper, hboxed, if_true] at hgives ⊢
  exact hgives.asks_first _

end Layout

end Monomorph
