import Monomorph.Lowering.Expr
import Monomorph.Proofs.Lowering.FieldWalk

/-!
# The fields that class literals store

A class literal stores the fields that it lists, and then the defaults of those fields on the chain
of the class whose names it does not list. A field is addressed by its name, in the nearest class
that declares one of this name. So of the fields with one name only this one is stored, and a field
of an ancestor that has been redeclared is left as the memory was.

## Main results

* `Lowering.classLiteral_fills`.
-/

namespace Monomorph

open List Script

variable {events events' : List (Event Step.Answer)}

/-- Some of the events step to a part of an object, and store something there. -/
def Fills (events : List (Event Step.Answer)) (object : IR.Operand)
    (steps : List (String × Nat)) : Prop :=
  ∃ looking between value target,
    looking ++ (between ++ [⟨.emit (.store value target), ()⟩]) <:+: events ∧
      IR.Walk object steps (addresses looking) target

/-- The member that an instruction addresses. -/
def IR.Instr.member? : IR.Instr → Option (String × Nat)
  | .member _ (.named name) _ index => some (name, index)
  | _ => none

theorem IR.Walk.map_member? {addr target : IR.Operand} {steps : List (String × Nat)}
    {is : List IR.Instr} (h : IR.Walk addr steps is target) :
    is.map IR.Instr.member? = steps.map some := by
  induction h with
  | refl => rfl
  | member _ ih => exact congrArg (some _ :: ·) ih

namespace Lowering

variable {session : Session} {l : Lowering} {s s' : Build} {d : ClassDef} {args : List Ty}
  {object : IR.Operand} {inits : List FieldInit} {span : Span} {name : String}

/-- Some of the events look for a field of an instance, and store something there. -/
def Filled (session : Session) (d : ClassDef) (args : List Ty) (object : IR.Operand)
    (events : List (Event Step.Answer)) (name : String) : Prop :=
  ∃ s looking place s' between value,
    session.Runs (Gen.classField? object d.name args name) s looking (some place)
      s' ∧
    looking ++ (between ++ [⟨.emit (.store value place.addr), ()⟩]) <:+: events

theorem Filled.mono (h : Filled session d args object events name) (hsub : events <:+: events') :
    Filled session d args object events' name := by
  obtain ⟨s, looking, place, s', between, value, hruns, hin⟩ := h
  exact ⟨s, looking, place, s', between, value, hruns, hin.trans hsub⟩

/-- A field that is looked for is filled by what stores there. -/
theorem filled_of_storePlace {e : Expr} {place : Place} {mid : Build}
    (hlook : session.Runs (Gen.classField? object d.name args name) s events
      (some place) mid)
    (h : session.Runs (l.storePlace e place) mid events' () s') :
    Filled session d args object (events ++ events') name := by
  obtain ⟨between, value, s₁, rest, -, hstore, rfl⟩ := h.of_bind
  obtain ⟨-, rfl⟩ := hstore.of_ask
  exact ⟨s, events, place, mid, between, value, hlook, infix_rfl⟩

theorem filled_of_fillInits {written : List String}
    (h : session.Runs (l.fillInits d args object inits) s events written s') :
    ∀ name ∈ written, Filled session d args object events name := by
  induction inits generalizing s s' events written with
  | nil =>
    obtain ⟨-, rfl, -⟩ := h.of_pure
    exact forall_mem_nil _
  | cons init inits ih =>
    obtain ⟨looking, found, s₁, rest, hlook, hrest, rfl⟩ := h.of_bind
    cases found with
    | none =>
      obtain ⟨_, _, _, rest₁, -, h₁, rfl⟩ := hrest.of_bind
      obtain ⟨_, _, _, rest₂, -, h₂, rfl⟩ := h₁.of_bind
      intro name hname
      exact (ih h₂ name hname).mono ((infix_append_right.trans infix_append_right).trans
        infix_append_right)
    | some place =>
      obtain ⟨storing, _, s₂, rest₁, hstore, h₁, rfl⟩ := hrest.of_bind
      obtain ⟨names, hfill, rfl⟩ := h₁.of_bind_pure
      rw [← append_assoc]
      refine forall_mem_cons.2 ⟨?_, fun name hname => ?_⟩
      · exact (filled_of_storePlace hlook hstore).mono infix_append_left
      · exact (ih hfill name hname).mono infix_append_right

/-- A field of the chain that is not listed gets its default. -/
theorem filled_of_fillDefault {decl : FieldDef}
    (hdecl : ∃ c ∈ session.program.classChain d.name, c.fieldIndex? decl.name ≠ none)
    (h : session.Runs (l.fillDefault d args object span decl) s events () s')
    (hreports : ∀ report ∈ reports events, report.code ≠ .field) :
    Filled session d args object events decl.name := by
  rw [fillDefault] at h
  split at h
  · obtain ⟨-, rfl⟩ := h.of_ask
    exact absurd rfl (hreports _ mem_cons_self)
  · obtain ⟨looking, found, s₁, rest, hlook, hrest, rfl⟩ := h.of_bind
    cases found with
    | none =>
      obtain ⟨c, hc, hne⟩ := hdecl
      exact absurd ((Gen.classField?_eq_none_iff hlook).1 rfl c hc) hne
    | some place => exact filled_of_storePlace hlook hrest

/-- A class literal that reports no error about fields stores each field that is the nearest of its
name into the new instance. -/
theorem classLiteral_fills {value : Value} (hd : d.isValue = false)
    (h : Runs (Step.perform session) (l.classLiteral d args inits span) s events value s')
    (hreports : ∀ report ∈ reports events, report.code ≠ .field) :
    ∃ first rest mid, events = first ++ rest ∧
      Runs (Step.perform session) (Gen.newInstance d args) s first value.operand mid ∧
      ∀ below owner above field index,
        session.program.classChain d.name = below ++ owner :: above →
        (∀ c ∈ below, c.fieldIndex? field = none) → owner.fieldIndex? field = some index →
        Fills rest value.operand
          (Gen.blockSteps index (d.block args) ((below ++ [owner]).drop 1)) := by
  obtain ⟨making, object, s₁, rest, hmake, hrest, rfl⟩ := runs_bind_iff.1 h
  obtain ⟨filling, written, s₂, rest₁, hfill, h₁, rfl⟩ := runs_bind_iff.1 hrest
  obtain ⟨rest₂, h₂, rfl⟩ := h₁.of_ask_bind rfl
  obtain ⟨defaulting, _, s₃, rest₃, hdefaults, h₃, rfl⟩ := runs_bind_iff.1 h₂
  have hobject : value.operand = object := by
    rw [Gen.instanceValue, hd] at h₃
    rw [(runs_pure_iff.1 h₃).2.1]
  subst hobject
  refine ⟨making, _, s₁, rfl, hmake, fun below owner above field index hchain hbelow hindex => ?_⟩
  have hfilled : Filled session d args value.operand
      (filling ++ ⟨.program, session.program⟩ :: (defaulting ++ rest₃)) field := by
    by_cases hwritten : field ∈ written
    · exact (filled_of_fillInits hfill field hwritten).mono List.infix_append_left
    · obtain ⟨hlt, hname, -⟩ := List.findIdx?_eq_some_iff_getElem.1 hindex
      obtain rfl : owner.fields[index].name = field := of_decide_eq_true hname
      have howner : owner ∈ session.program.classChain d.name :=
        hchain ▸ List.mem_append_right _ List.mem_cons_self
      have hunlisted : owner.fields[index] ∈ (session.program.classChain d.name).flatMap
          fun owner => owner.fields.filter fun decl => !written.contains decl.name :=
        List.mem_flatMap.2 ⟨owner, howner, List.mem_filter.2 ⟨List.getElem_mem hlt, by simpa⟩⟩
      obtain ⟨before, t, own, t', after, -, hown, -, rfl⟩ := hdefaults.forM hunlisted
      have hpart : own <:+: filling ++ ⟨.program, session.program⟩ ::
          (before ++ (own ++ after) ++ rest₃) :=
        ⟨filling ++ ⟨.program, session.program⟩ :: before, after ++ rest₃, by simp⟩
      refine (filled_of_fillDefault ⟨owner, howner, by rw [hindex]; nofun⟩ hown
        fun report hreport => hreports report ?_).mono hpart
      exact reports_subset (hpart.trans List.infix_append_right) hreport
  obtain ⟨t, looking, place, t', between, stored, hlook, hin⟩ := hfilled
  obtain ⟨⟨⟩, -⟩ | ⟨_, _, _, _, ⟨⟩, huntil, -, hwalk, -⟩ := Gen.runs_classField? hlook
  rw [hchain, Gen.untilField?_append hbelow hindex] at huntil
  cases huntil
  exact ⟨looking, between, stored, place.addr, hin, hwalk⟩

/-- A class that redeclares a field of the class under it. -/
def leaf : ClassDef where
  name := "Leaf"
  base := some "Base"
  fields := [⟨"x", .prim .i32, some (.lit {} (.int 2))⟩]

/-- A class with two fields, and a class over it that redeclares one of them. -/
def redeclared : Program where
  home := {
    classes := .ofList [
      { name := "Base"
        fields := [
          ⟨"x", .prim .i32, some (.lit {} (.int 7))⟩, ⟨"y", .prim .i32, some (.lit {} (.int 1))⟩] },
      leaf] }

/-- A literal of the class over the other, which lists no fields. -/
def leafLiteral : Gen Value :=
  (ofDepth .empty (.prim .unit) 1).classLiteral leaf [] [] .dummy

/-- The field that only the ancestor declares is stored. -/
theorem classLiteral_fills_inherited :
    ∃ events value s', Runs (Step.perform ⟨redeclared, {}⟩) leafLiteral (.initial {}) events value
      s' ∧ reports events = [] ∧
        ∃ first rest, events = first ++ rest ∧
          Fills rest value.operand [("%class.Leaf", 0), ("%class.Base", 2)] := by
  obtain ⟨events, value, s', hruns, hreports⟩ :=
    exists_runs_of_trace (Step.perform ⟨redeclared, {}⟩) leafLiteral (.initial {})
      (fun out => reports out.1 = []) (by decide +kernel)
  obtain ⟨first, rest, mid, hevents, -, hfills⟩ := classLiteral_fills rfl hruns
    (hreports ▸ List.forall_mem_nil _)
  refine ⟨events, value, s', hruns, hreports, first, rest, hevents, ?_⟩
  exact hfills [_] _ [] "y" 1 rfl (List.forall_mem_singleton.2 rfl) rfl

/-- The field that is declared again is not stored where the ancestor declares it. -/
theorem classLiteral_skips_redeclared :
    ∃ events value s', Runs (Step.perform ⟨redeclared, {}⟩) leafLiteral (.initial {}) events value
      s' ∧ reports events = [] ∧
        ¬Fills events value.operand [("%class.Leaf", 0), ("%class.Base", 1)] := by
  obtain ⟨events, value, s', hruns, hreports, hskips⟩ :=
    exists_runs_of_trace (Step.perform ⟨redeclared, {}⟩) leafLiteral (.initial {})
      (fun out => reports out.1 = [] ∧
        some ("%class.Base", 1) ∉ (addresses out.1).map IR.Instr.member?) (by decide +kernel)
  refine ⟨events, value, s', hruns, hreports, ?_⟩
  rintro ⟨looking, between, stored, target, hin, hwalk⟩
  have hlooking : addresses looking ⊆ addresses events :=
    ((List.infix_append_left.trans hin).filterMap _).subset
  refine hskips (List.map_subset _ hlooking ?_)
  rw [hwalk.map_member?]
  decide

end Lowering

end Monomorph
