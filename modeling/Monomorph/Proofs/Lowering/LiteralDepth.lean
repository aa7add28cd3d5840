import Monomorph.Proofs.Layout.Repetition
import Monomorph.Proofs.Lowering.Naming

/-!
# How deep literals nest

Lowering follows the structure of expressions, except that a literal is lowered with the defaults of
the fields that it leaves out. A default may hold further literals, so how deep an expression nests
depends on the definitions. If no endless sequence of expressions can be gone through in this way,
then some depth is enough. A default that holds a literal of its own type which leaves the field out
has no such depth.

## Main results

* `Program.acc_iff_exists_within`, `Lowering.record_returns`.
-/

namespace Monomorph

open List Script

/-! ### Nesting -/

namespace Program

/-- An expression and what it opens into nest less than `n` deep. -/
def Within (p : Program) : Nat → Expr → Prop
  | 0, _ => False
  | n + 1, e => ∀ part ∈ p.opened e, Within p n part

instance decidableWithin (p : Program) : (n : Nat) → DecidablePred (p.Within n)
  | 0, _ => inferInstanceAs (Decidable False)
  | n + 1, _ =>
    have := p.decidableWithin n
    inferInstanceAs (Decidable (∀ part ∈ p.opened _, p.Within n part))

variable {p : Program} {e : Expr}

theorem Within.succ {n : Nat} (h : p.Within n e) : p.Within (n + 1) e := by
  induction n generalizing e with
  | zero => exact h.elim
  | succ n ih => exact fun part hpart => ih (h part hpart)

theorem Within.mono {m n : Nat} (h : p.Within m e) (hle : m ≤ n) : p.Within n e := by
  induction hle with
  | refl => exact h
  | step _ ih => exact ih.succ

/-- Finitely many expressions have a common bound. -/
theorem exists_within_forall {es : List Expr} (h : ∀ e ∈ es, ∃ n, p.Within n e) :
    ∃ n, ∀ e ∈ es, p.Within n e := by
  induction es with
  | nil => exact ⟨0, forall_mem_nil _⟩
  | cons e es ih =>
    obtain ⟨⟨m, hm⟩, hes⟩ := forall_mem_cons.1 h
    obtain ⟨n, hn⟩ := ih hes
    exact ⟨max m n, forall_mem_cons.2
      ⟨hm.mono (le_max_left m n), fun e he => (hn e he).mono (le_max_right m n)⟩⟩

/-- An expression nests finitely deep if no endless sequence of expressions starts with it, each of
which is opened to find the next. -/
theorem acc_iff_exists_within :
    Acc (fun part whole => part ∈ p.opened whole) e ↔ ∃ n, p.Within n e := by
  constructor
  · intro h
    induction h with
    | intro e _ ih =>
      obtain ⟨n, hn⟩ := exists_within_forall ih
      exact ⟨n + 1, hn⟩
  · rintro ⟨n, h⟩
    induction n generalizing e with
    | zero => exact h.elim
    | succ n ih => exact .intro e fun part hpart => ih (h part hpart)

end Program

/-! ### Enough depth -/

/-- The session in which layouts may go `n` definitions deep. -/
abbrev Session.toDepth (program : Program) (settings : Settings) (n : Nat) : Session :=
  ⟨program, { settings with depth := n }⟩

/-- A query that is covered by another is answered as that one. -/
theorem Build.query_of_covers {α : Type} {q q' : Layout.Query α} {s : Build} {out : α × Build}
    (hcovers : Layout.Covers q q') (h : s.query q = .ok out) : s.query q' = .ok out := by
  rw [query] at h ⊢
  split at h
  · cases h
  next hrun =>
    rw [hcovers _ _ hrun]
    exact h

namespace Step

/-- The steps that ask for a layout. -/
def isQuery : Step → Bool
  | extent _ | classExtent .. | payloadWords .. => true
  | _ => false

variable {session : Session} {step : Step} {s : Build}

/-- Only a layout that is asked for may not be given. -/
theorem isQuery_of_perform_eq_error {fault : Fault}
    (h : step.perform session s = .error fault) : step.isQuery := by
  cases step with
  | extent | classExtent | payloadWords => rfl
  | _ => cases h

/-- Only a step that reads the depth does something else where layouts may go deeper. -/
theorem perform_toDepth {program : Program} {settings : Settings} {n n' : Nat}
    {out : step.Answer × Build} (hdepth : step ≠ depth)
    (hle : n ≤ n') (h : step.perform (.toDepth program settings n) s = .ok out) :
    step.perform (.toDepth program settings n') s = .ok out := by
  cases step with
  | depth => exact (hdepth rfl).elim
  | extent t => exact Build.query_of_covers (Layout.covers_extentOf hle t) h
  | classExtent d args => exact Build.query_of_covers (Layout.covers_classExtent hle d args) h
  | payloadWords d args => exact Build.query_of_covers (Layout.covers_payloadWords hle d args) h
  | _ => exact h

end Step

variable {session : Session}

/-- Only expressions that nest less than `n` deep are lowered, and code does not end without a
result. -/
def Focus.within (session : Session) (n : Nat) : Focus session :=
  { Focus.none session with
    Code := session.program.Within n
    Opens := session.program.Within (n + 1)
    Fails := False
    opens := .succ
    opened := id
    binds := fun _ _ => trivial }

instance (n : Nat) : (Focus.within session n).IsLoose :=
  ⟨fun _ => trivial, fun _ => trivial, fun _ => trivial⟩

/-- The definitions of types do not depend on how deep expressions nest. -/
theorem Naming.writes_within {m : Nat} (n : Nat) {name : String} {body : IR.Ty}
    (h : (following (.within session m)).Writes name body) :
    (following (.within session n)).Writes name body := by
  cases h with
  | dyn hbehavior hargs => exact .dyn hbehavior hargs
  | boxed hwrapper hname harg => exact .boxed hwrapper hname harg
  | counted h => exact .counted h
  | struct hitem hkind hd => exact .struct hitem hkind hd
  | union hitem hkind body =>
    exact .union (F := (following (.within session n)).toFacts) hitem hkind body
  | enum hitem hkind hd hwords => exact .enum hitem hkind hd hwords
  | cls hitem hkind hd => exact .cls hitem hkind hd

/-- What code ensures does not depend on how deep the expressions in it nest. -/
theorem Naming.ensures_within {α : Type} {m : Nat} (n : Nat) {s : Build} {script : Gen α}
    {Q : Build → α → Prop} (h : (following (.within session m)).Ensures .inside s script Q) :
    (following (.within session n)).Ensures .inside s script Q := by
  have hinv := inv_following (.within session m) .inside s
  have haccepts : ∀ step, (following (.within session m)).Accepts step →
      (following (.within session n)).Accepts step := fun step haccepts => by
    cases step with
    | defineType name body => exact writes_within n haccepts
    | _ => exact haccepts
  refine ⟨fun _ events a s' hrun _ => ?_, fun hmode hfails _ _ _ _ hstops _ => ?_⟩
  · obtain ⟨-, -, htraced, ha⟩ := h.ends hinv events a s' hrun fun _ _ => trivial
    exact ⟨inv_following _ _ s', fun _ => trivial, ⟨htraced.sets,
      fun event hevent => haccepts _ (htraced.accepts event hevent), htraced.leads⟩, ha⟩
  · exact (h.stops hmode hfails hinv hstops fun _ _ => trivial).imp_left
      fun h event hevent => haccepts _ (h event hevent)

namespace Lowering

variable {program : Program} {settings : Settings} {b : Bindings} {result : Ty} {path : Path}
  {inits : List FieldInit} {base : Option Expr}

/-- Where nothing is demanded of names and returns, only the expressions matter. -/
theorem lowers_of_expr {l : Lowering} {n : Nat} (h : ∀ s {e : Expr} {expected : Option Ty},
      (Naming.following (.within session n)).Follows e →
        (Naming.following (.within session n)).Sound .inside s (l.expr e expected)) :
    (Naming.following (.within session n)).Lowers l where
  bindings _ _ := Ty.over_full _
  result := Ty.over_full _
  expr s _ _ he _ := h s he
  ret _ _ _ _ hbody hstmt := Discipline.sound_ret (fun _ => trivial) (Ty.over_full _)
    (fun s _ he => h s he) hbody hstmt
  closes _ _ _ _ := trivial

/-- Expressions that nest less deep than lowering may go are lowered. -/
theorem sound_within (session : Session) (b : Bindings) (result : Ty) (depth : Nat) (s : Build)
    {e : Expr} {expected : Option Ty}
    (he : (Naming.following (.within session depth)).Follows e) :
    (Naming.following (.within session depth)).Sound .inside s
      ((ofDepth b result depth).expr e expected) := by
  induction depth generalizing s e expected with
  | zero => exact he.2.elim
  | succ depth ih =>
    have hlowers : (Naming.following (.within session depth)).Lowers (ofDepth b result depth) :=
      lowers_of_expr fun s _ _ he => ih s he
    have hexpected := Ty.overOption_of_isFull .full expected
    exact Naming.ensures_within (depth + 1) (.bind
      (Discipline.sound_shape hlowers ⟨he.1, he.2⟩ hexpected)
      fun value s₁ _ hvalue => Discipline.sound_fit hvalue hexpected)

/-- Where a literal nests less deep than lowering may go, its code does not read the depth, and it
stops at layouts only. -/
theorem of_stops_record (session : Session) {note : Note} {span : Span} {expected : Option Ty}
    {depth : Nat} {s : Build} {events : Gen.Trace} {refused : Option Step} {fault : Fault}
    (hwithin : session.program.Within depth (.record note path inits base))
    (h : Stops (Step.perform session)
      ((ofDepth b result depth).record path inits base span expected) s events refused fault) :
    (∀ event ∈ events, event.1 ≠ .depth) ∧ ∃ step, refused = some step ∧ step.isQuery := by
  have hopens : (Naming.following (.within session depth)).Opens (.record note path inits base) :=
    ⟨Expr.over_of_isFull .full _, hwithin.succ⟩
  have hsound : (Naming.following (.within session depth)).Sound .inside s
      ((ofDepth b result depth).record path inits base span expected) :=
    Discipline.sound_record (lowers_of_expr (sound_within _ b result depth)) hopens
      (Ty.overOption_of_isFull .full expected)
  obtain ⟨haccepts, hfails⟩ :=
    hsound.stops rfl id (Naming.inv_following _ _ s) h fun _ _ => trivial
  refine ⟨fun event hevent hread => ?_, ?_⟩
  · have hread' := haccepts event hevent
    rw [hread] at hread'
    exact hread'
  · cases refused with
    | none => exact (hfails rfl).elim
    | some step =>
      obtain ⟨t, hstep⟩ := h.perform_eq_error
      exact ⟨step, rfl, Step.isQuery_of_perform_eq_error hstep⟩

/-- If no endless sequence of expressions can be gone through from a literal, then some depth is
enough for it: in every state it has a value, unless a layout is asked for that cannot be given.
Where layouts may go deep enough, this is a layout that cannot be given however deep they go. -/
theorem record_returns (note : Note)
    (h : Acc (fun part whole => part ∈ program.opened whole) (.record note path inits base)) :
    ∃ enough, ∀ depth ≥ enough, ∀ settings b result span expected s, ∃ layouts, ∀ n,
      (∃ value s', ((ofDepth b result depth).record path inits base span expected).run
        (Step.perform (.toDepth program settings n)) s = .ok (value, s')) ∨
      ∃ events step fault, step.isQuery ∧
        Stops (Step.perform (.toDepth program settings n))
          ((ofDepth b result depth).record path inits base span expected) s events (some step)
          fault ∧
        (n ≥ layouts →
          ∃ t, Leads (Step.perform (.toDepth program settings n)) s events t ∧
            ∀ n', ∃ fault',
              step.perform (.toDepth program settings n') t = .error fault') := by
  obtain ⟨enough, hwithin⟩ := Program.acc_iff_exists_within.1 h
  refine ⟨enough, fun depth hdepth settings b result span expected s => ?_⟩
  obtain ⟨layouts, -, hlayouts⟩ := exists_bound
    (fun n => Step.perform (.toDepth program settings n))
    (fun _ _ _ _ _ => Step.perform_toDepth) fun n (_ : n ≥ 0) _ _ _ h => by
      obtain ⟨hevents, _, rfl, hquery⟩ := of_stops_record _ (hwithin.mono hdepth) h
      refine ⟨hevents, ?_⟩
      rintro _ ⟨⟩ rfl
      cases hquery
  refine ⟨layouts, fun n => ?_⟩
  cases hrun : ((ofDepth b result depth).record path inits base span expected).run
    (Step.perform (.toDepth program settings n)) s with
  | ok out => exact .inl ⟨out.1, out.2, rfl⟩
  | error fault =>
    obtain ⟨events, _, h⟩ := exists_stops_of_run_eq_error hrun
    obtain ⟨-, step, rfl, hquery⟩ := of_stops_record _ (hwithin.mono hdepth) h
    exact .inr ⟨events, step, fault, hquery, h, fun hn => hlayouts n hn h⟩

/-- A struct whose field has a literal for its default, which leaves out a field with a default. -/
def nested : Program where
  home := {
    structs := .ofList [
      { name := "Outer"
        fields := [{
          name := "inner", ty := .ofName "Inner" []
          default := some (.record {} ⟨["Inner"], []⟩ [] none) }] },
      { name := "Inner"
        fields := [{ name := "n", ty := .prim .i32, default := some (.lit {} (.int 7)) }] }] }

theorem record_returns_nested :
    (∃ enough, ∀ depth ≥ enough, ∀ n, (∃ value s',
      ((ofDepth .empty (.prim .unit) depth).record ⟨["Outer"], []⟩ [] none .dummy none).run
        (Step.perform (.toDepth nested {} n)) (.initial {}) = .ok (value, s')) ∨
      ∃ events step fault, step.isQuery ∧ Stops (Step.perform (.toDepth nested {} n))
        ((ofDepth .empty (.prim .unit) depth).record ⟨["Outer"], []⟩ [] none .dummy none)
        (.initial {}) events (some step) fault) ∧
      (((ofDepth .empty (.prim .unit) 2).record ⟨["Outer"], []⟩ [] none .dummy none).run
        (Step.perform ⟨nested, {}⟩) (.initial {})).toOption.isSome := by
  refine ⟨?_, by decide +kernel⟩
  have hacc : Acc (fun part whole => part ∈ nested.opened whole)
      (.record {} ⟨["Outer"], []⟩ [] none) :=
    Program.acc_iff_exists_within.2 ⟨3, by decide +kernel⟩
  obtain ⟨enough, henough⟩ := record_returns {} hacc
  refine ⟨enough, fun depth hdepth n => ?_⟩
  obtain ⟨_, h⟩ := henough depth hdepth {} .empty (.prim .unit) .dummy none (.initial {})
  obtain hvalue | ⟨events, step, fault, hquery, hstops, -⟩ := h n
  · exact .inl hvalue
  · exact .inr ⟨events, step, fault, hquery, hstops⟩

/-- A class with a field whose default is a literal of the class. -/
def endless : Program where
  home := {
    classes := .ofList [{
      name := "Node"
      fields := [{
        name := "next", ty := .ofName "Node" []
        default := some (.record {} ⟨["Node"], []⟩ [] none) }] }] }

/-- The literal is lowered within itself. -/
theorem exists_runs_of_endless {l : Lowering} {span : Span} {expected : Option Ty} {s s' : Build}
    {events : Gen.Trace} {value : Value}
    (h : Session.Runs ⟨endless, settings⟩ (l.record ⟨["Node"], []⟩ [] none span expected) s
      events value s') :
    ∃ t ty own value' t', Session.Runs ⟨endless, settings⟩
      (l.expr (.record {} ⟨["Node"], []⟩ [] none) (some ty)) t own value' t' := by
  obtain ⟨_, h₁, -⟩ := h.of_ask_bind rfl
  obtain ⟨_, args, _, _, -, h₂, -⟩ := h₁.of_bind
  obtain ⟨_, object, _, _, -, h₃, -⟩ := h₂.of_bind
  obtain ⟨_, written, _, _, hinits, h₄, -⟩ := h₃.of_bind
  obtain ⟨-, rfl, -⟩ := hinits.of_pure
  obtain ⟨_, h₅, -⟩ := h₄.of_ask_bind rfl
  obtain ⟨_, _, _, _, hdefaults, -, -⟩ := h₅.of_bind
  obtain ⟨_, _, _, _, _, -, hdefault, -⟩ := hdefaults.forM mem_cons_self
  obtain ⟨_, found, _, _, hfield, hstore, -⟩ := hdefault.of_bind
  have hdeclared : ¬∀ d ∈ endless.classChain "Node", d.fieldIndex? "next" = none := by
    decide +kernel
  obtain ⟨place, rfl⟩ := Option.ne_none_iff_exists'.1
    (mt (Gen.classField?_eq_none_iff hfield).1 hdeclared)
  obtain ⟨_, _, _, _, hoperand, -, -⟩ := hstore.of_bind
  obtain ⟨_, _, _, _, -, h₆, -⟩ := hoperand.of_bind
  obtain ⟨own, value', t', _, hexpr, -, -⟩ := h₆.of_bind
  exact ⟨_, place.ty, own, value', t', hexpr⟩

/-- No depth is enough for the literal. -/
theorem record_endless : ¬ ∃ settings b result depth span expected s value s',
    ((ofDepth b result depth).record ⟨["Node"], []⟩ [] none span expected).run
      (Step.perform ⟨endless, settings⟩) s = .ok (value, s') := by
  rintro ⟨settings, b, result, depth, span, expected, s, value, s', h⟩
  obtain ⟨events, hruns⟩ := run_eq_ok_iff.1 h
  clear h
  induction depth generalizing span expected s value s' events with
  | zero =>
    obtain ⟨_, _, _, _, _, hinner⟩ := exists_runs_of_endless hruns
    cases hinner
  | succ depth ih =>
    obtain ⟨_, _, _, _, _, hinner⟩ := exists_runs_of_endless hruns
    obtain ⟨_, _, _, _, hshape, -, -⟩ := runs_bind_iff.1 hinner
    exact ih _ _ _ _ _ _ hshape

end Lowering

end Monomorph
