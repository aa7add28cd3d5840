import Monomorph.Proofs.Lowering.Naming

/-!
# The scope of local names

A function has one table of local names, and statements only ever add to it. So a block leaves a
name alone unless a statement that is lowered with it, at any depth, binds that name, and a name
that is bound there keeps its new meaning after the block.

## Main results

* `Script.Runs.resolve?_eq`, `Lowering.resolve?_block`.
-/

namespace Monomorph

open List Script

variable {events : List (Event Step.Answer)} {session : Session} {name : String}

/-- Where the value of a local is, and its types. How it must be called may become less known. -/
def Local.meaning (l : Local) : Storage × Ty × IR.Ty := (l.storage, l.ty, l.ir)

namespace Scope

/-- What a name stands for. -/
def resolve? (s : Scope) (name : String) : Option (Storage × Ty × IR.Ty) :=
  (s.find? name).map Local.meaning

theorem resolve?_bind (s : Scope) (name other : String) (l : Local) :
    (s.bind name l).resolve? other = if other = name then some l.meaning else s.resolve? other := by
  rw [resolve?, find?_bind]
  split <;> rfl

/-- Storing a value in a local does not change what its name stands for. -/
theorem resolve?_storeConv (s : Scope) (name other : String) (conv : CallConv) :
    (s.storeConv name conv).resolve? other = s.resolve? other := by
  rw [storeConv]
  split
  · rfl
  next l hfind =>
    rw [resolve?_bind]
    split
    · rename_i heq
      rw [heq, resolve?, hfind]
      rfl
    · rfl

end Scope

/-! ### The names that a run binds -/

/-- The local name that a step binds. -/
def Step.binding? : Step → Option (String × Local)
  | bindLocal name l => some (name, l)
  | _ => none

/-- The local names that events bind. The last binding of a name counts. -/
def boundBy (events : List (Event Step.Answer)) : Scope :=
  ⟨(events.filterMap (·.1.binding?)).reverse⟩

theorem find?_boundBy_append (events later : Gen.Trace) (name : String) :
    (boundBy (events ++ later)).find? name =
      ((boundBy later).find? name).or ((boundBy events).find? name) := by
  simp only [boundBy, Scope.find?, filterMap_append, reverse_append, lookup_append]

theorem resolve?_boundBy_append (events later : Gen.Trace) (name : String) :
    (boundBy (events ++ later)).resolve? name =
      ((boundBy later).resolve? name).or ((boundBy events).resolve? name) := by
  rw [Scope.resolve?, find?_boundBy_append, Option.map_or]
  rfl

/-- The names that events bind are those of their steps. -/
theorem isSome_find?_boundBy :
    ((boundBy events).find? name).isSome ↔ ∃ l, ⟨.bindLocal name l, ()⟩ ∈ events := by
  rw [boundBy, Scope.find?, lookup_isSome_iff]
  constructor
  · rintro ⟨⟨own, l⟩, hmem, hname⟩
    obtain rfl := beq_iff_eq.1 hname
    obtain ⟨⟨step, answer⟩, hevent, hbinding⟩ := mem_filterMap.1 (mem_reverse.1 hmem)
    cases step with
    | bindLocal =>
      cases hbinding
      exact ⟨l, hevent⟩
    | _ => cases hbinding
  · rintro ⟨l, hevent⟩
    exact ⟨(name, l), mem_reverse.2 (mem_filterMap.2 ⟨_, hevent, rfl⟩), beq_self_eq_true name⟩

/-- What a name stands for after a step. -/
theorem Step.resolve?_eq {step : Step} {answer : step.Answer} {s s' : Build}
    (h : step.perform session s = .ok (answer, s')) (hbound : step.bound? = none) (name : String) :
    s'.scope.resolve? name =
      ((boundBy [⟨step, answer⟩]).resolve? name).or (s.scope.resolve? name) := by
  cases step with
  | beginFunction | finishFunction => cases hbound
  | bindLocal own l =>
    cases h
    have hown : boundBy [⟨.bindLocal own l, ()⟩] = Scope.bind {} own l := rfl
    rw [hown, Scope.resolve?_bind, Scope.resolve?_bind]
    split <;> rfl
  | storeConv own conv =>
    cases h
    exact s.scope.resolve?_storeConv own name conv
  | _ =>
    obtain ⟨memo, rfl⟩ := eq_of_perform h
    rfl

/-- What a name stands for after a run. -/
theorem Script.Runs.resolve?_eq {α : Type} {m : Gen α} {s s' : Build} {a : α}
    (h : session.Runs m s events a s') (hbounds : bounds events = [])
    (name : String) :
    s'.scope.resolve? name = ((boundBy events).resolve? name).or (s.scope.resolve? name) := by
  induction h with
  | done a s => rfl
  | @ask step next s mid last answer events a hstep hnext ih =>
    obtain ⟨hbound, hlater⟩ := forall_mem_cons.1 (filterMap_eq_nil_iff.1 hbounds)
    rw [ih (filterMap_eq_nil_iff.2 hlater), Step.resolve?_eq hstep hbound,
      ← Option.or_assoc, ← resolve?_boundBy_append]
    rfl

/-- Only an expression and what it opens into is lowered, and only the names in it are bound. -/
def Focus.ofCode (session : Session) (whole : Expr) : Focus session :=
  { Focus.none session with
    Code := session.program.OpensInto whole
    Opens := session.program.OpensInto whole
    Binds := session.program.Binds whole
    opens := id
    opened := fun h _ he => h.opened he
    binds := fun h hstmt => ⟨_, _, _, _, h, hstmt⟩ }

instance (whole : Expr) : (Focus.ofCode session whole).IsLoose :=
  ⟨fun _ => trivial, fun _ => trivial, fun _ => trivial⟩

namespace Lowering

variable {session : Session} {s s' : Build} {events : List (Event Step.Answer)}

/-- Every run of the script binds a name. -/
def Binds (session : Session) (name : String) {α : Type} (m : Gen α) : Prop :=
  ∀ s events a s', session.Runs m s events a s' →
    ∃ l, ⟨.bindLocal name l, ()⟩ ∈ events

theorem binds_bind {α β : Type} {m : Gen α} {f : α → Gen β} (hf : ∀ a, Binds session name (f a)) :
    Binds session name (m >>= f) := by
  intro s events b s' h
  obtain ⟨first, a, mid, rest, -, hrest, rfl⟩ := h.of_bind
  obtain ⟨l, hl⟩ := hf a mid rest b s' hrest
  exact ⟨l, mem_append_right _ hl⟩

theorem binds_bindStatement (l : Lowering) (name : String) (ty : Option Ty) (init : Expr) :
    Binds session name (l.bindStatement name ty init) := by
  have hlocal : ∀ own, Binds session name (Gen.bindLocal name own) := by
    intro own s events _ s' h
    obtain ⟨-, rfl⟩ := h.of_ask
    exact ⟨own, mem_singleton_self _⟩
  refine binds_bind fun value => ?_
  dsimp only
  split
  · exact binds_bind fun _ => binds_bind fun _ => binds_bind fun _ => binds_bind fun _ => hlocal _
  · exact binds_bind fun _ => binds_bind fun _ => binds_bind fun _ => hlocal _

variable {b : Bindings} {result : Ty} {depth : Nat} {body : Block} {expected : Option Ty}
  {value : Value}

/-- A block sets no bounds of functions, and it binds only the names in the code that is lowered
with it. -/
theorem binds_of_runs_block
    (h : session.Runs ((ofDepth b result depth).block body expected) s events value s') :
    bounds events = [] ∧ ∀ name l, ⟨.bindLocal name l, ()⟩ ∈ events →
      session.program.Binds (.block {} body) name := by
  let D := Naming.following (.ofCode session (.block {} body))
  have hlowers : D.Lowers (ofDepth b result depth) :=
    Discipline.lowers_ofDepth (.of_closes (fun _ _ => Ty.over_full _) (Ty.over_full result)
      (fun _ _ _ _ => trivial) trivial fun _ => trivial) depth
  have hbody : D.Opens (.block {} body) := ⟨Expr.over_of_isFull .full _, .refl⟩
  obtain ⟨-, -, htraced, -⟩ := (Discipline.sound_block hlowers hbody
    (Ty.overOption_of_isFull .full expected)).ends (Naming.inv_following _ _ s) events value s' h
    fun _ _ => trivial
  exact ⟨htraced.sets, fun name l hmem => htraced.accepts _ hmem⟩

/-- Lowering a block binds the names in its statements. -/
theorem exists_bindLocal_of_runs_block
    (h : session.Runs ((ofDepth b result depth).block body expected) s events value s')
    {ty : Option Ty} {init : Expr} (hstmt : .bind name ty init ∈ body.stmts) :
    ∃ l, ⟨.bindLocal name l, ()⟩ ∈ events := by
  obtain ⟨first, _, mid, rest, hfirst, -, rfl⟩ := runs_bind_iff.1 h
  obtain ⟨before, t, own, t', after, -, hown, -, rfl⟩ := hfirst.forM hstmt
  obtain ⟨l, hl⟩ := binds_bindStatement _ name ty init t own () t' hown
  exact ⟨l, List.mem_append_left _ (List.mem_append_right _ (List.mem_append_left _ hl))⟩

/-- After a block, a name that no statement binds in the code that is lowered with it stands for
what it stood for before. A name that lowering the block binds, at any depth, stands for what the
last binding made of it. Each statement that binds a name does so, in the block and in every block
that is lowered within. -/
theorem resolve?_block
    (h : Runs (Step.perform session) ((ofDepth b result depth).block body expected) s events value
      s') (name : String) :
    (¬ session.program.Binds (.block {} body) name →
        s'.scope.resolve? name = s.scope.resolve? name) ∧
      (∀ l, ⟨.bindLocal name l, ()⟩ ∈ events →
        ∃ last, (boundBy events).find? name = some last ∧
          s'.scope.resolve? name = some last.meaning) ∧
      ∀ depth inner expected t own v t', Runs (Step.perform session)
          ((ofDepth b result depth).block inner expected) t own v t' → own <:+: events →
        ∀ ty init, .bind name ty init ∈ inner.stmts → ∃ l, ⟨.bindLocal name l, ()⟩ ∈ events := by
  obtain ⟨hbounds, hbinds⟩ := binds_of_runs_block h
  have hresolve := h.resolve?_eq hbounds name
  refine ⟨fun hname => ?_, fun l hl => ?_, fun _ _ _ _ _ _ _ hinner hpart ty init hstmt => ?_⟩
  · have hnone : (boundBy events).find? name = none := by
      rw [← Option.not_isSome_iff_eq_none, isSome_find?_boundBy]
      rintro ⟨l, hl⟩
      exact hname (hbinds name l hl)
    rw [hresolve, Scope.resolve?, hnone]
    rfl
  · obtain ⟨last, hlast⟩ := Option.isSome_iff_exists.1 (isSome_find?_boundBy.2 ⟨l, hl⟩)
    refine ⟨last, hlast, ?_⟩
    rw [hresolve, Scope.resolve?, hlast]
    rfl
  · obtain ⟨l, hl⟩ := exists_bindLocal_of_runs_block hinner hstmt
    exact ⟨l, hpart.subset hl⟩

/-- A block that binds a name. -/
def shadowing : Block := .mk [.bind "x" none (.lit {} (.int 2))] none

/-- A state inside a function in which two names have slots. -/
def twoSlots : Build :=
  { Build.initial {} with
    assembly := { temps := 2 }
    scope := ⟨[("x", { storage := .slot (.temp 0), ty := .prim .i32, ir := .i32 }),
      ("y", { storage := .slot (.temp 1), ty := .prim .i32, ir := .i32 })]⟩ }

theorem run_shadowing : ∃ value s', ((ofDepth .empty (.prim .unit) 1).block shadowing none).run
        (Step.perform ⟨default, {}⟩) twoSlots = .ok (value, s') ∧
      s'.scope.resolve? "x" = some (.slot (.temp 2), .prim .i32, .i32) :=
  ⟨_, _, rfl, rfl⟩

theorem not_binds_shadowing : ¬ (default : Program).Binds (.block {} shadowing) "y" := by
  rintro ⟨note, body, ty, init, hblock, hstmt⟩
  obtain heq | heq := hblock.eq_or_eq rfl rfl
  · cases heq
    exact absurd (Stmt.bind.inj (mem_singleton.1 hstmt)).1 (by decide)
  · cases heq

theorem resolve?_block_shadowing :
    ∃ events value s', Runs (Step.perform ⟨default, {}⟩)
        ((ofDepth .empty (.prim .unit) 1).block shadowing none) twoSlots events value s' ∧
      s'.scope.resolve? "y" = twoSlots.scope.resolve? "y" ∧
      ∃ l, (boundBy events).find? "x" = some l ∧ s'.scope.resolve? "x" = some l.meaning := by
  obtain ⟨value, s', hrun, -⟩ := run_shadowing
  obtain ⟨events, h⟩ := run_eq_ok_iff.1 hrun
  obtain ⟨-, hlast, hstmts⟩ := resolve?_block h "x"
  obtain ⟨l, hl⟩ := hstmts _ _ _ _ _ _ _ h List.infix_rfl none _ (List.mem_singleton_self _)
  exact ⟨events, value, s', h, (resolve?_block h "y").1 not_binds_shadowing, hlast l hl⟩

/-- A name that was bound before a block need not stand for the same local after it. -/
theorem rebinds_of_shadowing :
    ∃ events value s', Runs (Step.perform ⟨default, {}⟩)
        ((ofDepth .empty (.prim .unit) 1).block shadowing none) twoSlots events value s' ∧
      twoSlots.scope.resolve? "x" = some (.slot (.temp 0), .prim .i32, .i32) ∧
      s'.scope.resolve? "x" = some (.slot (.temp 2), .prim .i32, .i32) := by
  obtain ⟨value, s', hrun, hresolve⟩ := run_shadowing
  obtain ⟨events, h⟩ := run_eq_ok_iff.1 hrun
  exact ⟨events, value, s', h, rfl, hresolve⟩

end Lowering

end Monomorph
