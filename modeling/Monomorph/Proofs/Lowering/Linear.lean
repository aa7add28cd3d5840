import Monomorph.Proofs.IR.Parts
import Monomorph.Proofs.Lowering.Elementary

/-!
# Disciplines that do not follow control

Many invariants speak of the instructions of a function one after the other and do not depend on
where its blocks begin and end. For them the branchings of the generated code are nothing but more
instructions.
-/

namespace Monomorph

open List Script

/-- The state with one more label number taken. -/
def Build.takeLabel (s : Build) : Build := { s with assembly := s.assembly.freshLabel.2 }

/-- The state with a block started in the draft. -/
def Build.place (s : Build) (l : IR.Label) : Build := { s with assembly := s.assembly.place l }

/-- The state with one more line in the draft. -/
def Build.append (s : Build) (line : IR.Line) : Build :=
  { s with assembly := s.assembly.append line }

theorem Build.lines_append (s : Build) (line : IR.Line) :
    (s.append line).assembly.draft.lines.toList = s.assembly.draft.lines.toList ++ [line] :=
  Array.toList_push

theorem Build.lines_emit (s : Build) (i : IR.Instr) :
    (s.emit i).assembly.draft.lines.toList = s.assembly.draft.lines.toList ++ [.instr i] :=
  s.lines_append (.instr i)

theorem Build.draft_takeTemp (s : Build) : s.takeTemp.assembly.draft = s.assembly.draft := rfl

/-- Labels and all instructions keep an invariant. -/
structure Linear (session : Session) extends Elements session where
  /-- Taking a label number. -/
  takeLabel {s : Build} : Inv .inside s → Inv .inside s.takeLabel ∧ Order s s.takeLabel
  /-- Starting a block. -/
  place {s : Build} (l : IR.Label) : Inv .inside s →
    Inv .inside (s.place l) ∧ Order s (s.place l)
  /-- An instruction that ends a block. -/
  leave {s : Build} {i : IR.Instr} : Inv .inside s → i.isTerminator → toFacts.Ok s i →
    focus.Emits i → Inv .inside (s.emit i) ∧ Order s (s.emit i)
  /-- A value that depends on the block that control came from. -/
  join {s : Build} {ty : IR.Ty} {first second : IR.Operand} (firstFrom secondFrom : IR.Label) :
    Inv .inside s → toFacts.Ok s ty → toFacts.Ok s first → toFacts.Ok s second →
      let s' := s.takeTemp.emit (.phi s.assembly.temps ty first firstFrom second secondFrom)
      Inv .inside s' ∧ Order s s' ∧ Temp s' s.assembly.temps

namespace Linear

open Facts Elements Representing

variable {session : Session} {L : Linear session} {s : Build} {i : IR.Instr} {message : IR.Operand}

theorem sound_freshLabel : L.Sound .inside s Gen.freshLabel := by
  refine ensures_ask fun hs _ s' hperform _ => ?_
  cases hperform
  obtain ⟨hinv, hord⟩ := L.takeLabel hs
  exact ⟨hinv, fun _ => hord, traced_step .freshLabel rfl trivial trivial rfl, trivial⟩

theorem sound_block (l : IR.Label) : L.Sound .inside s (Gen.block l) := by
  refine ensures_ask fun hs _ s' hperform _ => ?_
  cases hperform
  obtain ⟨hinv, hord⟩ := L.place l hs
  exact ⟨hinv, fun _ => hord, traced_step (.block l) rfl trivial trivial rfl, trivial⟩

theorem sound_leave (hend : i.isTerminator) (hi : L.Ok s i) (hemits : L.focus.Emits i) :
    L.Sound .inside s (Gen.emit i) := by
  refine ensures_ask fun hs _ s' hperform _ => ?_
  cases hperform
  obtain ⟨hinv, hord⟩ := L.leave hs hend hi hemits
  exact ⟨hinv, fun _ => hord, traced_step (.emit i) rfl hemits trivial rfl, trivial⟩

/-- The end of a block from which control does not come back. -/
theorem stop (hend : i.isTerminator) (hi : L.Ok s i) (hemits : L.focus.Emits i) :
    L.Sound .inside s (Gen.emit i >>= fun _ => Gen.deadBlock) :=
  .bind (sound_leave hend hi hemits) fun _ _ _ _ =>
    .bind sound_freshLabel fun _ _ _ _ => sound_block _

/-- A condition that is tested. -/
theorem assertThat {condition : IR.Operand} (hcondition : L.Ok s condition)
    (hmessage : L.Ok s message) : L.Sound .inside s (Gen.assertThat condition message) := by
  refine .bind sound_freshLabel fun id s₁ hord₁ _ => ?_
  refine .bind (sound_leave rfl ⟨nofun, forall_mem_singleton.2 (mono hord₁ hcondition)⟩ trivial)
    fun _ s₂ hord₂ _ => ?_
  refine .bind (sound_block _) fun _ s₃ hord₃ _ => ?_
  have hmessage := mono (L.trans hord₁ (L.trans hord₂ hord₃)) hmessage
  exact ensures_stopWith hmessage fun _ =>
    .bind (sound_leave rfl ⟨nofun, nofun⟩ trivial) fun _ _ _ _ => sound_block _

/-- The value of two blocks where they meet. -/
theorem sound_join {ty : IR.Ty} {first second : IR.Operand} {firstFrom secondFrom : IR.Label}
    (hty : L.Ok s ty) (hfirst : L.Ok s first) (hsecond : L.Ok s second) :
    L.Sound .inside s (do
      let r ← Gen.fresh
      Gen.emit (.phi r ty first firstFrom second secondFrom)
      return some (IR.Operand.temp r)) := by
  refine EnsuresFrom.ask_bind rfl (traced_step .fresh rfl trivial trivial rfl) fun hs => ?_
  obtain ⟨hinv, hord, htemp⟩ := L.join firstFrom secondFrom hs hty hfirst hsecond
  refine ⟨(L.takeTemp hs).1, ?_⟩
  refine .ask_bind rfl (traced_step (.emit (.phi ..)) rfl trivial trivial rfl) fun hs => ?_
  exact ⟨hinv, (Ensures.pure (ok_some htemp)).from fun _ => hord⟩

/-- A call with or without an environment. -/
theorem callEither {ret : IR.Ty} {code environment : IR.Operand} {args : List IR.Typed}
    (hret : L.Ok s ret) (hcode : L.Ok s code) (hcalls : L.focus.Calls code)
    (henvironment : L.Ok s environment) (hargs : L.Ok s args) :
    L.Sound .inside s (Gen.callEither ret code environment args) := by
  refine .bind sound_freshLabel fun id s₁ hord₁ _ => ?_
  refine ensures_define (f := fun r => .intEq r ⟨.ptr, environment⟩ .null) (fun _ => rfl)
    (fun _ => rfl) (fun r => ⟨forall_mem_singleton.2 (ok_closed rfl),
      ok_pair (mono hord₁ henvironment) trivial⟩) fun isNull s₂ hord₂ hisNull => ?_
  refine .bind (sound_leave rfl ⟨nofun, forall_mem_singleton.2 hisNull⟩ trivial)
    fun _ s₃ hord₃ _ => ?_
  refine .bind (sound_block _) fun _ s₄ hord₄ _ => ?_
  -- The two calls see the same operands.
  have hord := L.trans hord₁ (L.trans hord₂ (L.trans hord₃ hord₄))
  have hret := mono hord hret
  have hcode := mono hord hcode
  have henvironment := mono hord henvironment
  have hargs := mono hord hargs
  refine .bind (sound_call hret hcode hcalls hargs) fun thin s₅ hord₅ hthin => ?_
  refine .bind (sound_leave rfl ⟨nofun, nofun⟩ trivial) fun _ s₆ hord₆ _ => ?_
  refine .bind (sound_block _) fun _ s₇ hord₇ _ => ?_
  have hthin := mono (L.trans hord₆ hord₇) hthin
  have hord := L.trans hord₅ (L.trans hord₆ hord₇)
  have hret := mono hord hret
  refine .bind (sound_call hret (mono hord hcode) hcalls (forall_mem_cons.2
    ⟨⟨ok_closed rfl, mono hord henvironment⟩, mono hord hargs⟩)) fun fat s₈ hord₈ hfat => ?_
  refine .bind (sound_leave rfl ⟨nofun, nofun⟩ trivial) fun _ s₉ hord₉ _ => ?_
  refine .bind (sound_block _) fun _ s₁₀ hord₁₀ _ => ?_
  have hfat := mono (L.trans hord₉ hord₁₀) hfat
  have hord := L.trans hord₈ (L.trans hord₉ hord₁₀)
  have hthin := mono hord hthin
  split
  · exact sound_join (mono hord hret) (hthin _ rfl) (hfat _ rfl)
  · exact .pure nofun

end Linear

/-! ### Steps that leave the function alone -/

/-- What steps that leave the function alone keep. -/
structure Build.SameCode (s s' : Build) : Prop where
  draft : s'.assembly.draft = s.assembly.draft
  functions : s'.assembly.functions = s.assembly.functions
  temps : s'.assembly.temps = s.assembly.temps
  labels : s'.assembly.labels = s.assembly.labels
  scope : s'.scope = s.scope

/-- Steps that leave the function alone. -/
theorem Facts.Allows.sameCode {session : Session} {F : Facts session} {s s' : Build} {step : Step}
    {answer : step.Answer} (h : F.Allows s step)
    (hperform : step.perform session s = .ok (answer, s')) : s.SameCode s' := by
  have hdrafting : step.isDrafting = false := by cases step <;> first | rfl | exact h.elim
  have hscope : step.onScope s.scope = s.scope := by cases step <;> first | rfl | exact h.elim
  obtain ⟨memo, rfl⟩ := Step.eq_of_perform hperform
  obtain ⟨_, _, _, _, heq⟩ := Step.onAssembly_eq hdrafting s.assembly
  have hassembly : (step.after session s memo).assembly = _ := heq
  refine ⟨?_, ?_, ?_, ?_, hscope⟩ <;> rw [hassembly]

/-- Moves between two pieces of code leave the finished functions alone. -/
theorem Move.IsBetween.sameCode {session : Session} {s s' : Build} {move : Move}
    {answer : move.Answer} (h : move.IsBetween)
    (hperform : move.perform session s = .ok (answer, s')) : s.SameCode s' := by
  cases move with
  | step own => exact h.elim
  | takeRound =>
    obtain ⟨-, -, rfl⟩ | ⟨-, -, rfl⟩ := Build.takeRound_eq_ok hperform
    · exact ⟨rfl, rfl, rfl, rfl, rfl⟩
    · exact ⟨rfl, rfl, rfl, rfl, rfl⟩
  | _ =>
    cases hperform
    exact ⟨rfl, rfl, rfl, rfl, rfl⟩

/-- Recording the entry of a function adds at most a call. -/
theorem IR.Assembly.cover_code (a : IR.Assembly) (name : String) :
    (a.cover name).functions = a.functions ∧ (a.cover name).temps = a.temps ∧
      (a.cover name).labels = a.labels ∧
      ((a.cover name).draft = a.draft ∨
        ∃ marker, (a.cover name).draft = (a.append (.covers marker)).draft) := by
  rw [cover]
  split
  · refine ⟨?_, ?_, ?_, .inr ⟨((a.declare coverSymbol .void [.ptr]).markerGlobal name).1, ?_⟩⟩ <;>
      simp only [declare, markerGlobal] <;> (repeat' split) <;> rfl
  · exact ⟨rfl, rfl, rfl, .inl rfl⟩

/-- A function begins with no local names and no lines, or with a call that records its entry. -/
theorem Build.beginFunction_code (s : Build) (ret : IR.Ty) (symbol : String)
    (params : List IR.Typed) :
    let s' := s.beginFunction ret symbol params
    s'.assembly.functions = s.assembly.functions ∧ s'.assembly.temps = s.assembly.temps ∧
      s'.assembly.labels = s.assembly.labels ∧ s'.scope = {} ∧
      ∃ lines, s'.assembly.draft = ⟨some (.define ret symbol params), lines⟩ ∧
        (lines = #[] ∨ ∃ marker, lines = #[.covers marker]) := by
  obtain ⟨hfunctions, htemps, hlabels, hdraft⟩ :=
    (s.assembly.begin (.define ret symbol params)).cover_code
      (String.ofList (symbol.toList.dropWhile (· = '@')))
  refine ⟨hfunctions, htemps, hlabels, rfl, ?_⟩
  obtain hdraft | ⟨marker, hdraft⟩ := hdraft
  · exact ⟨_, hdraft, .inl rfl⟩
  · exact ⟨_, hdraft, .inr ⟨marker, rfl⟩⟩

/-- Where no names of types are followed, the representation of a definition keeps the invariant. -/
theorem Elements.sound_definedType {session : Session} {E : Elements session} {mode : Mode}
    {s : Build} (hitem : ∀ item, E.focus.Grants item → E.Item item)
    (htypeName : ∀ name, E.TypeName name) (name : String) {args : List Ty}
    (hargs : ∀ t ∈ args, t.Over E.Name) : E.Sound mode s (Gen.definedType name args) := by
  have hir : ∀ (ir : IR.Ty) s, E.Ok s ir := fun _ _ name _ => htypeName name
  refine .program ?_
  dsimp only
  split
  next d hd =>
    exact .bind (ensures_requestType (by decide) (.struct hd args) hitem hargs)
      fun _ s₂ _ _ => .pure (hir _ s₂)
  · split
    next d hd =>
      exact .bind (ensures_requestType (by decide) (.enum hd args) hitem hargs)
        fun _ s₂ _ _ => .pure (hir _ s₂)
    · split
      next d hd =>
        exact .bind (ensures_requestType (by decide) (.cls hd args) hitem hargs)
          fun _ s₂ _ _ => .pure (hir _ s₂)
      · exact .pure (hir _ s)

/-- Where no names of types are followed, the block of a class keeps the invariant. -/
theorem Representing.sound_classStruct {session : Session} {R : Representing session} {mode : Mode}
    {s : Build} (htypeName : ∀ name, R.TypeName name) {name : String} {args : List Ty}
    (hname : R.Name name) (hargs : ∀ t ∈ args, t.Over R.Name) :
    R.Sound mode s (Gen.classStruct name args) :=
  .bind (Facts.ensures_discard (sound_irType _ (Ty.over_ofName hname hargs) s))
    fun _ _ _ _ => .pure fun name _ => htypeName name

end Monomorph
