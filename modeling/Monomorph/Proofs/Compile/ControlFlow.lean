import Monomorph.Proofs.Compile.Disciplined
import Monomorph.Proofs.IR.Blocks
import Monomorph.Proofs.Lowering.Linear

/-!
# Control flow of the generated code

Returns, failures, assertions and calls of function values end blocks and start others in the middle
of expressions. Each of them leaves one block that is not ended, to which the next instruction is
added, so that a finished function is a sequence of blocks, and functions do not overlap.

## Main results

* `ControlFlow.writes_assertThat`, `ControlFlow.writes_callEither`,
  `Compile.isFlow_of_compile_eq_ok`.
-/

namespace Monomorph

open List Script

/-- Whether a step only writes code. -/
def Step.isCode : Step → Bool
  | emit _ | block _ | fresh | freshLabel | declare .. => true
  | _ => false

namespace ControlFlow

variable {session : Session} {α β : Type} {s s' s'' : Build}

/-! ### What scripts write -/

/-- The draft has more lines and more label numbers are used, while all that is finished stays the
same. -/
structure Wrote (s s' : Build) (lines : List IR.Line) (count : Nat) : Prop where
  functions : s'.assembly.functions = s.assembly.functions
  lines : s'.assembly.draft.lines.toList = s.assembly.draft.lines.toList ++ lines
  labels : s'.assembly.labels = s.assembly.labels + count

theorem Wrote.trans {lines lines' : List IR.Line} {count count' : Nat}
    (h : Wrote s s' lines count) (h' : Wrote s' s'' lines' count') :
    Wrote s s'' (lines ++ lines') (count + count') where
  functions := h'.functions.trans h.functions
  lines := by rw [h'.lines, h.lines, append_assoc]
  labels := by rw [h'.labels, h.labels, Nat.add_assoc]

theorem wrote_emit (s : Build) (i : IR.Instr) : Wrote s (s.emit i) [.instr i] 0 :=
  ⟨rfl, Array.toList_push, rfl⟩

/-- Every run of the script adds certain lines to the draft and takes some label numbers. -/
def Writes (session : Session) (s : Build) (m : Gen α)
    (Q : α → List IR.Line → Nat → Prop) : Prop :=
  ∀ events a s', session.Runs m s events a s' →
    (∀ event ∈ events, event.1.isCode) ∧
      ∃ lines count, Wrote s s' lines count ∧ Q a lines count

variable {Q : α → List IR.Line → Nat → Prop} {R : β → List IR.Line → Nat → Prop}

theorem writes_pure {a : α} (h : Q a [] 0) : Writes session s (pure a) Q := by
  intro events a' s' hrun
  obtain ⟨rfl, rfl, rfl⟩ := hrun.of_pure
  exact ⟨forall_mem_nil _, [], 0, ⟨rfl, (append_nil _).symm, rfl⟩, h⟩

theorem writes_bind {m : Gen α} {f : α → Gen β} (hm : Writes session s m Q)
    (hf : ∀ a lines count s', Wrote s s' lines count → Q a lines count →
      Writes session s' (f a) fun b lines' count' => R b (lines ++ lines') (count + count')) :
    Writes session s (m >>= f) R := by
  intro events b last hrun
  obtain ⟨first, a, mid, rest, hfirst, hrest, rfl⟩ := hrun.of_bind
  obtain ⟨hcode, lines, count, hwrote, ha⟩ := hm first a mid hfirst
  obtain ⟨hcode', lines', count', hwrote', hb⟩ :=
    hf a lines count mid hwrote ha rest b last hrest
  exact ⟨forall_mem_append.2 ⟨hcode, hcode'⟩, _, _, hwrote.trans hwrote', hb⟩

theorem Writes.next {m : Gen α} {f : α → Gen β} {lines : List IR.Line} {count : Nat}
    (hm : Writes session s m fun _ own n => own = lines ∧ n = count)
    (hf : ∀ a s', Writes session s' (f a) fun b more n => R b (lines ++ more) (count + n)) :
    Writes session s (m >>= f) R := by
  refine writes_bind hm ?_
  rintro a _ _ s' - ⟨rfl, rfl⟩
  exact hf a s'

theorem Writes.weaken {m : Gen α} {Q' : α → List IR.Line → Nat → Prop} (h : Writes session s m Q)
    (hQ : ∀ a lines count, Q a lines count → Q' a lines count) : Writes session s m Q' := by
  intro events a s' hrun
  obtain ⟨hcode, lines, count, hwrote, ha⟩ := h events a s' hrun
  exact ⟨hcode, lines, count, hwrote, hQ a lines count ha⟩

/-- A step that writes certain lines. -/
theorem writes_perform {step : Step} {Q : step.Answer → List IR.Line → Nat → Prop}
    (hcode : step.isCode) (h : ∀ answer s', step.perform session s = .ok (answer, s') →
      ∃ lines count, Wrote s s' lines count ∧ Q answer lines count) :
    Writes session s (Gen.perform step) Q := by
  intro events answer s' hrun
  obtain ⟨hperform, rfl⟩ := hrun.of_ask
  exact ⟨forall_mem_singleton.2 hcode, h answer s' hperform⟩

theorem writes_emit (i : IR.Instr) :
    Writes session s (Gen.emit i) fun _ lines count => lines = [.instr i] ∧ count = 0 :=
  writes_perform rfl fun _ _ hperform => by
    cases hperform
    exact ⟨_, _, wrote_emit s i, rfl, rfl⟩

theorem writes_block (l : IR.Label) :
    Writes session s (Gen.block l) fun _ lines count => lines = [.label l] ∧ count = 0 :=
  writes_perform rfl fun _ _ hperform => by
    cases hperform
    exact ⟨_, _, ⟨rfl, Array.toList_push, rfl⟩, rfl, rfl⟩

theorem writes_fresh : Writes session s Gen.fresh fun _ lines count => lines = [] ∧ count = 0 :=
  writes_perform rfl fun _ _ hperform => by
    cases hperform
    exact ⟨_, _, ⟨rfl, (append_nil _).symm, rfl⟩, rfl, rfl⟩

theorem writes_freshLabel : Writes session s Gen.freshLabel fun id lines count =>
      id = s.assembly.labels ∧ lines = [] ∧ count = 1 :=
  writes_perform rfl fun _ _ hperform => by
    cases hperform
    exact ⟨_, _, ⟨rfl, (append_nil _).symm, rfl⟩, rfl, rfl, rfl⟩

theorem writes_declare (symbol : String) (ret : IR.Ty) (params : List IR.Ty) :
    Writes session s (Gen.declare symbol ret params) fun _ lines count => lines = [] ∧ count = 0 :=
  writes_perform rfl fun _ _ hperform => by
    cases hperform
    refine ⟨_, _, ⟨?_, (append_nil _).symm ▸ ?_, ?_⟩, rfl, rfl⟩ <;>
      simp only [IR.Assembly.declare] <;> split <;> rfl

theorem writes_call (ret : IR.Ty) (callee : IR.Operand) (args : List IR.Typed) :
    Writes session s (Gen.call ret callee args) fun _ lines count =>
      ∃ i : IR.Instr, i.isPlain ∧ lines = [.instr i] ∧ count = 0 := by
  rw [Gen.call]
  split
  · refine (writes_emit _).next fun _ s₁ => ?_
    exact writes_pure ⟨_, rfl, rfl, rfl⟩
  · refine writes_fresh.next fun r s₁ => ?_
    refine (writes_emit _).next fun _ s₂ => ?_
    exact writes_pure ⟨_, rfl, rfl, rfl⟩

theorem writes_stopWith (message : IR.Operand) :
    Writes session s (Gen.stopWith message) fun _ lines count =>
      ∃ i : IR.Instr, i.isPlain ∧ lines = [.instr i, .instr .unreachable] ∧ count = 0 := by
  refine (writes_declare _ _ _).next fun _ s₁ => ?_
  refine (writes_emit _).next fun _ s₂ => ?_
  refine (writes_emit _).weaken ?_
  rintro _ _ _ ⟨rfl, rfl⟩
  exact ⟨_, rfl, rfl, rfl⟩

/-- The lines of blocks that follow more instructions of the last block. -/
def linesOf (code : List IR.Instr) (fresh : List IR.Block) : List IR.Line :=
  code.map IR.Line.instr ++ fresh.flatMap IR.Block.lines

/-- The end of a block and a block for code that is never reached. -/
theorem writes_stop (i : IR.Instr) :
    Writes session s (Gen.emit i >>= fun _ => Gen.deadBlock) fun _ lines count =>
      lines = linesOf [i] [⟨some (.dead s.assembly.labels), []⟩] ∧ count = 1 := by
  refine writes_bind (writes_emit _) ?_
  rintro _ _ _ s₁ hwrote ⟨rfl, rfl⟩
  refine writes_bind writes_freshLabel ?_
  rintro _ _ _ s₂ - ⟨rfl, rfl, rfl⟩
  refine (writes_block _).weaken ?_
  rintro _ _ _ ⟨rfl, rfl⟩
  rw [hwrote.labels]
  exact ⟨rfl, rfl⟩

/-- The blocks of an assertion. -/
theorem writes_assertThat (condition message : IR.Operand) :
    Writes session s (Gen.assertThat condition message) fun _ lines count =>
      let id := s.assembly.labels
      ∃ i : IR.Instr, i.isPlain ∧ count = 1 ∧
        lines = linesOf [.branch condition (.assertOk id) (.assertFail id)]
          [⟨some (.assertFail id), [i, .unreachable]⟩, ⟨some (.assertOk id), []⟩] := by
  refine writes_bind writes_freshLabel ?_
  rintro _ _ _ s₁ - ⟨rfl, rfl, rfl⟩
  refine (writes_emit _).next fun _ s₂ => ?_
  refine (writes_block _).next fun _ s₃ => ?_
  refine writes_bind (writes_stopWith _) ?_
  rintro _ _ _ s₄ - ⟨i, hplain, rfl, rfl⟩
  refine (writes_block _).weaken ?_
  rintro _ _ _ ⟨rfl, rfl⟩
  exact ⟨i, hplain, rfl, rfl⟩

/-- The blocks of a call with or without an environment. -/
theorem writes_callEither (ret : IR.Ty) (code environment : IR.Operand) (args : List IR.Typed) :
    Writes session s (Gen.callEither ret code environment args) fun _ lines count =>
      let id := s.assembly.labels
      ∃ isNull thin fat join, thin.isPlain ∧ fat.isPlain ∧ count = 1 ∧
        (join = [] ∨ ∃ r first second, join = [.phi r ret first (.thin id) second (.fat id)]) ∧
        lines = linesOf
          [.intEq isNull ⟨.ptr, environment⟩ .null, .branch (.temp isNull) (.thin id) (.fat id)]
          [⟨some (.thin id), [thin, .jump (.merge id)]⟩, ⟨some (.fat id), [fat, .jump (.merge id)]⟩,
            ⟨some (.merge id), join⟩] := by
  refine writes_bind writes_freshLabel ?_
  rintro _ _ _ s₁ - ⟨rfl, rfl, rfl⟩
  refine writes_fresh.next fun isNull s₂ => ?_
  refine (writes_emit _).next fun _ s₃ => ?_
  refine (writes_emit _).next fun _ s₄ => ?_
  refine (writes_block _).next fun _ s₅ => ?_
  refine writes_bind (writes_call _ _ _) ?_
  rintro thinResult _ _ s₆ - ⟨thin, hthin, rfl, rfl⟩
  refine (writes_emit _).next fun _ s₇ => ?_
  refine (writes_block _).next fun _ s₈ => ?_
  refine writes_bind (writes_call _ _ _) ?_
  rintro fatResult _ _ s₉ - ⟨fat, hfat, rfl, rfl⟩
  refine (writes_emit _).next fun _ s₁₀ => ?_
  refine (writes_block _).next fun _ s₁₁ => ?_
  split
  · refine writes_fresh.next fun r s₁₂ => ?_
    refine (writes_emit _).next fun _ s₁₃ => ?_
    exact writes_pure ⟨isNull, thin, fat, _, hthin, hfat, rfl, .inr ⟨r, _, _, rfl⟩, rfl⟩
  · exact writes_pure ⟨isNull, thin, fat, [], hthin, hfat, rfl, .inl rfl, rfl⟩

/-! ### The blocks of the draft -/

/-- The finished functions are sequences of blocks. -/
def Finished (s : Build) : Prop :=
  ∀ f ∈ s.assembly.functions.toList, ∃ blocks : List IR.Block,
    f.lines.toList = blocks.flatMap IR.Block.lines ∧ IR.Block.IsFlow blocks

/-- The draft is a sequence of blocks of which the last is not ended. -/
structure Blocks (s : Build) (closed : List IR.Block) (cur : IR.Block) : Prop where
  lines : s.assembly.draft.lines.toList = (closed ++ [cur]).flatMap IR.Block.lines
  isClosed : ∀ b ∈ closed, b.IsClosed
  isOpen : cur.IsOpen
  chart : IR.Block.IsChart (closed ++ [cur]) s.assembly.labels

/-- The finished functions and the draft are sequences of blocks. -/
structure Drafted (s : Build) : Prop where
  finished : Finished s
  draft : ∃ closed cur, Blocks s closed cur

theorem Finished.wrote {lines : List IR.Line} {count : Nat} (h : Finished s)
    (hwrote : Wrote s s' lines count) : Finished s' := by
  rw [Finished, hwrote.functions]
  exact h

variable {closed : List IR.Block} {cur next : IR.Block} {last : IR.Instr} {labels : List IR.Label}
  {count : Nat}

/-- The lines after the last block is continued and others follow. -/
theorem Blocks.lines_grown (h : Blocks s closed cur) (code : List IR.Instr)
    (fresh : List IR.Block) (hwrote : Wrote s s' (linesOf code fresh) count) :
    s'.assembly.draft.lines.toList =
      (closed ++ cur.extend code :: fresh).flatMap IR.Block.lines := by
  rw [hwrote.lines, h.lines, flatMap_append, flatMap_append, flatMap_singleton,
    flatMap_cons, IR.Block.lines_extend, linesOf, append_assoc, append_assoc]

/-- Instructions that name no block. -/
theorem growth_of_unnamed {code : List IR.Instr} {bound : Nat}
    (h : ∀ i ∈ code, i.targets = [] ∧ i.sources = []) :
    IR.Block.Growth bound bound code [] [] := by
  refine ⟨rfl, nodup_nil, forall_mem_nil _, fun i hi => (h i hi).2, ?_, forall_mem_nil _⟩
  intro i hi l hl
  rw [flatMap_nil, append_nil] at hi
  rw [(h i hi).1, (h i hi).2] at hl
  nomatch hl

/-- The last block is continued. -/
theorem Drafted.write {i : IR.Instr} (h : Drafted s) (hplain : i.isPlain)
    (hwrote : Wrote s s' [.instr i] 0) : Drafted s' := by
  obtain ⟨closed, cur, hblocks⟩ := h.draft
  have hcode : ∀ own ∈ [i], own.targets = [] ∧ own.sources = [] := forall_mem_singleton.2
    ⟨IR.Instr.targets_of_isPlain hplain, IR.Instr.sources_of_isPlain hplain⟩
  refine ⟨h.finished.wrote hwrote, closed, cur.extend [i], ?_, hblocks.isClosed, ?_, ?_⟩
  · exact hblocks.lines_grown [i] [] hwrote
  · exact hblocks.isOpen.extend (forall_mem_singleton.2 (IR.Instr.isTerminator_of_isPlain hplain))
  · rw [hwrote.labels]
    exact hblocks.chart.grow (growth_of_unnamed hcode) (Nat.le_refl _)

/-- The last block is ended and others follow, of which the last is not ended. -/
theorem Drafted.branch (h : Drafted s) (body : List IR.Instr) (mid : List IR.Block)
    (hwrote : Wrote s s' (linesOf (body ++ [last]) (mid ++ [next])) count)
    (hgrowth : IR.Block.Growth s.assembly.labels (s.assembly.labels + count) (body ++ [last])
      (mid ++ [next]) labels)
    (hbody : ∀ i ∈ body, i.isTerminator = false) (hlast : last.isTerminator)
    (hmid : ∀ b ∈ mid, b.IsClosed) (hnext : next.IsOpen) : Drafted s' := by
  obtain ⟨closed, cur, hblocks⟩ := h.draft
  have happend : closed ++ cur.extend (body ++ [last]) :: (mid ++ [next]) =
      (closed ++ cur.extend (body ++ [last]) :: mid) ++ [next] := by simp
  refine ⟨h.finished.wrote hwrote, closed ++ cur.extend (body ++ [last]) :: mid, next, ?_, ?_,
    hnext, ?_⟩
  · rw [← happend]
    exact hblocks.lines_grown _ _ hwrote
  · exact forall_mem_append.2 ⟨hblocks.isClosed,
      forall_mem_cons.2 ⟨hblocks.isOpen.close hbody hlast, hmid⟩⟩
  · rw [← happend, hwrote.labels]
    exact hblocks.chart.grow hgrowth (Nat.le_add_right _ _)

/-! ### The branchings -/

theorem growth_stop {i : IR.Instr} (htargets : i.targets = []) (hsources : i.sources = [])
    (id : Nat) : IR.Block.Growth id (id + 1) [i] [⟨some (.dead id), []⟩] [.dead id] := by
  refine ⟨rfl, nodup_singleton _, ?_, ?_, ?_, ?_⟩ <;>
    simp [IR.Label.id, htargets, hsources]

theorem growth_assertThat {condition : IR.Operand} {i : IR.Instr} (hplain : i.isPlain) (id : Nat) :
    IR.Block.Growth id (id + 1) [.branch condition (.assertOk id) (.assertFail id)]
      [⟨some (.assertFail id), [i, .unreachable]⟩, ⟨some (.assertOk id), []⟩]
      [.assertFail id, .assertOk id] := by
  have htargets := IR.Instr.targets_of_isPlain hplain
  have hsources := IR.Instr.sources_of_isPlain hplain
  refine ⟨rfl, ?_, ?_, ?_, ?_, ?_⟩ <;> simp [IR.Label.id, htargets, hsources]

theorem growth_callEither {isNull : Nat} {environment : IR.Operand} {ret : IR.Ty}
    {thin fat : IR.Instr} {join : List IR.Instr} {id : Nat} (hthin : thin.isPlain)
    (hfat : fat.isPlain)
    (hjoin : join = [] ∨ ∃ r first second, join = [.phi r ret first (.thin id) second (.fat id)]) :
    IR.Block.Growth id (id + 1)
      [.intEq isNull ⟨.ptr, environment⟩ .null, .branch (.temp isNull) (.thin id) (.fat id)]
      [⟨some (.thin id), [thin, .jump (.merge id)]⟩, ⟨some (.fat id), [fat, .jump (.merge id)]⟩,
        ⟨some (.merge id), join⟩]
      [.thin id, .fat id, .merge id] := by
  have hisNull : (IR.Instr.intEq isNull ⟨.ptr, environment⟩ .null).isPlain := rfl
  -- Of these instructions it matters only that they name no block.
  generalize IR.Instr.intEq isNull ⟨.ptr, environment⟩ .null = test at hisNull ⊢
  have htargets : ∀ i ∈ [test, thin, fat], i.targets = [] ∧ i.sources = [] := by
    simp [IR.Instr.targets_of_isPlain, IR.Instr.sources_of_isPlain, hisNull, hthin, hfat]
  simp only [forall_mem_cons] at htargets
  obtain rfl | ⟨r, first, second, rfl⟩ := hjoin <;> refine ⟨rfl, ?_, ?_, ?_, ?_, ?_⟩ <;>
    simp [IR.Label.id, IR.Block.targets, htargets]

/-! ### The discipline -/

/-- The invariant. -/
def Inv : Mode → Build → Prop
  | .outside, s => Finished s
  | .inside, s => Drafted s

/-- No names and no temporaries are followed. -/
def facts (session : Session) : Facts session where
  focus := .none session
  Name := .full
  Item _ := True
  TypeName _ := True
  Temp _ _ := True
  Inv := Inv
  Order _ _ := True
  order_refl _ := trivial
  order_trans _ _ := trivial
  temp_mono _ h := h

variable {mode : Mode}

/-- Code that stays the same has the same blocks. -/
theorem inv_of_sameCode (h : Inv mode s) (hsame : s.SameCode s') : Inv mode s' := by
  have hfinished (h : Finished s) : Finished s' := by
    rw [Finished, hsame.functions]
    exact h
  cases mode with
  | outside => exact hfinished h
  | inside =>
    obtain ⟨closed, cur, hblocks⟩ := h.draft
    refine ⟨hfinished h.finished, closed, cur, ?_, hblocks.isClosed, hblocks.isOpen, ?_⟩
    · rw [hsame.draft]
      exact hblocks.lines
    · rw [hsame.labels]
      exact hblocks.chart

theorem ok_operand (operand : IR.Operand) : (facts session).Ok s operand := by
  cases operand <;> trivial

/-- Steps that write code set no bounds, and any instructions may be emitted. -/
theorem traced_of_isCode {events : Gen.Trace} {m : Gen α} {a : α}
    (hrun : session.Runs m s events a s') (h : ∀ event ∈ events, event.1.isCode) :
    (facts session).Traced mode s events s' := by
  induction hrun with
  | done a s => exact Facts.traced_nil _ mode s
  | @ask step next s mid last answer events a hstep _ ih =>
    obtain ⟨hcode, hevents⟩ := forall_mem_cons.1 h
    have hfirst : (facts session).Traced mode s [⟨step, answer⟩] mid := by
      cases step with
      | emit i =>
        have hemits : (facts session).Accepts (.emit i) := Focus.emits_taking _ i
        exact Facts.traced_step (.emit i) rfl hemits trivial hstep
      | block | fresh | freshLabel | declare =>
        refine Facts.traced_step _ rfl ?_ ?_ hstep <;> trivial
      | _ => cases hcode
    exact hfirst.append (ih hevents)

/-- A script that only writes lines keeps the blocks if its lines do. -/
theorem sound_of_writes [Judged α] (hok : ∀ s (a : α), (facts session).Ok s a) {m : Gen α}
    (h : Writes session s m Q)
    (hQ : ∀ a lines count s', Drafted s → Wrote s s' lines count → Q a lines count → Drafted s') :
    (facts session).Sound .inside s m := by
  refine ⟨fun hs events a s' hrun _ => ?_, fun _ hfails => absurd trivial hfails⟩
  obtain ⟨hcode, lines, count, hwrote, ha⟩ := h events a s' hrun
  exact ⟨hQ a lines count s' hs hwrote ha, fun _ => trivial, traced_of_isCode hrun hcode, hok s' a⟩

theorem sound_stop {i : IR.Instr} (hend : i.isTerminator) (htargets : i.targets = []) :
    (facts session).Sound .inside s (Gen.emit i >>= fun _ => Gen.deadBlock) := by
  refine sound_of_writes (fun _ _ => trivial) (writes_stop i) ?_
  rintro _ _ _ s' hs hwrote ⟨rfl, rfl⟩
  have hgrowth := growth_stop htargets (IR.Instr.sources_of_isTerminator hend) s.assembly.labels
  exact hs.branch [] [] hwrote hgrowth (forall_mem_nil _) hend (forall_mem_nil _) (forall_mem_nil _)

theorem sound_assertThat (condition message : IR.Operand) :
    (facts session).Sound .inside s (Gen.assertThat condition message) := by
  refine sound_of_writes (fun _ _ => trivial) (writes_assertThat condition message) ?_
  rintro _ _ _ s' hs hwrote ⟨i, hplain, rfl, rfl⟩
  refine hs.branch [] [_] hwrote (growth_assertThat hplain _)
    (forall_mem_nil _) rfl (forall_mem_singleton.2 ?_) (forall_mem_nil _)
  exact ⟨[i], .unreachable, rfl, rfl,
    forall_mem_singleton.2 (IR.Instr.isTerminator_of_isPlain hplain)⟩

theorem sound_callEither (ret : IR.Ty) (code environment : IR.Operand) (args : List IR.Typed) :
    (facts session).Sound .inside s (Gen.callEither ret code environment args) := by
  refine sound_of_writes (fun _ _ operand _ => ok_operand operand)
    (writes_callEither ret code environment args) ?_
  rintro _ _ _ s' hs hwrote ⟨isNull, thin, fat, join, hthin, hfat, rfl, hjoin, rfl⟩
  have hclosed {i : IR.Instr} {l target : IR.Label} (hplain : i.isPlain) :
      (IR.Block.mk (some l) [i, .jump target]).IsClosed := ⟨[i], .jump target, rfl, rfl,
    forall_mem_singleton.2 (IR.Instr.isTerminator_of_isPlain hplain)⟩
  refine hs.branch [_] [_, _] hwrote (growth_callEither hthin hfat hjoin)
    (forall_mem_singleton.2 rfl) rfl
    (forall_mem_cons.2 ⟨hclosed hthin, forall_mem_singleton.2 (hclosed hfat)⟩) ?_
  obtain rfl | ⟨r, first, second, rfl⟩ := hjoin
  · exact forall_mem_nil _
  · exact forall_mem_singleton.2 rfl

/-- A function begins with its entry. -/
theorem drafted_beginFunction (h : Finished s) (ret : IR.Ty) (symbol : String)
    (params : List IR.Typed) : Drafted (s.beginFunction ret symbol params) := by
  obtain ⟨hfunctions, -, hlabels, -, lines, hdraft, hlines⟩ :=
    s.beginFunction_code ret symbol params
  obtain ⟨code, hcode, hplain⟩ : ∃ code : List IR.Instr,
      lines.toList = code.map IR.Line.instr ∧ ∀ i ∈ code, i.isPlain := by
    obtain rfl | ⟨marker, rfl⟩ := hlines
    · exact ⟨[], rfl, forall_mem_nil _⟩
    · exact ⟨[_], rfl, forall_mem_singleton.2 rfl⟩
  refine ⟨?_, [], ⟨none, code⟩, ?_, forall_mem_nil _, ?_, ?_⟩
  · rw [Finished, hfunctions]
    exact h
  · rw [hdraft]
    exact hcode.trans (append_nil _).symm
  · exact fun i hi => IR.Instr.isTerminator_of_isPlain (hplain i hi)
  · exact IR.Block.isChart_entry (fun i hi => ⟨IR.Instr.targets_of_isPlain (hplain i hi),
      IR.Instr.sources_of_isPlain (hplain i hi)⟩) _

/-- The last block ends with the function. -/
theorem finished_finishFunction (h : Drafted s) (value : Option IR.Typed) :
    Finished (s.emit (.ret value)).finishFunction := by
  obtain ⟨closed, cur, hblocks⟩ := h.draft
  have hlist : (s.emit (.ret value)).finishFunction.assembly.functions.toList =
      s.assembly.functions.toList ++ [(s.emit (.ret value)).assembly.draft] := Array.toList_push
  rw [Finished, hlist]
  refine forall_mem_append.2 ⟨h.finished, forall_mem_singleton.2
    ⟨closed ++ [cur.extend [.ret value]], ?_, ?_⟩⟩
  · exact hblocks.lines_grown [.ret value] [] (wrote_emit s (.ret value))
  · have hgrowth : IR.Block.Growth s.assembly.labels s.assembly.labels [.ret value] [] [] :=
      growth_of_unnamed (forall_mem_singleton.2 ⟨rfl, rfl⟩)
    have hchart := hblocks.chart.grow hgrowth (Nat.le_refl _)
    refine hchart.isFlow (forall_mem_append.2 ⟨hblocks.isClosed, ?_⟩)
    exact forall_mem_singleton.2 (hblocks.isOpen.close (forall_mem_nil _) rfl)

/-- Single steps keep the blocks. -/
def elements (session : Session) : Elements session where
  toFacts := facts session
  quiet h hallows _ hperform := ⟨inv_of_sameCode h (hallows.sameCode hperform), trivial⟩
  takeTemp h := ⟨⟨h.finished, h.draft.imp fun _ hcur => hcur.imp fun _ hblocks =>
    ⟨hblocks.lines, hblocks.isClosed, hblocks.isOpen, hblocks.chart⟩⟩, trivial⟩
  result _ _ h _ hplain _ _ := ⟨Drafted.write h hplain (wrote_emit _ _), trivial, trivial⟩
  effect h _ hplain _ _ := ⟨Drafted.write h hplain (wrote_emit _ _), trivial⟩

/-- Representing types keeps the blocks. -/
def representing (session : Session) : Representing session where
  toElements := elements session
  defined _ := trivial
  definedType _ hargs :=
    Elements.sound_definedType (fun _ _ => trivial) (fun _ => trivial) _ hargs

/-- Code generation keeps the blocks. -/
def discipline (session : Session) : Discipline session where
  toRepresenting := representing session
  program := session.over_full
  code _ _ := trivial
  scope _ _ _ := ⟨trivial, ok_operand _, Ty.over_full _, fun _ _ => trivial⟩
  ctors _ _ _ := ⟨trivial, fun _ _ => trivial, trivial⟩
  bindLocal _ h _ := ⟨⟨h.finished, h.draft.imp fun _ hcur => hcur.imp fun _ hblocks =>
    ⟨hblocks.lines, hblocks.isClosed, hblocks.isOpen, hblocks.chart⟩⟩, trivial⟩
  classStruct _ := Representing.sound_classStruct fun _ => trivial
  stop hend htargets _ _ := sound_stop hend htargets
  assertThat _ _ := sound_assertThat _ _
  callEither _ _ _ _ _ := sound_callEither _ _ _ _
  begin symbol h _ _ := drafted_beginFunction h _ symbol _
  finish h _ _ := finished_finishFunction h _
  move {s s'} _ _ h hmove _ hperform :=
    show Inv .outside s' from inv_of_sameCode (s := s) h (hmove.sameCode hperform)

instance (session : Session) : (discipline session).IsFull :=
  ⟨Focus.allows_taking _⟩

end ControlFlow

namespace Compile

/-- Every function of a compiled module is a sequence of blocks with well-formed control flow, and
a function begins only after the one before it has finished. -/
theorem isFlow_of_compile_eq_ok {program : Program} {settings : Settings} {output : Output}
    (h : compile program settings = .ok output) :
    (∀ f ∈ output.assembly.functions.toList, ∃ blocks : List IR.Block,
      f.lines.toList = blocks.flatMap IR.Block.lines ∧ IR.Block.IsFlow blocks) ∧
    ∃ events s, Runs (Move.perform ⟨program, settings⟩) all (.initial settings) events () s ∧
      s.output = output ∧ Bound.IsBalanced (bounds events) := by
  obtain ⟨events, s, hruns, rfl⟩ := runs_of_compile_eq_ok h
  have hinitial : ControlFlow.Inv .outside (.initial settings) := List.forall_mem_nil _
  obtain ⟨hinv, hbalanced, -⟩ := Discipline.of_runs_all
    (D := ControlFlow.discipline ⟨program, settings⟩) hinitial hruns fun _ _ _ => trivial
  exact ⟨hinv, events, s, hruns, rfl, hbalanced⟩

/-- A function that asserts a condition and returns the result of a function value before its last
expression. -/
def branching : Program where
  home := {
    functions := .ofList [
      { name := "run"
        params := [⟨"g", .func [.prim .i32] (.prim .i32)⟩, ⟨"flag", .prim .bool⟩]
        ret := .prim .i32
        body := some (.mk
          [.eval (.call {} (.ident {} "assert") [.ident {} "flag"]),
            .ret (some (.call {} (.ident {} "g") [.lit {} (.int 1)]))]
          (some (.lit {} (.int 0)))) }] }

theorem isFlow_of_compile_eq_ok_branching :
    ∃ output, compile branching { depth := 9 } = .ok output ∧
      output.assembly.functions.toList.flatMap IR.Function.labels =
        [.assertFail 0, .assertOk 0, .thin 1, .fat 1, .merge 1, .dead 2] ∧
      (∀ f ∈ output.assembly.functions.toList, ∃ blocks : List IR.Block,
        f.lines.toList = blocks.flatMap IR.Block.lines ∧ IR.Block.IsFlow blocks) ∧
      ∃ events s, Runs (Move.perform ⟨branching, { depth := 9 }⟩) all (.initial { depth := 9 })
        events () s ∧ s.output = output ∧ Bound.IsBalanced (bounds events) :=
  exists_of_compile_and (fun _ hcompile _ => isFlow_of_compile_eq_ok hcompile) (by decide +kernel)

end Compile

end Monomorph
