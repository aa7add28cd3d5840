import Monomorph.Proofs.Compile.Disciplined
import Monomorph.Proofs.Lowering.Linear

/-!
# Temporaries are assigned once and before they are used

Numbers of temporaries are never used again, so that each temporary of a module is the result of
one instruction. Operands travel through values, places and local names, but all of these belong to
the function that is being drafted, so that each temporary is used after its definition and in the
same function.

## Main results

* `Compile.assignedOnce_of_compile_eq_ok`.
-/

namespace Monomorph

open List Script

namespace IR

/-- Lines that use temporaries after the lines that define them. -/
def Line.InOrder (lines : List Line) : Prop :=
  ∀ before line after, lines = before ++ line :: after →
    ∀ id, .temp id ∈ line.operands → id ∈ before.filterMap Line.result?

theorem Line.inOrder_nil : InOrder [] := by
  intro before line after h
  exact absurd h.symm (append_ne_nil_of_right_ne_nil _ (cons_ne_nil _ _))

theorem Line.InOrder.concat {lines : List Line} (h : InOrder lines) {line : Line}
    (hline : ∀ id, .temp id ∈ line.operands → id ∈ lines.filterMap Line.result?) :
    InOrder (lines ++ [line]) := by
  intro before own after heq id hid
  obtain rfl | ⟨after, last, rfl⟩ := eq_nil_or_concat' after
  · obtain ⟨rfl, ⟨⟩⟩ := append_inj' heq rfl
    exact hline id hid
  · rw [← cons_append, ← append_assoc] at heq
    obtain ⟨rfl, -⟩ := append_inj' heq rfl
    exact h before own after rfl id hid

/-- A function of instructions and labels that uses temporaries after their definitions. -/
structure Function.InOrder (f : Function) : Prop where
  structured : ∀ line ∈ f.lines.toList, line.isStructured
  inOrder : Line.InOrder f.lines.toList

end IR

namespace SingleAssignment

/-- Finished functions are in order, and no temporary of theirs or of the given ones is defined
twice. -/
structure Numbered (functions : Array IR.Function) (temps : Nat) (own : List Nat) : Prop where
  inOrder : ∀ f ∈ functions.toList, f.InOrder
  nodup : (functions.toList.flatMap IR.Function.results ++ own).Nodup
  below : ∀ id ∈ functions.toList.flatMap IR.Function.results ++ own, id < temps

/-- The draft is in order too and defines what the local names refer to. -/
structure Drafted (s : Build) : Prop where
  numbered : Numbered s.assembly.functions s.assembly.temps s.assembly.draft.results
  draft : s.assembly.draft.InOrder
  scope : ∀ entry ∈ s.scope.entries, ∀ id, entry.2.storage.operand = .temp id →
    id ∈ s.assembly.draft.results

/-- The invariant. -/
def Inv : Mode → Build → Prop
  | .outside, s => Numbered s.assembly.functions s.assembly.temps []
  | .inside, s => Drafted s

/-- Inside a function, new temporaries get new numbers. -/
structure Extends (s s' : Build) : Prop where
  functions : s'.assembly.functions = s.assembly.functions
  temps : s.assembly.temps ≤ s'.assembly.temps
  results : ∃ own, s'.assembly.draft.results = s.assembly.draft.results ++ own ∧
    ∀ id ∈ own, s.assembly.temps ≤ id

theorem Extends.refl (s : Build) : Extends s s :=
  ⟨rfl, Nat.le_refl _, [], (append_nil _).symm, forall_mem_nil _⟩

theorem Extends.trans {s s' s'' : Build} (h : Extends s s') (h' : Extends s' s'') :
    Extends s s'' := by
  obtain ⟨own, hown, hnew⟩ := h.results
  obtain ⟨own', hown', hnew'⟩ := h'.results
  refine ⟨h'.functions.trans h.functions, Nat.le_trans h.temps h'.temps, own ++ own', ?_, ?_⟩
  · rw [hown', hown, append_assoc]
  · exact forall_mem_append.2 ⟨hnew, fun id hid => Nat.le_trans h.temps (hnew' id hid)⟩

/-- The temporaries that may be used are those that the draft defines. -/
def facts (session : Session) : Facts session where
  focus := .none session
  Name := .full
  Item _ := True
  TypeName _ := True
  Temp s id := id ∈ s.assembly.draft.results
  Inv := Inv
  Order := Extends
  order_refl := .refl
  order_trans h h' := h.trans h'
  temp_mono h hid := by
    obtain ⟨own, hown, -⟩ := h.results
    rw [hown]
    exact mem_append_left _ hid

variable {session : Session} {mode : Mode} {s s' : Build} {line : IR.Line}

/-! ### Steps that add no line -/

/-- Code that stays the same stays in order. -/
theorem inv_of_sameCode (h : Inv mode s) (hsame : s.SameCode s') : Inv mode s' := by
  cases mode with
  | outside =>
    rw [Inv, hsame.functions, hsame.temps]
    exact h
  | inside =>
    refine ⟨?_, ?_, ?_⟩
    · rw [hsame.functions, hsame.temps, hsame.draft]
      exact h.numbered
    · rw [hsame.draft]
      exact h.draft
    · rw [hsame.scope, hsame.draft]
      exact h.scope

theorem extends_of_sameCode (hsame : s.SameCode s') : Extends s s' := by
  refine ⟨hsame.functions, Nat.le_of_eq hsame.temps.symm, [], ?_, forall_mem_nil _⟩
  rw [hsame.draft, append_nil]

theorem inv_takeTemp (h : Drafted s) : Drafted s.takeTemp :=
  ⟨⟨h.numbered.inOrder, h.numbered.nodup,
    fun id hid => Nat.lt_succ_of_lt (h.numbered.below id hid)⟩, h.draft, h.scope⟩

theorem inv_takeLabel (h : Drafted s) : Drafted s.takeLabel := ⟨h.numbered, h.draft, h.scope⟩

theorem extends_takeLabel (s : Build) : Extends s s.takeLabel :=
  ⟨rfl, Nat.le_refl _, [], (append_nil _).symm, forall_mem_nil _⟩

theorem extends_takeTemp (s : Build) : Extends s s.takeTemp :=
  ⟨rfl, Nat.le_succ _, [], (append_nil _).symm, forall_mem_nil _⟩

/-! ### Lines -/

theorem results_append (s : Build) (line : IR.Line) :
    (s.append line).assembly.draft.results = s.assembly.draft.results ++ line.result?.toList := by
  rw [IR.Function.results, Build.lines_append, filterMap_append, IR.Function.results]
  cases h : line.result? <;> simp [h]

/-- A line that uses what the draft defines, and defines what no function does. -/
theorem drafted_append (h : Drafted s) (hline : line.isStructured)
    (huses : ∀ id, .temp id ∈ line.operands → id ∈ s.assembly.draft.results)
    (hresult : ∀ id ∈ line.result?, id < s.assembly.temps ∧
      id ∉ s.assembly.functions.toList.flatMap IR.Function.results ++ s.assembly.draft.results) :
    Drafted (s.append line) := by
  refine ⟨⟨h.numbered.inOrder, ?_, ?_⟩, ⟨?_, ?_⟩, ?_⟩
  · rw [results_append, ← append_assoc]
    refine nodup_append.2 ⟨h.numbered.nodup, by cases line.result? <;> simp, ?_⟩
    intro id hid own hown heq
    exact (hresult own (Option.mem_toList.1 hown)).2 (heq ▸ hid)
  · rw [results_append, ← append_assoc]
    refine forall_mem_append.2 ⟨h.numbered.below, fun id hid => ?_⟩
    exact (hresult id (Option.mem_toList.1 hid)).1
  · rw [Build.lines_append]
    exact forall_mem_append.2 ⟨h.draft.structured, forall_mem_singleton.2 hline⟩
  · rw [Build.lines_append]
    exact h.draft.inOrder.concat huses
  · intro entry hentry id hid
    rw [results_append]
    exact mem_append_left _ (h.scope entry hentry id hid)

/-- A line without a result. -/
theorem append_effect (h : Drafted s) (hline : line.isStructured) (hresult : line.result? = none)
    (huses : ∀ id, .temp id ∈ line.operands → id ∈ s.assembly.draft.results) :
    Drafted (s.append line) ∧ Extends s (s.append line) := by
  refine ⟨drafted_append h hline huses (by rw [hresult]; exact nofun), rfl, Nat.le_refl _, [], ?_,
    forall_mem_nil _⟩
  rw [results_append, hresult]
  rfl

/-- A line whose result is a temporary that was taken before. -/
theorem append_result (h : Drafted s) (hord : Extends s.takeTemp s') (h' : Drafted s')
    (hline : line.isStructured) (hresult : line.result? = some s.assembly.temps)
    (huses : ∀ id, .temp id ∈ line.operands → id ∈ s'.assembly.draft.results) :
    Drafted (s'.append line) ∧ Extends s (s'.append line) ∧
      s.assembly.temps ∈ (s'.append line).assembly.draft.results := by
  have hfunctions : s'.assembly.functions = s.assembly.functions := hord.functions
  have htemps : s.assembly.temps + 1 ≤ s'.assembly.temps := hord.temps
  obtain ⟨own, hown, hnew⟩ := hord.results
  have hdraft : s'.assembly.draft.results = s.assembly.draft.results ++ own := hown
  refine ⟨drafted_append h' hline huses ?_, ⟨hfunctions, by exact Nat.le_of_succ_le htemps,
    own ++ [s.assembly.temps], ?_, ?_⟩, ?_⟩
  · rw [hresult]
    rintro _ ⟨⟩
    refine ⟨htemps, ?_⟩
    -- What was defined before has a smaller number, and what came since a greater one.
    rw [hfunctions, hdraft, ← append_assoc, mem_append, not_or]
    refine ⟨fun hmem => ?_, fun hmem => ?_⟩
    · exact Nat.lt_irrefl _ (h.numbered.below _ hmem)
    · exact Nat.lt_irrefl _ (hnew _ hmem)
  · rw [results_append, hdraft, hresult, append_assoc]
    rfl
  · refine forall_mem_append.2 ⟨fun id hid => ?_, forall_mem_singleton.2 (Nat.le_refl _)⟩
    exact Nat.le_of_succ_le (hnew id hid)
  · rw [results_append, hresult]
    exact mem_append_right _ (mem_singleton_self _)

theorem ok_operand {operand : IR.Operand} : (facts session).Ok s operand ↔
    ∀ id, operand = .temp id → id ∈ s.assembly.draft.results := by
  cases operand with
  | temp id => exact ⟨by rintro h _ ⟨⟩; exact h, fun h => h id rfl⟩
  | _ => exact ⟨by rintro _ _ ⟨⟩, fun _ => trivial⟩

/-- Good operands are defined by the draft. -/
theorem uses_of_ok {i : IR.Instr} (h : (facts session).Ok s i) :
    ∀ id, .temp id ∈ (IR.Line.instr i).operands → id ∈ s.assembly.draft.results :=
  fun id hid => h.2 (.temp id) hid

/-- Code generation one line after the other. -/
def linear (session : Session) : Linear session where
  toFacts := facts session
  quiet h hallows _ hperform :=
    have hsame := hallows.sameCode hperform
    ⟨inv_of_sameCode h hsame, extends_of_sameCode hsame⟩
  takeTemp h := ⟨inv_takeTemp h, extends_takeTemp _⟩
  result h hord h' hresult _ hi _ := append_result h hord h' rfl hresult (uses_of_ok hi)
  effect h hresult _ hi _ := append_effect h rfl hresult (uses_of_ok hi)
  takeLabel h := ⟨inv_takeLabel h, extends_takeLabel _⟩
  place l h := append_effect h rfl rfl nofun
  leave {s i} h hend hi _ := by
    refine append_effect h rfl ?_ (uses_of_ok hi)
    cases i with
    | jump | branch | ret | unreachable => rfl
    | _ => cases hend
  join {s} _ _ _ _ _ h hty hfirst hsecond :=
    have hi : (facts session).Ok s (IR.Instr.phi ..) :=
      ⟨forall_mem_singleton.2 hty, Facts.ok_pair hfirst hsecond⟩
    append_result h (.refl _) (inv_takeTemp h) rfl rfl (uses_of_ok hi)

/-! ### Functions -/

/-- A function begins in order, with no results. -/
theorem inOrder_begin (header : Option IR.Header) {lines : Array IR.Line}
    (h : lines = #[] ∨ ∃ marker, lines = #[.covers marker]) :
    (IR.Function.mk header lines).results = [] ∧ (IR.Function.mk header lines).InOrder := by
  obtain rfl | ⟨marker, rfl⟩ := h
  · exact ⟨rfl, forall_mem_nil _, IR.Line.inOrder_nil⟩
  · refine ⟨rfl, forall_mem_singleton.2 rfl, IR.Line.inOrder_nil.concat fun id hid => ?_⟩
    simp [IR.Line.covers, IR.Line.operands, IR.Instr.operands] at hid

theorem drafted_beginFunction (h : Inv .outside s) (ret : IR.Ty) (symbol : String)
    (params : List IR.Typed) : Drafted (s.beginFunction ret symbol params) := by
  obtain ⟨hfunctions, htemps, -, hscope, lines, hdraft, hlines⟩ :=
    s.beginFunction_code ret symbol params
  obtain ⟨hresults, hinOrder⟩ := inOrder_begin (some (.define ret symbol params)) hlines
  refine ⟨?_, hdraft ▸ hinOrder, ?_⟩
  · rw [hfunctions, htemps, hdraft, hresults]
    exact h
  · rw [hscope]
    exact forall_mem_nil _

theorem inv_finishFunction (h : Drafted s) : Inv .outside s.finishFunction := by
  have hlist : s.finishFunction.assembly.functions.toList =
      s.assembly.functions.toList ++ [s.assembly.draft] := Array.toList_push
  have hresults : s.finishFunction.assembly.functions.toList.flatMap IR.Function.results ++ [] =
      s.assembly.functions.toList.flatMap IR.Function.results ++ s.assembly.draft.results := by
    rw [append_nil, hlist, flatMap_append, flatMap_singleton]
  refine ⟨?_, hresults ▸ h.numbered.nodup, hresults ▸ h.numbered.below⟩
  rw [hlist]
  exact forall_mem_append.2 ⟨h.numbered.inOrder, forall_mem_singleton.2 h.draft⟩

theorem drafted_bindLocal (h : Drafted s) {l : Local}
    (hl : ∀ id, l.storage.operand = .temp id → id ∈ s.assembly.draft.results) (name : String) :
    Drafted { s with scope := s.scope.bind name l } :=
  ⟨h.numbered, h.draft, forall_mem_cons.2 ⟨hl, h.scope⟩⟩

/-- Representing types keeps to single assignment. -/
def representing (session : Session) : Representing session where
  toElements := (linear session).toElements
  defined _ := trivial
  definedType _ hargs :=
    Elements.sound_definedType (fun _ _ => trivial) (fun _ => trivial) _ hargs

/-- Code generation keeps to single assignment. -/
def discipline (session : Session) : Discipline session where
  toRepresenting := representing session
  program := session.over_full
  code _ _ := trivial
  scope h entry hentry := ⟨trivial, ok_operand.2 (h.scope entry hentry),
    Ty.over_full _, fun _ _ => trivial⟩
  ctors _ _ _ := ⟨trivial, fun _ _ => trivial, trivial⟩
  bindLocal name h hl := ⟨drafted_bindLocal h (ok_operand.1 hl.1) name, rfl, Nat.le_refl _, [],
    (append_nil _).symm, forall_mem_nil _⟩
  classStruct _ := Representing.sound_classStruct fun _ => trivial
  stop hend _ hi := Linear.stop hend hi
  assertThat := Linear.assertThat
  callEither := Linear.callEither
  begin symbol h _ _ := drafted_beginFunction h _ symbol _
  finish h hvalue _ :=
    inv_finishFunction (append_effect h rfl rfl (uses_of_ok (Facts.ok_ret hvalue))).1
  move {s s'} _ _ h hmove _ hperform :=
    show Inv .outside s' from inv_of_sameCode (s := s) h (hmove.sameCode hperform)

instance (session : Session) : (discipline session).IsFull :=
  ⟨Focus.allows_taking _⟩

end SingleAssignment

namespace Compile

/-- In a compiled module, every temporary that a line defines or uses is the result of one
instruction of the whole module, and every line that uses it comes after that instruction and in the
same function. The lines are instructions and labels. -/
theorem assignedOnce_of_compile_eq_ok {program : Program} {settings : Settings} {output : Output}
    (h : compile program settings = .ok output) :
    (∀ f ∈ output.assembly.functions.toList, ∀ line ∈ f.lines.toList,
      line.isStructured ∧ ∀ id, line.Mentions id → output.assembly.results.count id = 1) ∧
    ∀ f ∈ output.assembly.functions.toList, ∀ before line after,
      f.lines.toList = before ++ line :: after → ∀ id, .temp id ∈ line.operands →
        id ∈ before.filterMap IR.Line.result? := by
  obtain ⟨events, s, hruns, rfl⟩ := runs_of_compile_eq_ok h
  have hinitial : SingleAssignment.Inv .outside (.initial settings) :=
    ⟨List.forall_mem_nil _, List.nodup_nil, List.forall_mem_nil _⟩
  obtain ⟨hinv, -⟩ := Discipline.of_runs_all
    (D := SingleAssignment.discipline ⟨program, settings⟩) hinitial hruns fun _ _ _ => trivial
  obtain ⟨hfunctions, hnodup, -⟩ := (hinv : SingleAssignment.Inv .outside s)
  rw [List.append_nil] at hnodup
  have hbefore := fun f hf => (hfunctions f hf).inOrder
  refine ⟨fun f hf line hline => ⟨(hfunctions f hf).structured line hline, fun id hid => ?_⟩,
    hbefore⟩
  refine List.count_eq_one_of_mem hnodup (List.mem_flatMap.2 ⟨f, hf, ?_⟩)
  obtain hresult | huse := hid
  · exact List.mem_filterMap.2 ⟨line, hline, hresult⟩
  · obtain ⟨before, after, hlines⟩ := List.append_of_mem hline
    have hdefined := hbefore f hf before line after hlines id huse
    rw [IR.Function.results, hlines, List.filterMap_append]
    exact List.mem_append_left _ hdefined

/-- A function that compares two structs and calls a function value. The temporary of the comparison
is taken before the structs are put in memory, and the call branches. -/
def comparing : Program where
  home := {
    structs := .ofList [{ name := "Pair", fields := [{ name := "first", ty := .prim .i32 }] }]
    functions := .ofList [
      { name := "run"
        params := [⟨"g", .func [.prim .i32] (.prim .i32)⟩, ⟨"p", .ofName "Pair" []⟩]
        ret := .prim .i32
        body := some (.mk
          [.eval (.call {} (.ident {} "assert_eq") [.ident {} "p", .ident {} "p"])]
          (some (.call {} (.ident {} "g") [.lit {} (.int 1)]))) }] }

theorem assignedOnce_of_compile_eq_ok_comparing :
    ∃ output, compile comparing { depth := 9 } = .ok output ∧
      output.assembly.results = [0, 1, 2, 3, 5, 6, 4, 7, 8, 9, 10, 11, 12, 13] ∧
      (∀ f ∈ output.assembly.functions.toList, ∀ line ∈ f.lines.toList,
        line.isStructured ∧ ∀ id, line.Mentions id → output.assembly.results.count id = 1) ∧
      ∀ f ∈ output.assembly.functions.toList, ∀ before line after,
        f.lines.toList = before ++ line :: after → ∀ id, .temp id ∈ line.operands →
          id ∈ before.filterMap IR.Line.result? :=
  exists_of_compile_and (fun _ hcompile _ => assignedOnce_of_compile_eq_ok hcompile)
    (by decide +kernel)

end Compile

end Monomorph
