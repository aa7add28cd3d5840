import Monomorph.Proofs.Compile.Symbols

/-!
# Requests with open arguments

A request with an open argument is answered by the placeholder and put aside, so that no instance of
the result should have such an argument. Wherever code asks for an instance, its arguments are
looked at, with two exceptions. The methods for the slots of a dispatch table are requested for the
arguments of the type that the table is for, although code stores values of open types as well. And
the arguments of a static method are looked at before they are put into the type that its
implementation is for, which may have an open name of its own.

## Main results

* `Compile.spares_of_event`, `Compile.closed_or_deferred`.
-/

namespace Monomorph

open Script

namespace Compile

variable {program : Program} {settings : Settings} {output : Output}

/-- A dispatch table is requested in a compilation that gives a result. -/
def RequiresTable (program : Program) (settings : Settings) (output : Output)
    (request : Dispatch.Request) : Prop :=
  ∃ s during table s',
    Performs program settings output (Gen.perform (.requireTable request)) s during table s'

section Events

variable {events : List Event} {last : Build}
  (hruns : Runs (Move.perform ⟨program, settings⟩) all (.initial settings) events () last)

include hruns

/-- Every step of a compilation is a passage of it. -/
theorem performs_of_event {step : Step} {answer : step.Answer}
    (hevent : ⟨.step step, answer⟩ ∈ events) : ∃ s s',
      Performs program settings last.output (Gen.perform step) s [⟨step, answer⟩] answer s' := by
  obtain ⟨before, after, s, s', rfl, hbefore, hperform, -⟩ := hruns.leads.of_mem hevent
  exact ⟨s, s', runs_ask_done_iff.2 ⟨hperform, rfl⟩, before, after, last, hruns, rfl, hbefore⟩

/-- An instance that is requested for open arguments is spared the check. -/
theorem spares_of_event {item : WorkItem} {symbol : String}
    (hevent : ⟨.step (.require item), symbol⟩ ∈ events)
    (hopen : program.isOpenList item.allArgs = true) :
    program.Spares (RequiresTable program settings last.output) item := by
  have hadmits : (Linkage.facts ⟨program, settings⟩ events).Admits item :=
    (Linkage.of_runs_all hruns).1 _ hevent
  refine ((hadmits last).1.closed hopen).mono ?_
  rintro request ⟨table, htable⟩
  obtain ⟨s, s', hperforms⟩ := performs_of_event hruns htable
  exact ⟨s, _, table, s', hperforms⟩

end Events

/-- The instances of the result have closed arguments, but for methods in slots of dispatch tables
and for static methods of implementations with a name out of scope. Every other request with open
arguments is answered by the placeholder and put aside. -/
theorem closed_or_deferred (h : compile program settings = .ok output) :
    (∀ item ∈ output.instances, program.isOpenList item.allArgs = true →
        program.Spares (RequiresTable program settings output) item) ∧
      ∀ item isOpen s during name s',
        Performs program settings output (Gen.request item isOpen) s during name s' →
          program.isOpenList item.allArgs = true →
            ¬ program.Spares (RequiresTable program settings output) item →
              name = Symbol.placeholder item.base ∧
                .unresolved item.kind item.base item.args ∈ output.deferred := by
  constructor
  · intro item hitem hopen
    obtain ⟨events, last, hruns, rfl⟩ := runs_of_compile_eq_ok h
    exact spares_of_event hruns (require_of_mem_processed hruns hitem) hopen
  · intro item isOpen s during name s' hperforms hopen hspares
    obtain ⟨events, last, hruns, rfl, hpart⟩ := hperforms.occurs.part
    cases isOpen with
    | true =>
      obtain ⟨hdefer, rfl⟩ := runs_ask_done_iff.1 hperforms.runs
      cases hdefer
      exact ⟨rfl, unresolved_of_event hruns (hpart.subset List.mem_cons_self)⟩
    | false =>
      obtain ⟨-, rfl⟩ := runs_ask_done_iff.1 hperforms.runs
      exact (hspares (spares_of_event hruns (hpart.subset List.mem_cons_self) hopen)).elim

/-- A function that stores a value of the open type `Cell[Q]` behind a behavior, calls its method
and the one of `Cell[I32]`, and calls a static method of an implementation for the open type
`Hold[R]`. -/
def looseEnds : Program where
  home := {
    structs := .ofList [
      { name := "Cell", generics := ["T"], fields := [{ name := "v", ty := .ofName "T" [] }] },
      { name := "Hold", generics := ["T"], fields := [{ name := "v", ty := .ofName "T" [] }] }]
    behaviors := .ofList [{ name := "Show", methods := [⟨"show", [], .prim .i32⟩] }]
    impls := [
      { selfTy := .ofName "Cell" [.ofName "T" []], generics := ["T"], behavior := some "Show"
        methods := [numbered "show" 1] },
      { selfTy := .ofName "Hold" [.ofName "R" []]
        methods := [
          { name := "make", generics := ["U"], params := [⟨"u", .ofName "U" []⟩]
            ret := .ofName "U" [], body := some (.mk [] (some (.ident {} "u"))) }] }]
    functions := .ofList [
      { name := "f"
        params := [⟨"c", .ofName "Cell" [.ofName "Q" []]⟩, ⟨"b", .ofName "Cell" [.prim .i32]⟩]
        body := some (.mk [.bind "d" (some (.dyn "Show" [])) (.ident {} "c"),
          .eval (.methodCall {} (.ident {} "c") "show" []),
          .eval (.methodCall {} (.ident {} "b") "show" []),
          .eval (.call {} (.path {} ⟨["Hold", "make"], [.prim .i32]⟩)
            [.lit {} (.int 1)])] none) }] }

theorem exists_compile_looseEnds : ∃ output, compile looseEnds { depth := 9 } = .ok output ∧
      output.instances = [.plain .struct "Cell" [.prim .i32],
        .ofMethod "Cell" [.prim .i32] "show" [],
        .ofMethod "Hold" [.ofName "R" []] "make" [.prim .i32],
        .ofMethod "Cell" [.ofName "Q" []] "show" []] ∧
      output.deferred = [.unresolved .struct "Cell" [.ofName "Q" []],
        .unresolved .method "Cell" [.ofName "Q" []]] :=
  exists_of_compile (by decide +kernel)

/-- What the code of the function requests for `Cell[Q]` is put aside. -/
theorem closed_or_deferred_looseEnds :
    ∃ output, compile looseEnds { depth := 9 } = .ok output ∧
      output.deferred = [.unresolved .struct "Cell" [.ofName "Q" []],
        .unresolved .method "Cell" [.ofName "Q" []]] ∧
      (∀ item ∈ output.instances, looseEnds.isOpenList item.allArgs = true →
        looseEnds.Spares (RequiresTable looseEnds { depth := 9 } output) item) ∧
      ∀ item isOpen s during name s',
        Performs looseEnds { depth := 9 } output (Gen.request item isOpen) s during name s' →
          looseEnds.isOpenList item.allArgs = true →
            ¬ looseEnds.Spares (RequiresTable looseEnds { depth := 9 } output) item →
              name = Symbol.placeholder item.base ∧
                .unresolved item.kind item.base item.args ∈ output.deferred := by
  obtain ⟨output, hcompile, -, hdeferred⟩ := exists_compile_looseEnds
  exact ⟨output, hcompile, hdeferred, closed_or_deferred hcompile⟩

/-- The method in the slot of the dispatch table and the static method are generated for open
arguments. -/
theorem open_of_looseEnds :
    ∃ output, compile looseEnds { depth := 9 } = .ok output ∧
      (.ofMethod "Cell" [.ofName "Q" []] "show" [] ∈ output.instances ∧
        looseEnds.isOpen (.ofName "Q" []) = true) ∧
      .ofMethod "Hold" [.ofName "R" []] "make" [.prim .i32] ∈ output.instances ∧
        looseEnds.isOpen (.ofName "R" []) = true := by
  obtain ⟨output, hcompile, hinstances, -⟩ := exists_compile_looseEnds
  refine ⟨output, hcompile, ⟨?_, by decide⟩, ?_, by decide⟩
  · rw [hinstances]
    decide
  · rw [hinstances]
    decide

end Compile

end Monomorph
