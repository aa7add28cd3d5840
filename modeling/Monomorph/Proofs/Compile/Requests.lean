import Monomorph.Proofs.Compile.Linked

/-!
# Requests have definitions

An instance is requested because its definition was found in the program, and it is generated from
what is found for the name that the request carries. The two searches differ: a call looks for a
method in a class, in its ancestors and then in implementations, while an instance of a method is
looked for in the class alone where there is one. They agree if no two classes have one name and a
class has the generic methods that implementations give it.

## Main results

* `Program.Requests.finds`, `Compile.defined_of_compile_eq_ok`.
-/

namespace Monomorph

open List Script

/-! ### Names that are found -/

/-- The text behind the last double colon contains none. -/
theorem cutReversed_fst {text name qualifier : List Char}
    (h : QualifiedName.cutReversed text = some (name, qualifier)) :
    QualifiedName.cutReversed name = none ∧ name <+: text := by
  fun_induction QualifiedName.cutReversed text generalizing name with
  | case1 rest =>
    cases h
    exact ⟨rfl, nil_prefix⟩
  | case2 c rest hcolon ih =>
    obtain ⟨⟨name', qualifier'⟩, hrest, heq⟩ := Option.map_eq_some_iff.1 h
    cases heq
    obtain ⟨hnone, hpre⟩ := ih hrest
    refine ⟨?_, cons_prefix_cons.2 ⟨rfl, hpre⟩⟩
    -- A double colon at the front would stand at the front of the whole text.
    rw [QualifiedName.cutReversed.eq_def]
    split
    next later heq =>
      cases heq
      obtain ⟨more, rfl⟩ := hpre
      exact (hcolon _ rfl rfl).elim
    next heq =>
      cases heq
      rw [hnone]
      rfl
    next heq => cases heq
  | case3 => cases h

theorem isBare_ofString (name : String) : IsBare (QualifiedName.ofString name).name := by
  rw [QualifiedName.ofString]
  split
  next bare qualifier h =>
    rw [IsBare, QualifiedName.ofString, String.toList_ofList, reverse_reverse,
      (cutReversed_fst h).1]
  next h => rw [IsBare, QualifiedName.ofString, h]

namespace Program

variable {p : Program} {α : Type} [HasName α] {table : Module → Table α} {name : String} {d : α}

/-- What is found has a bare name. -/
theorem isBare_of_lookup (h : p.lookup table name = some d) : IsBare (HasName.nameOf d) :=
  bare_of_lookup h ▸ isBare_ofString name

/-- What is found is found again under its own name, though it may be another item. -/
theorem isSome_lookup_name (h : p.lookup table name = some d) :
    (p.lookup table (HasName.nameOf d)).isSome = true :=
  (isSome_lookup_iff (isBare_of_lookup h)).2 (mem_names_of_lookup h)

/-- A method that some implementation for a type has is found. -/
theorem isSome_implMethod? {origin : Origin} {impl : ImplDef} {method : String} {f : FunctionDef}
    (himpl : (origin, impl) ∈ p.impls) (hname : impl.typeName? = some name)
    (hf : impl.method? method = some f) : (p.implMethod? name method).isSome = true := by
  have hamong : (p.implMethodAmong? impl.behavior.isNone name method).isSome = true := by
    rw [implMethodAmong?, findSome?_isSome_iff]
    refine ⟨(origin, impl), mem_filter.2 ⟨himpl, ?_⟩, ?_⟩
    · rw [hname, decide_eq_true rfl, decide_eq_true rfl]
      rfl
    · rw [hf]
      rfl
  rw [implMethod?, Option.isSome_or, Bool.or_eq_true]
  cases hbehavior : impl.behavior.isNone with
  | true => exact .inl (hbehavior ▸ hamong)
  | false => exact .inr (hbehavior ▸ hamong)

/-- Programs in which the definition of a requested method is found again: no two classes have one
name, and a class has every method, needed as an instance, that an implementation gives it. -/
structure KeepsMethods (p : Program) : Prop where
  nodup : (p.names Module.classes).Nodup
  methods : ∀ entry ∈ p.impls, ∀ name ∈ entry.2.typeName?, ∀ d ∈ p.class? name,
    ∀ f ∈ entry.2.methods, entry.2.generics ≠ [] ∨ f.isGeneric = true →
      (f.name = "new" ∧ d.constructors ≠ []) ∨ (d.method? f.name).isSome = true

/-- The definition behind a request is found again. -/
theorem Requests.finds (hp : p.KeepsMethods) {item : WorkItem} (h : p.Requests item) :
    p.finds item = true := by
  cases h with
  | struct hd => exact isSome_lookup_name hd
  | enum hd => exact isSome_lookup_name hd
  | cls hd => exact isSome_lookup_name hd
  | func hf => exact isSome_lookup_name hf
  | @classMethod name method d f hd hf args methodArgs =>
    have hclass : p.class? d.name = some d := lookup_name hp.nodup (isBare_of_lookup hd) hd
    rw [Program.finds, WorkItem.ofMethod, Option.any_some, findsMethod, hclass]
    simp only [hf, Option.isSome_some, Bool.or_true]
  | @constructor name d hd hconstructors args methodArgs =>
    have hclass : p.class? d.name = some d := lookup_name hp.nodup (isBare_of_lookup hd) hd
    rw [Program.finds, WorkItem.ofMethod, Option.any_some, findsMethod, hclass]
    have hsome := isEmpty_eq_false_iff.2 hconstructors
    simp only [hsome, decide_true, Bool.not_false, Bool.and_self, Bool.true_or]
  | @implMethod origin impl name method f himpl hname hf hgeneric args methodArgs =>
    rw [Program.finds, WorkItem.ofMethod, Option.any_some, findsMethod]
    cases hclass : p.class? name with
    | none => exact isSome_implMethod? himpl hname hf
    | some d =>
      obtain ⟨hmem, hfname⟩ := ImplDef.of_method? hf
      have hkept := hp.methods _ himpl name hname d hclass f hmem hgeneric
      rw [hfname] at hkept
      simp only [Bool.or_eq_true, Bool.and_eq_true, decide_eq_true_eq, Bool.not_eq_true',
        isEmpty_eq_false_iff]
      exact hkept

end Program

/-! ### Compilations -/

namespace Compile

variable {program : Program} {settings : Settings} {output : Output} {item : WorkItem}

/-- The instances of the result belong to definitions that were found. -/
theorem requests_of_mem_instances (h : compile program settings = .ok output)
    (hitem : item ∈ output.instances) : program.Requests item := by
  obtain ⟨events, s, hruns, rfl⟩ := runs_of_compile_eq_ok h
  exact ((Linkage.of_runs_all hruns).1 _ (require_of_mem_processed hruns hitem) s).1.requests

/-- Whether an instance is generated is whether its definition is found. -/
theorem Performs.found_eq {s s' : Build} {during : Gen.Trace} {found : Bool}
    (h : Performs program settings output (Gen.generateFound item) s during found s') :
    found = program.finds item := by
  have hok : (Naming.free ⟨program, settings⟩).Ok s item :=
    ⟨trivial, fun t _ => Ty.over_full t, fun _ _ t _ => Ty.over_full t⟩
  exact ((Discipline.ensures_generateFound hok).ends (Naming.inv_free _ _ s) during found s'
    h.runs (Naming.takes_none _ during)).2.2.2

/-- Where the methods of implementations for classes are methods of the classes, no definition is
reported as missing, and every instance that is requested is generated from a definition. -/
theorem defined_of_compile_eq_ok (hp : program.KeepsMethods)
    (h : compile program settings = .ok output) :
    (∀ d ∈ output.diagnostics, d.code ≠ .missingDefinition) ∧
      ∀ item ∈ output.instances,
        (∃ t own t', Performs program settings output (Gen.generateFound item) t own true t') ∧
        ∀ t own found t', Performs program settings output (Gen.generateFound item) t own found t' →
          found = true := by
  have hfinds : ∀ item ∈ output.instances, program.finds item = true := fun item hitem =>
    (requests_of_mem_instances h hitem).finds hp
  refine ⟨?_, fun item hitem => ⟨?_, fun t own found t' hown => ?_⟩⟩
  · obtain ⟨events, s, hruns, rfl⟩ := runs_of_compile_eq_ok h
    obtain ⟨hevents, hs⟩ := Linkage.of_runs_all hruns
    intro d hd hcode
    have hd : d ∈ s.diagnostics.kept := List.mem_mergeSort.1 hd
    obtain ⟨-, item, ⟨_, hitem⟩, hmissing⟩ := hs.diagnostics d hd hcode
    -- What is reported as missing was requested, so that it is found.
    have hrequests := (hevents _ hitem s).1.requests
    exact Bool.false_ne_true (hmissing.symm.trans (Program.Requests.finds hp hrequests))
  · obtain ⟨t, own, t', hgenerate⟩ := performs_generate h hitem
    obtain ⟨own, found, t', rest, hfound, -, -⟩ := hgenerate.bind
    obtain rfl : found = true := hfound.found_eq.trans (hfinds item hitem)
    exact ⟨t, own, t', hfound⟩
  · exact hown.found_eq.trans (hfinds item hitem)

/-- A method that returns a number. -/
def numbered (name : String) (value : Nat) : FunctionDef where
  name := name
  ret := .prim .i32
  hasSelf := true
  body := some (.mk [] (some (.lit {} (.int value))))

/-- A generic class with a method that an implementation provides too, a generic struct with a
method of its own, and calls of both methods. -/
def shownCells : Program where
  home := {
    structs := .ofList [
      { name := "Box", generics := ["T"], fields := [{ name := "v", ty := .ofName "T" [] }] }]
    classes := .ofList [
      { name := "Cell", generics := ["T"], fields := [{ name := "v", ty := .ofName "T" [] }]
        methods := [numbered "show" 1] }]
    impls := [
      { selfTy := .ofName "Cell" [.ofName "T" []], generics := ["T"]
        methods := [numbered "show" 2] },
      { selfTy := .ofName "Box" [.ofName "T" []], generics := ["T"]
        methods := [numbered "show" 3] }]
    functions := .ofList [
      { name := "f"
        params := [⟨"c", .ofName "Cell" [.prim .i32]⟩, ⟨"b", .ofName "Box" [.prim .i32]⟩]
        body := some (.mk [.eval (.methodCall {} (.ident {} "c") "show" []),
          .eval (.methodCall {} (.ident {} "b") "show" [])] none) }] }

theorem defined_of_compile_eq_ok_shownCells :
    shownCells.KeepsMethods ∧ ∃ output, compile shownCells { depth := 9 } = .ok output ∧
      (output.instances.filter fun item => item.kind = .method).map WorkItem.symbol =
        ["Cell__I32_show", "Box__I32_show"] ∧
      (∀ d ∈ output.diagnostics, d.code ≠ .missingDefinition) ∧
      ∀ item ∈ output.instances,
        (∃ t own t', Performs shownCells { depth := 9 } output (Gen.generateFound item) t own true
          t') ∧
        ∀ t own found t', Performs shownCells { depth := 9 } output (Gen.generateFound item) t own
          found t' → found = true := by
  have hp : shownCells.KeepsMethods := ⟨by decide, by decide⟩
  exact ⟨hp, exists_of_compile_and (fun _ hcompile _ => defined_of_compile_eq_ok hp hcompile)
    (by decide +kernel)⟩

/-- A generic class whose only method an implementation provides, and a call of that method. -/
def borrowedMethod : Program where
  home := {
    classes := .ofList [
      { name := "Cell", generics := ["T"], fields := [{ name := "v", ty := .ofName "T" [] }] }]
    impls := [
      { selfTy := .ofName "Cell" [.ofName "T" []], generics := ["T"]
        methods := [numbered "show" 1] }]
    functions := .ofList [
      { name := "f", params := [⟨"c", .ofName "Cell" [.prim .i32]⟩], ret := .prim .i32
        body := some (.mk [] (some (.methodCall {} (.ident {} "c") "show" []))) }] }

/-- A call finds the method that an implementation gives a class, but the instance that it requests
is looked for in the class alone, and its definition is reported as missing. -/
theorem undefined_of_borrowedMethod :
    ∃ output, compile borrowedMethod { depth := 9 } = .ok output ∧
      .ofMethod "Cell" [.prim .i32] "show" [] ∈ output.instances ∧
      (output.diagnostics.map fun d => (d.code, d.message)) =
        [(.missingDefinition, "no definition for instantiation `Cell__I32_show`")] :=
  exists_of_compile (by decide +kernel)

end Compile

end Monomorph
