import Monomorph.Proofs.Compile.Closures
import Monomorph.Proofs.Compile.Linked
import Mathlib.Logic.Relation

/-!
# Closures in generic code

The code of a closure is an instance of its body, for the arguments that the binding of the code
that makes the closure gives to the open names of the body. A body that is made by another body is
requested under the binding of that one, which has only the names that are open in it. So closures
of any depth are instantiated with the function that makes them where each body mentions the names
that the bodies made by it mention. A body that mentions none of them is not instantiated at all: it
is lowered once, without a binding, and what it makes stays open.

## Main results

* `Compile.closures_not_deferred`, `Compile.closure_deferred`.
-/

namespace Monomorph

open List Script

namespace Program

variable (p : Program)

/-- A function makes closures with a given body. -/
def Makes (g k : FunctionDef) : Prop :=
  ∃ note name captures, p.InCode g (.closure note name captures) ∧ p.function? name = some k ∧
    k.isClosureBody = true

/-- The names that an instance of a function binds. -/
def instanceParams (g : FunctionDef) : List String :=
  if g.isClosureBody && !g.isGeneric then p.closureParams g else g.generics

/-- What is open in the closures that a function makes, directly or through other closures, is bound
where they are made. -/
def HandsOn (f : FunctionDef) : Prop :=
  ∀ g k, Relation.ReflTransGen p.Makes f g → p.Makes g k →
    k.isGeneric = false ∧ ∀ name ∈ p.closureParams k, name ∈ p.instanceParams g

/-- An instance of a function and the instances of bodies that it makes, directly or through other
closures. -/
inductive Spawned (f : FunctionDef) (args : List Ty) : FunctionDef → List Ty → Prop
  | root : Spawned f args f args
  | made {g k given} (h : Spawned f args g given) (hk : p.Makes g k) :
      Spawned f args k (p.closureItem (.ofArgs (p.instanceParams g) given) k).args

variable {p}

/-- The arguments of a body are closed where its names are bound to closed types. -/
theorem isOpenList_closureItem {k : FunctionDef} {names : List String} {args : List Ty}
    (hlength : names.length ≤ args.length) (hclosed : p.isOpenList args = false)
    (hnames : ∀ name ∈ p.closureParams k, name ∈ names) :
    p.isOpenList (p.closureItem (.ofArgs names args) k).args = false := by
  refine isOpenList_eq_false.2 fun t ht => ?_
  obtain ⟨name, hname, rfl⟩ := mem_map.1 ht
  obtain ⟨bound, hbound⟩ := Option.isSome_iff_exists.1
    (Bindings.isSome_find?_ofArgs hlength (hnames name hname))
  have hsubst : (Ty.param name).subst (.ofArgs names args) = bound := by
    rw [Ty.param, Ty.subst_param, hbound]
    rfl
  rw [hsubst]
  exact isOpenList_eq_false.1 hclosed bound (Bindings.mem_of_find?_ofArgs hbound)

namespace Spawned

variable {f g : FunctionDef} {args given : List Ty}

theorem reflTransGen (h : p.Spawned f args g given) : Relation.ReflTransGen p.Makes f g := by
  induction h with
  | root => exact .refl
  | made _ hk ih => exact ih.tail hk

/-- Bodies are instantiated at closed types, with one type for each name. -/
theorem closed (h : p.Spawned f args g given) (hands : p.HandsOn f)
    (hlength : (p.instanceParams f).length ≤ args.length) (hclosed : p.isOpenList args = false) :
    (p.instanceParams g).length ≤ given.length ∧ p.isOpenList given = false := by
  induction h with
  | root => exact ⟨hlength, hclosed⟩
  | @made g k given hg hk ih =>
    obtain ⟨hgeneric, hnames⟩ := hands g k hg.reflTransGen hk
    have hparams : p.instanceParams k = p.closureParams k := by
      obtain ⟨-, -, -, -, -, hbody⟩ := hk
      simp [instanceParams, hbody, hgeneric]
    refine ⟨?_, isOpenList_closureItem ih.1 ih.2 hnames⟩
    rw [hparams]
    exact (length_map _).ge

end Spawned

end Program

/-- The code of a function, in which the code of closures is not put aside. -/
def Focus.ofMaker (session : Session) (g : FunctionDef) : Focus session :=
  { (Focus.none session).inCode g with
    Defers := session.program.IsOrdinary
    defers := id }

instance (session : Session) (g : FunctionDef) : (Focus.ofMaker session g).IsLoose :=
  ⟨fun _ => trivial, fun _ => trivial, fun _ => trivial⟩

namespace Compile

variable {program : Program} {settings : Settings} {output : Output} {s s' : Build}
  {during : List (Script.Event Step.Answer)} {param : Ty} {k : FunctionDef}

/-- Where what is open in closures is bound by the code that makes them, an instance of a function
at closed types comes with instances of all the bodies in it at closed types, and lowering any of
them puts aside no request for the code of such a body. -/
theorem closures_not_deferred {f g : FunctionDef} {args given : List Ty} (hands : program.HandsOn f)
    (hnames : ∀ k, Relation.TransGen program.Makes f k → ∀ name h,
      program.function? name = some h → h.isGeneric = true → h.name ≠ k.name)
    (hlength : (program.instanceParams f).length ≤ args.length)
    (hclosed : program.isOpenList args = false) (hg : program.Spawned f args g given)
    {symbol : String} (h : Performs program settings output
      (Gen.lowerFunction g symbol (.ofArgs (program.instanceParams g) given) none) s during () s') :
    program.isOpenList given = false ∧
      ∀ item name, ⟨.defer item, name⟩ ∈ during → item.kind = .func →
        ∀ k, Relation.TransGen program.Makes f k → item.base ≠ k.name := by
  obtain ⟨hgiven, hopen⟩ := hg.closed hands hlength hclosed
  refine ⟨hopen, fun item name hdefer hkind k hk hbase => ?_⟩
  have hallows : (Focus.ofMaker ⟨program, settings⟩ g).Allows g
      (.ofArgs (program.instanceParams g) given) := by
    refine ⟨fun body hbody => .body hbody, trivial, ?_, fun _ => trivial, fun _ => trivial⟩
    intro note name captures k hcode hk hbody hitem
    rw [Program.isOpenList_closureItem hgiven hopen
      (hands g k hg.reflTransGen ⟨note, name, captures, hcode, hk, hbody⟩).2] at hitem
    cases hitem
  have hsound : (Naming.following (.ofMaker ⟨program, settings⟩ g)).Sound .outside s
      (Gen.lowerFunction g symbol (.ofArgs (program.instanceParams g) given) none) :=
    Discipline.sound_lowerFunction (FunctionDef.over_of_isFull .full g) hallows
      (fun _ _ => Ty.over_of_isFull .full _) symbol (fun _ _ => Ty.over_of_isFull .full _)
  obtain ⟨haccepts, -⟩ := Naming.accepts_of_runs hsound h.runs fun _ _ => trivial
  obtain ⟨generic, f', hf', hgeneric, hname⟩ := haccepts _ hdefer hkind
  exact hnames k hk generic f' hf' hgeneric (hname.symm.trans hbase)

/-! ### Bodies that make closures -/

/-- A generic function that makes closures which do not capture its parameter. -/
def outermost : FunctionDef where
  name := "f"
  generics := ["T"]
  params := [⟨"n", .prim .i32⟩]
  body := some (.mk [.eval (.closure {} "k" ["n"])] none)

/-- A body that makes closures with another one. -/
def between (param : Ty) : FunctionDef where
  name := "k"
  params := [⟨"x", param⟩]
  captures := [⟨"n", .prim .i32⟩]
  body := some (.mk [.eval (.closure {} "i" ["n"])] none)

/-- The body of the closures that are made in it. -/
def innermost : FunctionDef where
  name := "i"
  params := [⟨"x", .ofName "T" []⟩]
  captures := [⟨"n", .prim .i32⟩]
  body := some (.mk [] none)

/-- A generic function with closures in closures, and a call of it. -/
def nesting (param : Ty) : Program where
  home := {
    functions := .ofList [outermost, between param, innermost,
      { name := "main"
        body := some (.mk [.eval (.call {} (.path {} ⟨["f"], [.prim .i32]⟩)
          [.lit {} (.int 1)])] none) }] }

theorem makes_nesting {g : FunctionDef} {name : String}
    (hbody : g.body = some (.mk [.eval (.closure {} name ["n"])] none))
    (h : (nesting param).Makes g k) : (nesting param).function? name = some k := by
  obtain ⟨note, name', captures, hcode, hk, -⟩ := h
  have hmem : Expr.closure note name' captures ∈
      [.block {} (.mk [.eval (.closure {} name ["n"])] none), .closure {} name ["n"],
        .ident {} "n"] :=
    hcode.mem hbody mem_cons_self (forall_mem_cons.2
      ⟨cons_subset.2 ⟨mem_cons_of_mem _ mem_cons_self, nil_subset _⟩, forall_mem_cons.2
        ⟨cons_subset.2 ⟨mem_cons_of_mem _ (mem_cons_of_mem _ mem_cons_self), nil_subset _⟩,
          forall_mem_singleton.2 (nil_subset _)⟩⟩)
  obtain heq | hmem := mem_cons.1 hmem
  · cases heq
  · obtain heq | hmem := mem_cons.1 hmem
    · cases heq
      exact hk
    · cases mem_singleton.1 hmem

theorem not_makes_innermost : ¬ (nesting param).Makes innermost k := by
  rintro ⟨note, name, captures, hcode, -⟩
  cases mem_singleton.1 (hcode.mem rfl (mem_singleton_self _)
    (forall_mem_singleton.2 (nil_subset _)))

theorem eq_of_makes_nesting {g : FunctionDef}
    (hg : g = outermost ∨ g = between param ∨ g = innermost) (hk : (nesting param).Makes g k) :
    g = outermost ∧ k = between param ∨ g = between param ∧ k = innermost := by
  obtain rfl | rfl | rfl := hg
  · cases makes_nesting rfl hk
    exact .inl ⟨rfl, rfl⟩
  · cases makes_nesting rfl hk
    exact .inr ⟨rfl, rfl⟩
  · cases not_makes_innermost hk

/-- What the generic function makes, directly or through other closures. -/
theorem reflTransGen_nesting {g : FunctionDef}
    (h : Relation.ReflTransGen (nesting param).Makes outermost g) :
    g = outermost ∨ g = between param ∨ g = innermost := by
  induction h with
  | refl => exact .inl rfl
  | tail _ hk ih =>
    obtain ⟨-, rfl⟩ | ⟨-, rfl⟩ := eq_of_makes_nesting ih hk
    · exact .inr (.inl rfl)
    · exact .inr (.inr rfl)

theorem handsOn_nesting : (nesting (.ofName "T" [])).HandsOn outermost := by
  intro g k hg hk
  obtain ⟨rfl, rfl⟩ | ⟨rfl, rfl⟩ := eq_of_makes_nesting (reflTransGen_nesting hg) hk
  · exact ⟨rfl, by decide +kernel⟩
  · exact ⟨rfl, by decide +kernel⟩

/-- The only generic function has another name than the bodies. -/
theorem name_ne_of_isGeneric_nesting (hk : Relation.TransGen (nesting param).Makes outermost k)
    (name : String) (h : FunctionDef) (hh : (nesting param).function? name = some h)
    (hgeneric : h.isGeneric = true) : h.name ≠ k.name := by
  obtain ⟨m, hm, hmem⟩ := Program.mem_of_lookup hh
  obtain rfl := mem_singleton.1 hm
  obtain ⟨g, hg, hk⟩ := Relation.TransGen.tail'_iff.1 hk
  have hname : h.name = "f" := by
    have hitems : ∀ h ∈ (nesting param).home.functions.items, h.isGeneric = true → h.name = "f" :=
      forall_mem_cons.2 ⟨fun _ => rfl, forall_mem_cons.2 ⟨by rintro ⟨⟩,
        forall_mem_cons.2 ⟨by rintro ⟨⟩, forall_mem_singleton.2 (by rintro ⟨⟩)⟩⟩⟩
    exact hitems h hmem hgeneric
  rw [hname]
  obtain ⟨-, rfl⟩ | ⟨-, rfl⟩ := eq_of_makes_nesting (reflTransGen_nesting hg) hk
  · exact (by decide : "f" ≠ "k")
  · exact (by decide : "f" ≠ "i")

/-- The body between is instantiated with the function and requests the innermost body at a closed
type. -/
theorem closures_not_deferred_nesting :
    (nesting (.ofName "T" [])).HandsOn outermost ∧
    ∃ output, compile (nesting (.ofName "T" [])) { depth := 9 } = .ok output ∧
      output.instances = [.plain .func "f" [.prim .i32], .plain .func "k" [.prim .i32],
        .plain .func "i" [.prim .i32]] ∧
      ∃ s during s', Performs (nesting (.ofName "T" [])) { depth := 9 } output
          (Gen.lowerFunction (between (.ofName "T" [])) "@tml_k__I32"
            (.ofArgs ["T"] [.prim .i32]) none) s during () s' ∧
        ∀ item name, ⟨.defer item, name⟩ ∈ during → item.kind = .func → item.base ≠ "i" := by
  refine ⟨handsOn_nesting, exists_of_compile_and (fun output hcompile hinstances => ?_)
    (by decide +kernel)⟩
  have hparams : (nesting (.ofName "T" [])).instanceParams (between (.ofName "T" [])) = ["T"] := by
    decide +kernel
  have hpiece : Session.piece? ⟨nesting (.ofName "T" []), { depth := 9 }⟩
      (.plain .func "k" [.prim .i32]) = some (.function (between (.ofName "T" [])) "@tml_k__I32"
        (.ofArgs ((nesting (.ofName "T" [])).instanceParams (between (.ofName "T" [])))
          [.prim .i32]) none) := rfl
  have hitem : .plain .func "k" [.prim .i32] ∈ output.instances := by
    rw [hinstances]
    exact List.mem_cons_of_mem _ List.mem_cons_self
  obtain ⟨s, during, s', hlower⟩ := performs_of_mem_pieces hcompile
    (List.mem_append_right _ (List.mem_filterMap.2 ⟨_, hitem, hpiece⟩))
  have hbetween : (nesting (.ofName "T" [])).Makes outermost (between (.ofName "T" [])) :=
    ⟨{}, "k", ["n"], (Program.InCode.body rfl).opened List.mem_cons_self, rfl, rfl⟩
  have hinnermost : (nesting (.ofName "T" [])).Makes (between (.ofName "T" [])) innermost :=
    ⟨{}, "i", ["n"], (Program.InCode.body rfl).opened List.mem_cons_self, rfl, rfl⟩
  have hspawned : (nesting (.ofName "T" [])).Spawned outermost [.prim .i32]
      (between (.ofName "T" [])) [.prim .i32] := by
    have hroot : (nesting (.ofName "T" [])).Spawned outermost [.prim .i32] outermost [.prim .i32] :=
      .root
    have hmade := hroot.made hbetween
    rwa [show (Program.closureItem _ _ _).args = [.prim .i32] by decide +kernel] at hmade
  obtain ⟨-, hdefer⟩ := closures_not_deferred handsOn_nesting
    (fun _ => name_ne_of_isGeneric_nesting) (by decide) (by decide) hspawned hlower
  rw [hparams] at hlower
  exact ⟨s, during, s', hlower,
    fun item name hmem hkind => hdefer item name hmem hkind innermost
      (.tail (.single hbetween) hinnermost)⟩

/-- A body that does not mention the parameter of the function does not hand on what is open in the
innermost body, although the function binds it. -/
theorem closure_deferred :
    (∀ g ∈ [outermost, between (.prim .i32), innermost],
      ∀ name ∈ (nesting (.prim .i32)).closureParams g, name ∈ outermost.generics) ∧
    (nesting (.prim .i32)).Makes outermost (between (.prim .i32)) ∧
    (nesting (.prim .i32)).Makes (between (.prim .i32)) innermost ∧
    (compile (nesting (.prim .i32)) { depth := 9 }).toOption.map (fun output =>
        (output.instances, output.deferred)) =
      some ([.plain .func "f" [.prim .i32]], [.unresolved .func "i" [.ofName "T" []]]) :=
  ⟨by decide +kernel,
    ⟨{}, "k", ["n"], (Program.InCode.body rfl).opened List.mem_cons_self, rfl, rfl⟩,
    ⟨{}, "i", ["n"], (Program.InCode.body rfl).opened List.mem_cons_self, rfl, rfl⟩,
    by decide +kernel⟩

end Compile

end Monomorph
