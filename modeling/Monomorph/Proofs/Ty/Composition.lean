import Monomorph.Proofs.Ty.Occurrence
import Monomorph.Proofs.Ty.Substitution

/-!
# One substitution after another

What a binding makes of a type depends on the parameters that occur in it and on nothing else. In
particular a type can be replaced twice, the field type of a definition first for an instance of the
definition and then for the code around it, and one binding does the same at once. A bound parameter
is gone after that, unless a type that was put in brings it back.

## Main results

* `Ty.subst_congr`, `Ty.subst_andThen`, `Ty.mentions_subst`.
-/

namespace Monomorph

namespace Ty

/-! ### What substitution depends on -/

/-- Bindings that agree on what a type mentions make the same of it. -/
theorem subst_congr {b b' : Bindings} {t : Ty}
    (h : ∀ name, t.mentions [name] = true → b.find? name = b'.find? name) :
    t.subst b = t.subst b' := by
  induction t using induction_leaves with
  | leaf qualifier name => rw [subst_param, subst_param, h name (by simp [mentions])]
  | step t hleaf ih =>
    rw [subst_of_leaf?_eq_none hleaf, subst_of_leaf?_eq_none hleaf]
    exact mapChildren_congr fun part hpart => ih part hpart fun name hname =>
      h name (mentions_of_mem_children hpart hname)

end Ty

/-! ### One substitution after another -/

namespace Bindings

/-- Replace by `b`, and then by `later` what `b` has put in and what it has left. -/
def andThen (b later : Bindings) : Bindings :=
  ⟨b.entries.map (fun entry => (entry.1, entry.2.subst later)) ++ later.entries⟩

theorem find?_andThen (b later : Bindings) (name : String) : (b.andThen later).find? name =
      ((b.find? name).map (Ty.subst later)).or (later.find? name) := by
  rw [find?, andThen, List.lookup_append]
  exact congrArg (Option.or · _) (find?_mapped b (Ty.subst later) name)

end Bindings

namespace Ty

theorem subst_subst (b later : Bindings) (t : Ty) :
    (t.subst b).subst later = t.subst (b.andThen later) := by
  induction t using induction_leaves with
  | leaf qualifier name =>
    rw [subst_param, subst_param, Bindings.find?_andThen]
    cases b.find? name with
    | some image => rfl
    | none => exact subst_param later qualifier name
  | step t hleaf ih =>
    -- Children are replaced and none is lost, so no nominal leaf comes up.
    have hkept := (leaf?_mapChildren (subst b) t).trans hleaf
    rw [subst_of_leaf?_eq_none hleaf, subst_of_leaf?_eq_none hleaf, subst_of_leaf?_eq_none hkept,
      mapChildren_mapChildren, mapChildren_congr ih]

/-- Substitutions compose: to replace by one binding and then by another is to replace at once by
the binding that gives a name of the first what the second makes of its type, and any other name
what the second gives it. Where nothing is bound, nothing is replaced. -/
theorem subst_andThen (b later : Bindings) (t : Ty) :
    (t.subst b).subst later = t.subst (b.andThen later) ∧
      (∀ name, (b.andThen later).find? name =
        ((b.find? name).map (Ty.subst later)).or (later.find? name)) ∧
      t.subst .empty = t :=
  ⟨subst_subst b later t, Bindings.find?_andThen b later, subst_empty t⟩

end Ty

/-! ### What is left of the parameters -/

namespace Bindings

/-- What replaces a parameter mentions one of `names`: the parameter itself where it is not bound,
else the type that it is bound to. -/
def Exposes (b : Bindings) (names : List String) (name : String) : Prop :=
  match b.find? name with
  | none => name ∈ names
  | some image => image.mentions names = true

theorem exposes_iff {b : Bindings} {names : List String} {name : String} :
    b.Exposes names name ↔ b.find? name = none ∧ name ∈ names ∨
      ∃ image, b.find? name = some image ∧ image.mentions names = true := by
  rw [Exposes]
  cases b.find? name <;> simp

end Bindings

namespace Ty

/-- A type mentions a name after a substitution if what replaces one of its parameters does. -/
theorem mentions_subst_iff (b : Bindings) (names : List String) (t : Ty) :
    (t.subst b).mentions names = true ↔
      ∃ name, t.mentions [name] = true ∧ b.Exposes names name := by
  induction t using induction_leaves with
  | leaf qualifier own =>
    have hown : ∀ name, (named qualifier own []).mentions [name] = true ↔ own = name := by
      simp [mentions, mentionsList]
    simp only [subst_param, hown, exists_eq_left', Bindings.Exposes]
    cases b.find? own with
    | none => simp [mentions, mentionsList]
    | some image => exact Iff.rfl
  | step t hleaf ih =>
    rw [subst_of_leaf?_eq_none hleaf]
    simp only [mentions_eq _ t, mentions_eq _ (t.mapChildren _), leaf?_mapChildren, hleaf,
      children_mapChildren, Option.any_none, Bool.false_or, List.any_map, List.any_eq_true,
      Function.comp_apply]
    constructor
    · rintro ⟨part, hpart, h⟩
      obtain ⟨name, hname, hexposes⟩ := (ih part hpart).1 h
      exact ⟨name, ⟨part, hpart, hname⟩, hexposes⟩
    · rintro ⟨name, ⟨part, hpart, hname⟩, hexposes⟩
      exact ⟨part, hpart, (ih part hpart).2 ⟨name, hname, hexposes⟩⟩

/-- Substitution removes exactly the bound parameters: what it makes of a type mentions one of the
names if the type mentions one that is not bound, or a bound name whose type mentions one of them.
So none is left where all of them are bound and no type that is put in mentions one. -/
theorem mentions_subst (b : Bindings) (names : List String) (t : Ty) :
    ((t.subst b).mentions names = true ↔
        (∃ name ∈ names, b.find? name = none ∧ t.mentions [name] = true) ∨
          ∃ name image, b.find? name = some image ∧ t.mentions [name] = true ∧
            image.mentions names = true) ∧
      ((∀ name ∈ names, (b.find? name).isSome = true) →
        (∀ name image, t.mentions [name] = true → b.find? name = some image →
          image.mentions names = false) → (t.subst b).mentions names = false) := by
  refine ⟨?_, fun hbound himages => Bool.eq_false_iff.2 fun h => ?_⟩
  · rw [mentions_subst_iff]
    constructor
    · rintro ⟨name, hmentions, hexposes⟩
      obtain ⟨hfree, hname⟩ | ⟨image, himage, hexposed⟩ := Bindings.exposes_iff.1 hexposes
      · exact .inl ⟨name, hname, hfree, hmentions⟩
      · exact .inr ⟨name, image, himage, hmentions, hexposed⟩
    · rintro (⟨name, hname, hfree, hmentions⟩ | ⟨name, image, himage, hmentions, hexposed⟩)
      · exact ⟨name, hmentions, Bindings.exposes_iff.2 (.inl ⟨hfree, hname⟩)⟩
      · exact ⟨name, hmentions, Bindings.exposes_iff.2 (.inr ⟨image, himage, hexposed⟩)⟩
  · obtain ⟨name, hmentions, hexposes⟩ := (mentions_subst_iff b names t).1 h
    obtain ⟨hfree, hname⟩ | ⟨image, himage, hexposed⟩ := Bindings.exposes_iff.1 hexposes
    · exact absurd (hbound name hname) (by rw [hfree]; exact Bool.false_ne_true)
    · exact Bool.false_ne_true ((himages name image hmentions himage).symm.trans hexposed)

/-- A name that is bound to a built-in type comes back where another parameter is bound to it. -/
theorem mentions_subst_of_reintroduced :
    let b := (Bindings.empty.insert "A" (.prim .i32)).insert "X" (.param "A")
    (∀ name ∈ ["A"], ∃ image, b.find? name = some image ∧ image.mentions ["A"] = false) ∧
      ((param "X").subst b).mentions ["A"] = true :=
  ⟨List.forall_mem_singleton.2 ⟨.prim .i32, rfl, rfl⟩, rfl⟩

end Ty

end Monomorph
