import Monomorph.Ty.Bindings

/-!
# The children of types

The functions on types do the same to all children of a type, and something else only to a nominal
leaf, that is, to a nominal type without arguments. So a fact about them is proved for nominal
leaves, and for other types from the children.
-/

namespace Monomorph.Ty

open List

/-- The types that a type is immediately made of. -/
def children : Ty → List Ty
  | .prim _ | .classRef _ => []
  | .named _ _ args | .dyn _ args | .tuple args => args
  | .ref _ inner | .ptr inner | .slice inner | .array inner _ => [inner]
  | .func params ret | .closure params ret => params ++ [ret]

/-- A type with its children mapped. -/
def mapChildren (f : Ty → Ty) : Ty → Ty
  | .prim kind => .prim kind
  | .named qualifier name args => .named qualifier name (args.map f)
  | .ref mutable inner => .ref mutable (f inner)
  | .ptr inner => .ptr (f inner)
  | .func params ret => .func (params.map f) (f ret)
  | .closure params ret => .closure (params.map f) (f ret)
  | .tuple elems => .tuple (elems.map f)
  | .array elem length => .array (f elem) length
  | .slice elem => .slice (f elem)
  | .dyn behavior args => .dyn behavior (args.map f)
  | .classRef name => .classRef name

/-- The name of a nominal leaf. -/
def leaf? : Ty → Option String
  | .named _ name args => if args.isEmpty then some name else none
  | _ => none

section

variable {motive : Ty → Prop} (leaf : ∀ qualifier name, motive (.named qualifier name []))
  (step : ∀ t : Ty, t.leaf? = none → (∀ part ∈ t.children, motive part) → motive t)

include leaf step

mutual

/-- What holds of nominal leaves, and of another type if it holds of the children, holds of all
types. -/
theorem induction_leaves : (t : Ty) → motive t
  | .named qualifier name [] => leaf qualifier name
  | .named _ _ (arg :: args) => step _ rfl (induction_list (arg :: args))
  | .prim _ | .classRef _ => step _ rfl (forall_mem_nil _)
  | .dyn _ args | .tuple args => step _ rfl (induction_list args)
  | .ref _ t | .ptr t | .slice t | .array t _ =>
      step _ rfl (forall_mem_singleton.2 (induction_leaves t))
  | .func params ret | .closure params ret =>
      step _ rfl (forall_mem_append.2 ⟨induction_list params,
        forall_mem_singleton.2 (induction_leaves ret)⟩)

theorem induction_list : (ts : List Ty) → ∀ t ∈ ts, motive t
  | [] => forall_mem_nil _
  | t :: ts => forall_mem_cons.2 ⟨induction_leaves t, induction_list ts⟩

end

end

variable {f g : Ty → Ty} {t : Ty}

theorem children_mapChildren (f : Ty → Ty) (t : Ty) :
    (t.mapChildren f).children = t.children.map f := by
  cases t <;> simp [mapChildren, children]

theorem leaf?_mapChildren (f : Ty → Ty) (t : Ty) : (t.mapChildren f).leaf? = t.leaf? := by
  cases t <;> simp [mapChildren, leaf?]

theorem mapChildren_mapChildren (f g : Ty → Ty) (t : Ty) :
    (t.mapChildren f).mapChildren g = t.mapChildren fun part => g (f part) := by
  cases t <;> simp [mapChildren]

theorem mapChildren_congr (h : ∀ part ∈ t.children, f part = g part) :
    t.mapChildren f = t.mapChildren g := by
  cases t with
  | prim | classRef => rfl
  | named _ _ args | dyn _ args | tuple args =>
    simp only [mapChildren, map_congr_left (l := args) h]
  | ref | ptr | slice | array => simp only [mapChildren, h _ (mem_singleton_self _)]
  | func | closure =>
    obtain ⟨hparams, hret⟩ := forall_mem_append.1 h
    simp only [mapChildren, map_congr_left hparams, hret _ (mem_singleton_self _)]

/-! ### Parameters -/

theorem mentions_eq (names : List String) (t : Ty) :
    t.mentions names = (t.leaf?.any names.contains || t.children.any (mentions names)) := by
  cases t with
  | named qualifier name args =>
    cases args <;> simp [mentions, mentionsList_eq_any, leaf?, children]
  | _ => simp [mentions, mentionsList_eq_any, leaf?, children]

/-- A type mentions what its children mention. -/
theorem mentions_of_mem_children {names : List String} {part : Ty} (hpart : part ∈ t.children)
    (h : part.mentions names = true) : t.mentions names = true := by
  rw [mentions_eq, any_eq_true.2 ⟨part, hpart, h⟩, Bool.or_true]

theorem subst_param (b : Bindings) (qualifier name : String) :
    (named qualifier name []).subst b = (b.find? name).getD (.named qualifier name []) := by
  unfold subst
  cases b.find? name <;> rfl

/-- Outside of nominal leaves, substitution replaces the children. -/
theorem subst_of_leaf?_eq_none (h : t.leaf? = none) (b : Bindings) :
    t.subst b = t.mapChildren (subst b) := by
  cases t with
  | named qualifier name args =>
    cases args with
    | nil => cases h
    | cons arg args => simp only [subst, mapChildren, substList_eq_map]
  | _ => simp only [subst, mapChildren, substList_eq_map]

end Monomorph.Ty
