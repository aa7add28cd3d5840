import Mathlib.Data.List.Forall2
import Monomorph.Proofs.Ty.Children

/-!
# Types without qualifiers

Erasing the module qualifiers of a type picks one type from each class of types that agree: two
types agree exactly if they are equal once their qualifiers are erased. Agreement is therefore an
equivalence, and every type agrees with its erasure.
-/

namespace Monomorph.Ty

open List

mutual

/-- A type with the qualifier of every nominal type erased. -/
def unqualified : Ty → Ty
  | .prim kind => .prim kind
  | .named _ name args => .named "" name (unqualifiedList args)
  | .ref mutable inner => .ref mutable inner.unqualified
  | .ptr inner => .ptr inner.unqualified
  | .func params ret => .func (unqualifiedList params) ret.unqualified
  | .closure params ret => .closure (unqualifiedList params) ret.unqualified
  | .tuple elems => .tuple (unqualifiedList elems)
  | .array elem length => .array elem.unqualified length
  | .slice elem => .slice elem.unqualified
  | .dyn behavior args => .dyn behavior (unqualifiedList args)
  | .classRef name => .classRef name

/-- Several types with their qualifiers erased. -/
def unqualifiedList : List Ty → List Ty
  | [] => []
  | t :: ts => t.unqualified :: unqualifiedList ts

end

theorem unqualifiedList_eq_map (ts : List Ty) : unqualifiedList ts = ts.map unqualified := by
  induction ts with
  | nil => rfl
  | cons t ts ih => rw [unqualifiedList, ih, map_cons]

@[simp] theorem length_unqualifiedList (ts : List Ty) :
    (unqualifiedList ts).length = ts.length := by
  rw [unqualifiedList_eq_map, length_map]

/-- A type without its own qualifier. -/
def bare : Ty → Ty
  | .named _ name args => .named "" name args
  | t => t

theorem mapChildren_bare (f : Ty → Ty) (t : Ty) :
    t.bare.mapChildren f = (t.mapChildren f).bare := by
  cases t <;> rfl

theorem unqualified_eq (t : Ty) : t.unqualified = (t.mapChildren unqualified).bare := by
  cases t <;> simp only [unqualified, mapChildren, bare, unqualifiedList_eq_map]

theorem leaf?_unqualified (t : Ty) : t.unqualified.leaf? = t.leaf? := by
  rw [unqualified_eq, ← leaf?_mapChildren unqualified t]
  cases t.mapChildren unqualified <;> rfl

theorem children_unqualified (t : Ty) : t.unqualified.children = t.children.map unqualified := by
  rw [unqualified_eq, ← children_mapChildren]
  cases t.mapChildren unqualified <;> rfl

theorem unqualified_unqualified (t : Ty) : t.unqualified.unqualified = t.unqualified := by
  induction t using induction_leaves with
  | leaf => rfl
  | step t _ ih =>
    rw [unqualified_eq t, unqualified_eq, mapChildren_bare, mapChildren_mapChildren,
      mapChildren_congr ih]
    cases t <;> rfl

theorem unqualifiedList_unqualifiedList (ts : List Ty) :
    unqualifiedList (unqualifiedList ts) = unqualifiedList ts := by
  simp only [unqualifiedList_eq_map, map_map, Function.comp_def, unqualified_unqualified]

/-! ### Types that a definition can declare -/

/-- Declared types are nominal types and references to classes. -/
theorem eq_of_declared? {t : Ty} {name : String} {args : List Ty}
    (h : t.declared? = some (name, args)) :
    (∃ qualifier, t = .named qualifier name args) ∨ t = .classRef name ∧ args = [] := by
  cases t with
  | named qualifier =>
    cases h
    exact .inl ⟨qualifier, rfl⟩
  | classRef =>
    cases h
    exact .inr ⟨rfl, rfl⟩
  | _ => cases h

theorem declared?_unqualified (t : Ty) :
    t.unqualified.declared? = t.declared?.map (Prod.map id unqualifiedList) := by
  cases t <;> rfl

/-! ### Agreement is equality of erasures -/

mutual

/-- Two types agree exactly if they are equal once their qualifiers are erased. -/
theorem agrees_iff : (a b : Ty) → (a.agrees b = true ↔ a.unqualified = b.unqualified)
  | .prim _, b | .classRef _, b => by cases b <;> simp [agrees, unqualified]
  | .named _ _ as, b | .dyn _ as, b | .tuple as, b => by
      cases b <;> simp [agrees, unqualified, agreesList_iff as]
  | .ref _ a, b | .ptr a, b | .slice a, b | .array a _, b => by
      cases b <;> simp [agrees, unqualified, agrees_iff a, and_comm]
  | .func as a, b | .closure as a, b => by
      cases b <;> simp [agrees, unqualified, agreesList_iff as, agrees_iff a]

theorem agreesList_iff : (as bs : List Ty) →
    (agreesList as bs = true ↔ unqualifiedList as = unqualifiedList bs)
  | [], bs => by cases bs <;> simp [agreesList, unqualifiedList]
  | a :: as, bs => by
      cases bs <;> simp [agreesList, unqualifiedList, agrees_iff a, agreesList_iff as]

end

/-- A type agrees with its erasure. -/
theorem unqualified_agrees (t : Ty) : t.unqualified.agrees t = true :=
  (agrees_iff _ _).2 (unqualified_unqualified t)

/-- Lists of types have equal erasures exactly if they have one length and agree pairwise. -/
theorem unqualifiedList_eq_iff (as bs : List Ty) : unqualifiedList as = unqualifiedList bs ↔
      List.Forall₂ (fun a b => a.agrees b = true) as bs := by
  simp only [unqualifiedList_eq_map, agrees_iff]
  rw [← forall₂_eq_eq_eq, forall₂_map_left_iff, forall₂_map_right_iff]

end Monomorph.Ty
