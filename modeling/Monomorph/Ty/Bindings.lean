import Monomorph.Ty.Basic

/-!
# Bindings of generic parameters

A binding gives types to parameter names, each name at most once. Substitution replaces the
bound parameters of a type and leaves every other name as it is.

## Main results

* `Bindings.find?_insert`, `Bindings.find?_insertNew`.
-/

namespace Monomorph

/-- Types by parameter name. -/
structure Bindings where
  /-- The entries; of two with one name the first counts. -/
  entries : List (String × Ty)
  deriving Inhabited, DecidableEq

namespace Bindings

/-- No name is bound. -/
def empty : Bindings := ⟨[]⟩

/-- The type bound to `name`. -/
def find? (b : Bindings) (name : String) : Option Ty :=
  b.entries.lookup name

/-- Bind `name`, replacing an earlier binding of it. -/
def insert (b : Bindings) (name : String) (t : Ty) : Bindings :=
  ⟨(name, t) :: b.entries.filter fun entry => entry.1 != name⟩

/-- Bind `name` unless it is bound already. -/
def insertNew (b : Bindings) (name : String) (t : Ty) : Bindings :=
  if (b.find? name).isSome then b else b.insert name t

/-- Add the entries of `later`, which replace those of `b`. -/
def extend (b later : Bindings) : Bindings :=
  later.entries.foldr (fun entry acc => acc.insert entry.1 entry.2) b

/-- Each parameter with its argument; a repeated parameter keeps its last one. -/
def ofArgs (params : List String) (args : List Ty) : Bindings :=
  (params.zip args).foldl (fun acc entry => acc.insert entry.1 entry.2) empty

@[simp] theorem find?_empty (name : String) : empty.find? name = none := rfl

private theorem lookup_filter_ne (entries : List (String × Ty)) {name other : String}
    (h : other ≠ name) :
    (entries.filter fun entry => entry.1 != name).lookup other = entries.lookup other := by
  induction entries with
  | nil => rfl
  | cons entry rest ih =>
      obtain ⟨key, t⟩ := entry
      by_cases hk : key = name
      · simp [hk, ih, List.lookup_cons, beq_false_of_ne h]
      · by_cases ho : other = key
        · simp [hk, ho]
        · simp [hk, ih, List.lookup_cons, beq_false_of_ne ho]

theorem find?_insert (b : Bindings) (name other : String) (t : Ty) :
    (b.insert name t).find? other = if other = name then some t else b.find? other := by
  by_cases h : other = name
  · simp [insert, find?, h]
  · simp [insert, find?, h, List.lookup_cons, beq_false_of_ne h, lookup_filter_ne b.entries h]

theorem find?_insertNew (b : Bindings) (name other : String) (t : Ty) :
    (b.insertNew name t).find? other =
      if other = name then (b.find? name).or (some t) else b.find? other := by
  unfold insertNew
  by_cases h : other = name
  · cases hb : b.find? name <;> simp [h, hb, find?_insert]
  · cases hb : b.find? name <;> simp [h, find?_insert]

end Bindings

namespace Ty

mutual

/-- The type with every bound parameter replaced. -/
def subst (b : Bindings) : Ty → Ty
  | .prim kind => .prim kind
  | .named qualifier name args =>
      match args, b.find? name with
      | [], some t => t
      | _, _ => .named qualifier name (substList b args)
  | .ref mutable inner => .ref mutable (inner.subst b)
  | .ptr inner => .ptr (inner.subst b)
  | .func params ret => .func (substList b params) (ret.subst b)
  | .closure params ret => .closure (substList b params) (ret.subst b)
  | .tuple elems => .tuple (substList b elems)
  | .array elem length => .array (elem.subst b) length
  | .slice elem => .slice (elem.subst b)
  | .dyn behavior args => .dyn behavior (substList b args)
  | .classRef name => .classRef name

/-- A list of types with every bound parameter replaced. -/
def substList (b : Bindings) : List Ty → List Ty
  | [] => []
  | t :: ts => t.subst b :: substList b ts

end

theorem substList_eq_map (b : Bindings) (ts : List Ty) : substList b ts = ts.map (subst b) := by
  induction ts with
  | nil => rfl
  | cons t ts ih => simp [substList, ih]

@[simp] theorem length_substList (b : Bindings) (ts : List Ty) :
    (substList b ts).length = ts.length := by
  simp [substList_eq_map]

end Ty

end Monomorph
