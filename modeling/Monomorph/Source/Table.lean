import Monomorph.Source.Item

/-!
# Tables of named items

A table holds at most one item for each name, in the order in which the names first came. A
later item takes the place of an earlier one of its name. An index gives the place of each name.

## Main results

* `Table.get?_eq_some_iff`, `Table.get?_insert`.
-/

namespace Monomorph

variable {α : Type} [HasName α]

/-- Named items in the order of their names' first appearance. -/
structure Table (α : Type) [HasName α] where
  items : List α
  /-- The places of the names. -/
  index : List (String × Nat)
  /-- Every entry of the index points at an item of its name. -/
  points : ∀ entry ∈ index, (items[entry.2]?).map HasName.nameOf = some entry.1
  /-- Every item is found at its place. -/
  found : ∀ place item, items[place]? = some item → index.lookup (HasName.nameOf item) = some place

namespace Table

/-- No items. -/
def empty : Table α := ⟨[], [], List.forall_mem_nil _, fun _ _ h => by cases h⟩

instance : Inhabited (Table α) := ⟨empty⟩

/-- The item called `name`. -/
def get? (t : Table α) (name : String) : Option α :=
  (t.index.lookup name).bind fun place => t.items[place]?

/-- Whether there is an item called `name`. -/
def contains (t : Table α) (name : String) : Bool := (t.get? name).isSome

/-- The number of items. -/
def size (t : Table α) : Nat := t.items.length

/-- Whether there is no item. -/
def isEmpty (t : Table α) : Bool := t.items.isEmpty

section

variable {t : Table α} {item : α} {place : Nat} {name : String}

theorem lookup_eq_some_iff :
    t.index.lookup name = some place ↔ (t.items[place]?).map HasName.nameOf = some name := by
  constructor
  · intro h
    obtain ⟨before, after, heq, -⟩ := List.lookup_eq_some_iff.1 h
    exact t.points (name, place) (by simp [heq])
  · intro h
    obtain ⟨item, hitem, rfl⟩ := Option.map_eq_some_iff.1 h
    exact t.found place item hitem

theorem get?_eq_some_iff :
    t.get? name = some item ↔ item ∈ t.items ∧ HasName.nameOf item = name := by
  simp only [get?, Option.bind_eq_some_iff, lookup_eq_some_iff, List.mem_iff_getElem?]
  grind

/-- Putting an item in the place of its name keeps the name of every place. -/
theorem name_set (h : t.index.lookup (HasName.nameOf item) = some place) (other : Nat) :
    ((t.items.set place item)[other]?).map HasName.nameOf =
      (t.items[other]?).map HasName.nameOf := by
  obtain ⟨known, hknown, hname⟩ := Option.map_eq_some_iff.1 (lookup_eq_some_iff.1 h)
  rw [List.getElem?_set']
  split
  next heq => simp [← heq, hknown, hname]
  next => rfl

theorem points_set (h : t.index.lookup (HasName.nameOf item) = some place) :
    ∀ entry ∈ t.index,
      ((t.items.set place item)[entry.2]?).map HasName.nameOf = some entry.1 :=
  fun entry hentry => (name_set h entry.2).trans (t.points entry hentry)

theorem found_set (h : t.index.lookup (HasName.nameOf item) = some place) (other : Nat) (x : α)
    (hx : (t.items.set place item)[other]? = some x) :
    t.index.lookup (HasName.nameOf x) = some other := by
  rw [lookup_eq_some_iff, ← name_set h, hx]
  rfl

theorem points_concat : ∀ entry ∈ (HasName.nameOf item, t.items.length) :: t.index,
    ((t.items ++ [item])[entry.2]?).map HasName.nameOf = some entry.1 := by
  have hold := t.points
  grind

theorem found_concat (h : t.index.lookup (HasName.nameOf item) = none) (other : Nat) (x : α)
    (hx : (t.items ++ [item])[other]? = some x) :
    ((HasName.nameOf item, t.items.length) :: t.index).lookup (HasName.nameOf x) = some other := by
  rw [List.getElem?_append] at hx
  split at hx
  · have hold := t.found other x hx
    have hne : HasName.nameOf x ≠ HasName.nameOf item := by grind
    rw [List.lookup_cons, beq_false_of_ne hne]
    exact hold
  · grind

end

/-- Put an item in the place of the item of its name, or at the end. -/
def insert (t : Table α) (item : α) : Table α :=
  match h : t.index.lookup (HasName.nameOf item) with
  | some place => ⟨t.items.set place item, t.index, points_set h, found_set h⟩
  | none =>
      ⟨t.items ++ [item], (HasName.nameOf item, t.items.length) :: t.index, points_concat,
        found_concat h⟩

/-- The table of a list of items, inserted in order. -/
def ofList (items : List α) : Table α := items.foldl insert empty

theorem get?_insert (t : Table α) (item : α) (name : String) :
    (t.insert item).get? name =
      if HasName.nameOf item = name then some item else t.get? name := by
  rw [insert]
  split
  next place h =>
    obtain ⟨known, hknown, -⟩ := Option.map_eq_some_iff.1 (lookup_eq_some_iff.1 h)
    simp only [get?]
    split
    next heq =>
      rw [← heq, h, Option.bind_some, List.getElem?_set_self', hknown]
      rfl
    next hne =>
      refine Option.bind_congr fun other hother => List.getElem?_set_ne ?_
      rintro rfl
      exact hne (Option.some.inj ((lookup_eq_some_iff.1 h).symm.trans
        (lookup_eq_some_iff.1 hother)))
  next h =>
    have hknown (other : Nat) : t.index.lookup name = some other → _ := lookup_eq_some_iff.1
    simp only [get?, List.lookup_cons]
    cases hname : t.index.lookup name <;> grind

end Table

end Monomorph
