import Mathlib.Data.Finset.Card
import Monomorph.Proofs.Text.Firsts
import Monomorph.Source.Table

/-!
# What a table holds

Of the items that were inserted under one name, a table holds the last, in the place that the first
of them took. Its index leads to it.
-/

namespace Monomorph.Table

open List

variable {α : Type} [HasName α]

/-- Names in the order of the places. -/
def names (t : Table α) : List String := t.items.map HasName.nameOf

/-- A new name comes last, and any other stays where it is. -/
theorem names_insert (t : Table α) (item : α) :
    (t.insert item).names =
      if HasName.nameOf item ∈ t.names then t.names else t.names ++ [HasName.nameOf item] := by
  rw [insert]
  split
  next place h =>
    obtain ⟨other, hother, hname⟩ := Option.map_eq_some_iff.1 (lookup_eq_some_iff.1 h)
    have hmem : HasName.nameOf item ∈ t.names := mem_map.2 ⟨other, mem_of_getElem? hother, hname⟩
    rw [if_pos hmem]
    refine ext_getElem? fun place => ?_
    rw [names, names, getElem?_map, getElem?_map, name_set h]
  next h =>
    have hmem : HasName.nameOf item ∉ t.names := fun hmem => by
      obtain ⟨other, hother, hname⟩ := mem_map.1 hmem
      obtain ⟨place, hplace⟩ := mem_iff_getElem?.1 hother
      cases h.symm.trans (hname ▸ t.found place other hplace)
    rw [if_neg hmem, names, map_append]
    rfl

theorem names_ofList (inserted : List α) :
    (ofList inserted).names = firsts id (inserted.map HasName.nameOf) := by
  induction inserted using reverseRecOn with
  | nil => rfl
  | append_singleton inserted item ih =>
    rw [ofList, foldl_concat, ← ofList, names_insert, ih, map_append, map_singleton,
      firsts_concat, map_id]
    have hiff := mem_map_firsts id (HasName.nameOf item) (inserted.map HasName.nameOf)
    rw [map_id, map_id] at hiff
    simp only [hiff]
    rfl

theorem get?_ofList (inserted : List α) (name : String) :
    (ofList inserted).get? name =
      inserted.reverse.find? fun item => HasName.nameOf item = name := by
  induction inserted using reverseRecOn with
  | nil => rfl
  | append_singleton inserted item ih =>
    rw [ofList, foldl_concat, ← ofList, get?_insert, ih, reverse_concat, find?_cons]
    by_cases h : HasName.nameOf item = name <;> simp [h]

/-- The items are those found under the names. -/
theorem map_some_items (t : Table α) : t.items.map some = t.names.map t.get? := by
  rw [names, map_map]
  exact map_congr_left fun item hitem => (get?_eq_some_iff.2 ⟨hitem, rfl⟩).symm

/-- A table that was filled item by item holds the last item of each name and no other, in the order
in which the names first came; and every entry of its index points at the item of its name. -/
theorem ofList_keepsLast (inserted : List α) :
    (∀ name, (ofList inserted).get? name =
      inserted.reverse.find? fun item => HasName.nameOf item = name) ∧
    (ofList inserted).items.map some = (firsts id (inserted.map HasName.nameOf)).map
      (fun name => inserted.reverse.find? fun item => HasName.nameOf item = name) ∧
    (ofList inserted).size = (inserted.map HasName.nameOf).toFinset.card ∧
    ∀ entry ∈ (ofList inserted).index,
      ((ofList inserted).items[entry.2]?).map HasName.nameOf = some entry.1 := by
  have hnames := names_ofList inserted
  refine ⟨get?_ofList inserted, ?_, ?_, (ofList inserted).points⟩
  · rw [map_some_items, hnames]
    exact map_congr_left fun name _ => get?_ofList inserted name
  · have hnodup := nodup_map_firsts id (inserted.map HasName.nameOf)
    have hmem (name : String) := mem_map_firsts id name (inserted.map HasName.nameOf)
    simp only [map_id] at hnodup hmem
    rw [size, ← length_map, ← names, hnames, ← toFinset_card_of_nodup hnodup]
    congr 1
    ext name
    rw [mem_toFinset, mem_toFinset, hmem]

end Monomorph.Table
