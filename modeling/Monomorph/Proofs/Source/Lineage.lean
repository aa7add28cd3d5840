import Mathlib.Data.Finset.Card
import Mathlib.Data.List.Nodup
import Monomorph.Proofs.Source.Lookup

/-!
# The ancestors of a class

A class has a lineage if following bases from it ends at a class without a base. Every base on the
way is then known, and no class comes twice, so that the walk along the bases of a class neither
stops early nor runs out of its bound.
-/

namespace Monomorph.Program

open List

/-! ### Walks along bases -/

/-- The classes met on the way along bases, nearest first: the way ends where no base is known, and
no name comes twice. -/
inductive Ancestry (p : Program) : Option ClassDef → List ClassDef → Prop
  | ended : Ancestry p none []
  | derived {d ancestors} (hnew : ∀ c ∈ ancestors, c.name ≠ d.name)
      (hrest : Ancestry p (d.base.bind p.class?) ancestors) : Ancestry p (some d) (d :: ancestors)

/-- The walk along bases, without a bound: it ends where there is no class, or one whose name is
among those seen, and takes the class and goes on with its base otherwise. -/
inductive Walk (p : Program) : List String → Option ClassDef → List ClassDef → Prop
  | ended {seen} : Walk p seen none []
  | met {seen d} (hmet : d.name ∈ seen) : Walk p seen (some d) []
  | taken {seen d ds} (hnew : d.name ∉ seen)
      (hrest : Walk p (d.name :: seen) (d.base.bind p.class?) ds) : Walk p seen (some d) (d :: ds)

/-- The class with which a walk would go on after `ds`. -/
def beyond (p : Program) (current : Option ClassDef) (ds : List ClassDef) : Option ClassDef :=
  ds.getLast?.elim current fun last => last.base.bind p.class?

/-- The chain of the class called `name` ends at a class that has no base or an unknown one, and
not at a name that comes twice. -/
def ChainEnds (p : Program) (name : String) : Prop :=
  ∀ last ∈ (p.classChain name).getLast?, last.base.bind p.class? = none

instance (p : Program) (name : String) : Decidable (p.ChainEnds name) :=
  inferInstanceAs (Decidable (∀ last ∈ (p.classChain name).getLast?, _ = none))

section

variable {p : Program} {name : String} {current : Option ClassDef} {limit k : Nat}
  {seen : List String} {d c : ClassDef} {ds : List ClassDef}

theorem length_chainFrom_le : (p.chainFrom limit seen current).length ≤ limit := by
  induction limit generalizing seen current with
  | zero => exact Nat.le_refl 0
  | succ limit ih =>
    cases current with
    | none => exact Nat.zero_le _
    | some d =>
      rw [chainFrom]
      split
      · exact Nat.zero_le _
      · exact Nat.succ_le_succ ih

/-- The bound is not what ends a walk: each class that is taken has one of the names that were not
seen before. -/
theorem walk_chainFrom (hcurrent : ∀ c ∈ current, c.name ∈ p.names Module.classes)
    (hlimit : ((p.names Module.classes).toFinset \ seen.toFinset).card ≤ limit) :
    p.Walk seen current (p.chainFrom limit seen current) := by
  induction limit generalizing seen current with
  | zero =>
    cases current with
    | none => exact .ended
    | some d =>
      have hseen := Finset.card_eq_zero.1 (Nat.le_zero.1 hlimit)
      rw [Finset.sdiff_eq_empty_iff_subset] at hseen
      exact .met (mem_toFinset.1 (hseen (mem_toFinset.2 (hcurrent d rfl))))
  | succ limit ih =>
    cases current with
    | none => exact .ended
    | some d =>
      rw [chainFrom]
      split
      next hmet => exact .met (contains_iff_mem.1 hmet)
      next hnew =>
        have hnew : d.name ∉ seen := fun hmem => hnew (contains_iff_mem.2 hmem)
        refine .taken hnew (ih (fun c hc => ?_) ?_)
        · obtain ⟨base, -, hc⟩ := Option.bind_eq_some_iff.1 hc
          exact mem_names_of_lookup hc
        · have hmem : d.name ∈ (p.names Module.classes).toFinset \ seen.toFinset := by
            simpa [hnew] using hcurrent d rfl
          rw [toFinset_cons, Finset.sdiff_insert, Finset.card_erase_of_mem hmem]
          omega

theorem walk_classChain (p : Program) (name : String) :
    p.Walk [] (p.class? name) (p.classChain name) := by
  refine walk_chainFrom (fun c hc => mem_names_of_lookup hc) ?_
  have hcount : (p.names Module.classes).length = p.classCount := by
    simp only [names, classCount, length_flatMap, length_map]
  exact (Finset.card_le_card Finset.sdiff_subset).trans (hcount ▸ toFinset_card_le _)

@[simp] theorem beyond_cons :
    p.beyond current (d :: ds) = p.beyond (d.base.bind p.class?) ds := by
  rw [beyond, beyond, getLast?_cons]
  cases ds.getLast? <;> rfl

theorem Walk.head?_eq (h : p.Walk [] current ds) : ds.head? = current := by
  cases h with
  | ended | taken => rfl
  | met hmet => cases hmet

namespace Walk

variable (h : p.Walk seen current ds)

include h

theorem unique {ds' : List ClassDef} (h' : p.Walk seen current ds') : ds = ds' := by
  induction h generalizing ds' with
  | ended =>
    cases h'
    rfl
  | met hmet =>
    cases h' with
    | met => rfl
    | taken hnew => exact absurd hmet hnew
  | taken hnew _ ih =>
    cases h' with
    | met hmet => exact absurd hmet hnew
    | taken _ hrest' => rw [ih hrest']

theorem eq_of_mem_head? (hd : d ∈ ds.head?) : current = some d := by
  cases h with
  | ended | met => cases hd
  | taken => exact hd

/-- No name comes twice, and none that was seen. -/
theorem fresh : (ds.map ClassDef.name).Nodup ∧ ∀ d ∈ ds, d.name ∉ seen := by
  induction h with
  | ended | met => exact ⟨nodup_nil, forall_mem_nil _⟩
  | taken hnew _ ih =>
    refine ⟨nodup_cons.2 ⟨fun hmem => ?_, ih.1⟩, forall_mem_cons.2 ⟨hnew, fun c hc hmem => ?_⟩⟩
    · obtain ⟨c, hc, heq⟩ := mem_map.1 hmem
      exact ih.2 c hc (heq ▸ mem_cons_self)
    · exact ih.2 c hc (mem_cons_of_mem _ hmem)

/-- Each class is followed by what its base stands for. -/
theorem linked : ds.IsChain fun d c => d.base.bind p.class? = some c := by
  induction h with
  | ended | met => exact .nil
  | taken _ hrest ih =>
    exact isChain_cons.2 ⟨fun c hc => hrest.eq_of_mem_head? hc, ih⟩

/-- Where a walk stops, there is no class to go on with, or one whose name was seen. -/
theorem stops (hc : c ∈ p.beyond current ds) : c.name ∈ seen ∨ c.name ∈ ds.map ClassDef.name := by
  induction h with
  | ended => cases hc
  | met hmet =>
    cases hc
    exact .inl hmet
  | taken _ _ ih =>
    rw [beyond_cons] at hc
    obtain hmem | hmem := ih hc
    · obtain heq | hmem := mem_cons.1 hmem
      · exact .inr (heq ▸ mem_cons_self)
      · exact .inl hmem
    · exact .inr (mem_cons_of_mem _ hmem)

/-- A walk after which there is no class has met all there is on the way. -/
theorem ancestry (hends : p.beyond current ds = none) : p.Ancestry current ds := by
  induction h with
  | ended => exact .ended
  | met => cases hends
  | taken _ hrest ih =>
    rw [beyond_cons] at hends
    exact .derived (fun c hc heq => hrest.fresh.2 c hc (heq ▸ mem_cons_self)) (ih hends)

end Walk

/-- All there is on a way is taken if no name of it was seen. -/
theorem Ancestry.walk (h : p.Ancestry current ds) (hseen : ∀ d ∈ ds, d.name ∉ seen) :
    p.Walk seen current ds := by
  induction h generalizing seen with
  | ended => exact .ended
  | derived hnew _ ih =>
    obtain ⟨hown, hrestSeen⟩ := forall_mem_cons.1 hseen
    refine .taken hown (ih fun d hd hmem => ?_)
    obtain heq | hmem := mem_cons.1 hmem
    · exact hnew d hd heq
    · exact hrestSeen d hd hmem

theorem Ancestry.classChain_eq (h : p.Ancestry (p.class? name) ds) : p.classChain name = ds :=
  (p.walk_classChain name).unique (h.walk fun _ _ => not_mem_nil)

/-- The rest of the way is the way from any class on it. -/
theorem Ancestry.drop (h : p.Ancestry current ds) (hc : ds[k]? = some c) :
    p.Ancestry (some c) (ds.drop k) := by
  induction h generalizing k with
  | ended => cases hc
  | derived hnew hrest ih =>
    cases k with
    | zero =>
      cases hc
      exact .derived hnew hrest
    | succ k => exact ih hc

/-- Following bases comes to an end from every name, and with the chain of that name only. The chain
starts with the class of the name, each class in it is followed by what its base stands for, and no
two have one name; it stops where there is no base, an unknown one, or one whose name has come. -/
theorem classChain_wellFounded (p : Program) (name : String) :
    (∀ ds, p.Walk [] (p.class? name) ds ↔ ds = p.classChain name) ∧
    (p.classChain name).head? = p.class? name ∧
    ((p.classChain name).map ClassDef.name).Nodup ∧
    (p.classChain name).IsChain (fun d c => d.base.bind p.class? = some c) ∧
    ∀ last ∈ (p.classChain name).getLast?,
      last.base = none ∨ (∃ base ∈ last.base, p.class? base = none) ∨
        ∃ base ∈ last.base, ∃ c ∈ p.class? base,
          c.name ∈ (p.classChain name).map ClassDef.name := by
  have hwalk := p.walk_classChain name
  refine ⟨fun ds => ⟨fun h => h.unique hwalk, fun heq => heq ▸ hwalk⟩, hwalk.head?_eq,
    hwalk.fresh.1, hwalk.linked, fun last hlast => ?_⟩
  cases hbase : last.base with
  | none => exact .inl rfl
  | some base =>
    cases hc : p.class? base with
    | none => exact .inr (.inl ⟨base, rfl, hc⟩)
    | some c =>
      have hbeyond : c ∈ p.beyond (p.class? name) (p.classChain name) := by
        rw [beyond, Option.mem_def.1 hlast, Option.elim_some, hbase]
        exact hc
      exact .inr (.inr ⟨base, rfl, c, hc, (hwalk.stops hbeyond).resolve_left not_mem_nil⟩)

theorem ancestry_classChain (hends : p.ChainEnds name) :
    p.Ancestry (p.class? name) (p.classChain name) := by
  refine (p.walk_classChain name).ancestry ?_
  cases hlast : (p.classChain name).getLast? with
  | some last => rw [beyond, hlast, Option.elim_some, hends last hlast]
  | none =>
    rw [getLast?_eq_none_iff] at hlast
    rw [← (p.walk_classChain name).head?_eq, hlast]
    rfl

/-- Each class of a chain that ends has the rest of it as its own chain. -/
theorem classChain_drop (hnodup : (p.names Module.classes).Nodup)
    (hbare : ∀ name ∈ p.names Module.classes, IsBare name) (hends : p.ChainEnds name)
    (hc : (p.classChain name)[k]? = some c) : p.classChain c.name = (p.classChain name).drop k := by
  obtain ⟨own, hown⟩ := exists_class?_of_mem_classChain (mem_of_getElem? hc)
  have hclass := lookup_name hnodup (hbare _ (mem_names_of_lookup hown)) hown
  have hrest := (ancestry_classChain hends).drop hc
  rw [← hclass] at hrest
  exact hrest.classChain_eq

end

/-! ### Lineages -/

/-- The class called `name` and its ancestors, nearest first, up to one without a base. Bases are
known under bare names. -/
inductive Lineage (p : Program) : String → List ClassDef → Prop
  | root {name d} (h : p.class? name = some d) (hbase : d.base = none) :
      Lineage p name [d]
  | derived {name base d ancestors}
      (h : p.class? name = some d) (hbase : d.base = some base) (hbare : IsBare base)
      (hrest : Lineage p base ancestors) : Lineage p name (d :: ancestors)

namespace Lineage

variable {p : Program} {name : String} {ds ds' : List ClassDef} {d : ClassDef}
  (h : p.Lineage name ds)

include h

theorem unique (h' : p.Lineage name ds') : ds = ds' := by
  induction h generalizing ds' with
  | root h hbase =>
    cases h' with
    | root h' => rw [Option.some.inj (h.symm.trans h')]
    | derived h' hbase' =>
      cases h.symm.trans h'
      cases hbase.symm.trans hbase'
  | derived h hbase _ _ ih =>
    cases h' with
    | root h' hbase' =>
      cases h.symm.trans h'
      cases hbase.symm.trans hbase'
    | derived h' hbase' _ hrest' =>
      cases h.symm.trans h'
      cases hbase.symm.trans hbase'
      rw [ih hrest']

theorem class? : ∃ d, p.class? name = some d := by
  cases h with
  | root h | derived h => exact ⟨_, h⟩

theorem eq_cons (hd : p.class? name = some d) : ∃ ancestors, ds = d :: ancestors := by
  cases h with
  | root h | derived h =>
    cases hd.symm.trans h
    exact ⟨_, rfl⟩

/-- Each class of a lineage has the rest of it as its own. -/
theorem of_mem (hname : IsBare name) (hd : d ∈ ds) : ∃ ds', ds' <:+ ds ∧ p.Lineage d.name ds' := by
  induction h with
  | root h hbase =>
    cases mem_singleton.1 hd
    rw [name_of_class? hname h]
    exact ⟨_, suffix_refl _, .root h hbase⟩
  | derived h hbase hbare hrest ih =>
    obtain rfl | hd := mem_cons.1 hd
    · rw [name_of_class? hname h]
      exact ⟨_, suffix_refl _, .derived h hbase hbare hrest⟩
    · obtain ⟨ds', hsuffix, hds'⟩ := ih hbare hd
      exact ⟨ds', hsuffix.trans (suffix_cons _ _), hds'⟩

/-- No class comes twice: it would have two lineages. -/
theorem nodup (hname : IsBare name) : (ds.map ClassDef.name).Nodup := by
  induction h with
  | root => exact nodup_singleton _
  | derived h hbase hbare hrest ih =>
    refine nodup_cons.2 ⟨fun hmem => ?_, ih hbare⟩
    obtain ⟨other, hother, heq⟩ := mem_map.1 hmem
    obtain ⟨ds', hsuffix, hds'⟩ := hrest.of_mem hbare hother
    rw [heq, name_of_class? hname h] at hds'
    have hwhole := unique hds' (.derived h hbase hbare hrest)
    have hlength := hsuffix.length_le
    rw [hwhole, length_cons] at hlength
    omega

theorem ancestry (hname : IsBare name) : p.Ancestry (p.class? name) ds := by
  induction h with
  | root h hbase =>
    rw [h]
    refine .derived (forall_mem_nil _) ?_
    rw [hbase]
    exact .ended
  | derived h hbase hbare hrest ih =>
    have hnew := (nodup_cons.1 ((Lineage.derived h hbase hbare hrest).nodup hname)).1
    rw [h]
    refine .derived (fun c hc heq => hnew (mem_map.2 ⟨c, hc, heq⟩)) ?_
    rw [hbase]
    exact ih hbare

/-- The chain of a class that has a lineage is the lineage. -/
theorem classChain_eq (hname : IsBare name) : p.classChain name = ds :=
  (h.ancestry hname).classChain_eq

theorem length_le (hname : IsBare name) : ds.length ≤ p.classCount :=
  h.classChain_eq hname ▸ length_chainFrom_le

end Lineage

/-! ### Deciding -/

/-- Whether the class called `name` has a lineage of a bounded length. -/
def hasLineage (p : Program) : Nat → String → Bool
  | 0, _ => false
  | limit + 1, name =>
    match p.class? name with
    | none => false
    | some d =>
      match d.base with
      | none => true
      | some base => decide (IsBare base) && p.hasLineage limit base

theorem Lineage.hasLineage {p : Program} {name : String} {ds : List ClassDef}
    (h : p.Lineage name ds) {limit : Nat} (hlimit : ds.length ≤ limit) :
    p.hasLineage limit name = true := by
  induction h generalizing limit with
  | root h hbase =>
    obtain ⟨limit, rfl⟩ := Nat.exists_eq_succ_of_ne_zero (Nat.ne_of_gt hlimit)
    simp only [Program.hasLineage, h, hbase]
  | derived h hbase hbare hrest ih =>
    obtain ⟨limit, rfl⟩ := Nat.exists_eq_succ_of_ne_zero
      (Nat.ne_of_gt (Nat.lt_of_lt_of_le (Nat.succ_pos _) hlimit))
    simp only [Program.hasLineage, h, hbase, ih (Nat.le_of_succ_le_succ hlimit), Bool.and_true,
      decide_eq_true hbare]

theorem exists_lineage_of_hasLineage {p : Program} {limit : Nat} {name : String}
    (h : p.hasLineage limit name = true) : ∃ ds, p.Lineage name ds := by
  induction limit generalizing name with
  | zero => cases h
  | succ limit ih =>
    rw [hasLineage] at h
    split at h
    · cases h
    next d hd =>
      split at h
      · exact ⟨[d], .root hd ‹_›⟩
      · rw [Bool.and_eq_true, decide_eq_true_eq] at h
        obtain ⟨ds, hds⟩ := ih h.2
        exact ⟨d :: ds, .derived hd ‹_› h.1 hds⟩

/-- A lineage has at most one class more than the program. -/
theorem hasLineage_iff {p : Program} {name : String} :
    p.hasLineage (p.classCount + 1) name = true ↔ ∃ ds, p.Lineage name ds := by
  refine ⟨exists_lineage_of_hasLineage, fun ⟨ds, h⟩ => h.hasLineage ?_⟩
  cases h with
  | root => exact Nat.le_add_left 1 _
  | derived _ _ hbare hrest => exact Nat.succ_le_succ (hrest.length_le hbare)

instance (p : Program) (name : String) : Decidable (∃ ds, p.Lineage name ds) :=
  decidable_of_iff _ hasLineage_iff

end Monomorph.Program
