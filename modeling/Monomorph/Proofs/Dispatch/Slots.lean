import Monomorph.Dispatch.Slots
import Monomorph.Proofs.Source.Lineage

/-!
# Slots along a chain of classes

A class takes over the slots of its base. It gives its own code to those whose methods it declares
again, and has its other virtual methods behind them. The walk from a class and the walk from its
base give the same ancestors as long as they end at a class without a known base, and then a method
has one slot in the tables of the class and of all classes below it. Whether slots are found anew or
taken from a memo makes no difference.

## Main results

* `Program.classChain_eq_cons`, `ClassSlot.mem_along`, `SlotMemo.Consulted.answers`,
  `SlotMemo.classSlots_extend_base`.
-/

namespace Monomorph

open List

/-- The names of the virtual methods that a class declares, in order. -/
def ClassDef.virtuals (d : ClassDef) : List String :=
  (d.methods.filter FunctionDef.isVirtual).map FunctionDef.name

/-! ### Chains -/

namespace Program

variable {p : Program} {name base : String} {d : ClassDef}

/-- The chain of a class is the class and the chain of its base, under any name of the base. -/
theorem classChain_eq_cons (hd : p.class? name = some d)
    (hbase : d.base.bind p.class? = p.class? base) (hends : p.ChainEnds name) :
    p.classChain name = d :: p.classChain base := by
  have hchain := ancestry_classChain hends
  rw [hd] at hchain
  cases hancestors : p.classChain name with
  | nil =>
    rw [hancestors] at hchain
    cases hchain
  | cons c ancestors =>
    rw [hancestors] at hchain
    cases hchain with
    | derived hnew hrest =>
      rw [hbase] at hrest
      rw [hrest.classChain_eq]

end Program

/-! ### Slots of a chain -/

namespace ClassSlot

variable {slots : List ClassSlot} {owner method : String} {methods : List String} {slot : ClassSlot}
  {chain : List ClassDef}

theorem map_method_assign : (assign owner slots method).map ClassSlot.method =
    if method ∈ slots.map ClassSlot.method then slots.map ClassSlot.method
    else slots.map ClassSlot.method ++ [method] := by
  induction slots with
  | nil => rfl
  | cons slot rest ih =>
    rw [assign]
    by_cases hslot : slot.method = method
    · simp [hslot]
    · have hne : ¬ method = slot.method := fun heq => hslot heq.symm
      rw [if_neg hslot, map_cons, map_cons, ih]
      by_cases hrest : method ∈ rest.map ClassSlot.method
      · rw [if_pos hrest, if_pos (mem_cons_of_mem _ hrest)]
      · rw [if_neg hrest, if_neg fun hmem => (mem_cons.1 hmem).elim hne hrest, cons_append]

theorem map_method_prefix_assign :
    slots.map ClassSlot.method <+: (assign owner slots method).map ClassSlot.method := by
  rw [map_method_assign]
  split
  · exact prefix_refl _
  · exact prefix_append _ _

section

variable (h : (slots.map ClassSlot.method).Nodup)

include h

theorem nodup_assign : ((assign owner slots method).map ClassSlot.method).Nodup := by
  rw [map_method_assign]
  split
  · exact h
  next hnew => exact List.Nodup.append h (nodup_singleton _) (disjoint_singleton.2 hnew)

/-- The slot of a method that is given to a class holds its code; all others stay. -/
theorem mem_assign : slot ∈ assign owner slots method ↔
      slot = ⟨method, owner⟩ ∨ (slot ∈ slots ∧ slot.method ≠ method) := by
  induction slots with
  | nil => simp [assign]
  | cons first rest ih =>
    obtain ⟨hfirst, hrest⟩ := nodup_cons.1 h
    rw [assign]
    by_cases heq : first.method = method
    · have hother : ∀ slot ∈ rest, slot.method ≠ method := fun slot hslot hmethod =>
        hfirst (mem_map.2 ⟨slot, hslot, hmethod.trans heq.symm⟩)
      rw [if_pos heq, mem_cons, mem_cons]
      constructor
      · rintro (rfl | hslot)
        · exact .inl rfl
        · exact .inr ⟨.inr hslot, hother slot hslot⟩
      · rintro (rfl | ⟨rfl | hslot, hmethod⟩)
        · exact .inl rfl
        · exact absurd heq hmethod
        · exact .inr hslot
    · rw [if_neg heq, mem_cons, mem_cons, ih hrest]
      constructor
      · rintro (rfl | rfl | ⟨hslot, hmethod⟩)
        · exact .inr ⟨.inl rfl, heq⟩
        · exact .inl rfl
        · exact .inr ⟨.inr hslot, hmethod⟩
      · rintro (rfl | ⟨rfl | hslot, hmethod⟩)
        · exact .inr (.inl rfl)
        · exact .inl rfl
        · exact .inr (.inr ⟨hslot, hmethod⟩)

omit h in
theorem map_method_prefix_foldl_assign : slots.map ClassSlot.method <+:
    (methods.foldl (assign owner) slots).map ClassSlot.method := by
  induction methods generalizing slots with
  | nil => exact prefix_refl _
  | cons method rest ih => exact map_method_prefix_assign.trans ih

theorem nodup_foldl_assign : ((methods.foldl (assign owner) slots).map ClassSlot.method).Nodup := by
  induction methods generalizing slots with
  | nil => exact h
  | cons method rest ih => exact ih (nodup_assign h)

theorem mem_foldl_assign : slot ∈ methods.foldl (assign owner) slots ↔
      (slot.method ∈ methods ∧ slot.owner = owner) ∨ (slot ∈ slots ∧ slot.method ∉ methods) := by
  induction methods generalizing slots with
  | nil => simp
  | cons method rest ih =>
    have hslot : slot = ⟨method, owner⟩ ↔ slot.method = method ∧ slot.owner = owner := by
      cases slot
      exact ClassSlot.mk.injEq _ _ _ _ ▸ Iff.rfl
    rw [foldl_cons, ih (nodup_assign h), mem_assign h, hslot, mem_cons]
    tauto

end

/-- The slots that a chain of classes gives, nearest class first. -/
def along (chain : List ClassDef) : List ClassSlot :=
  chain.foldr (fun d slots => assignAll slots d) []

theorem along_cons (d : ClassDef) (ancestors : List ClassDef) :
    along (d :: ancestors) = d.virtuals.foldl (assign d.name) (along ancestors) :=
  rfl

/-- No method has two slots. -/
theorem nodup_along (chain : List ClassDef) : ((along chain).map ClassSlot.method).Nodup := by
  induction chain with
  | nil => exact nodup_nil
  | cons d ancestors ih => exact nodup_foldl_assign ih

/-- A slot holds the code of the nearest class that declares its method, and there is one for each
method that some class declares. -/
theorem mem_along : slot ∈ along chain ↔
    (chain.find? fun d => slot.method ∈ d.virtuals).map ClassDef.name = some slot.owner := by
  induction chain with
  | nil => simp [along]
  | cons d ancestors ih =>
    rw [along_cons, mem_foldl_assign (nodup_along ancestors), ih]
    by_cases hown : slot.method ∈ d.virtuals
    · rw [find?_cons_of_pos (by simpa using hown)]
      simp [hown, eq_comm]
    · rw [find?_cons_of_neg (by simpa using hown)]
      simp [hown]

theorem mem_map_method_along :
    method ∈ (along chain).map ClassSlot.method ↔ ∃ d ∈ chain, method ∈ d.virtuals := by
  constructor
  · intro hmem
    obtain ⟨slot, hslot, rfl⟩ := mem_map.1 hmem
    obtain ⟨d, hd, -⟩ := Option.map_eq_some_iff.1 (mem_along.1 hslot)
    exact ⟨d, mem_of_find?_eq_some hd, by simpa using find?_some hd⟩
  · rintro ⟨d, hd, hmethod⟩
    have hfound : (chain.find? fun d => method ∈ d.virtuals).isSome :=
      find?_isSome.2 ⟨d, hd, decide_eq_true hmethod⟩
    obtain ⟨nearest, hnearest⟩ := Option.isSome_iff_exists.1 hfound
    refine mem_map.2 ⟨⟨method, nearest.name⟩, mem_along.2 ?_, rfl⟩
    rw [hnearest, Option.map_some]

end ClassSlot

theorem Program.classSlots_eq_along (p : Program) (name : String) :
    p.classSlots name = ClassSlot.along (p.classChain name) := by
  rw [classSlots, foldl_reverse, ClassSlot.along]

theorem Program.classSlot?_eq_findIdx? (p : Program) (name method : String) :
    p.classSlot? name method =
      ((p.classSlots name).map ClassSlot.method).findIdx? fun other => other = method := by
  rw [classSlot?, findIdx?_map]
  rfl

/-! ### The memo -/

namespace SlotMemo

/-- What a memo holds is what would be found anew. -/
structure Holds (p : Program) (memo : SlotMemo) : Prop where
  orders : ∀ entry ∈ memo.orders, p.behaviorOrder? entry.1 = some entry.2
  classes : ∀ entry ∈ memo.classes, p.classSlots entry.1 = entry.2

/-- A question has one answer in all memos that hold what would be found anew, and leaves such a
memo. -/
def Answers {α : Type} (p : Program) (query : StateM SlotMemo α) (answer : α) : Prop :=
  ∀ memo, Holds p memo → (query.run memo).1 = answer ∧ Holds p (query.run memo).2

/-- The memos that questions about one program leave. -/
inductive Consulted (p : Program) : SlotMemo → Prop
  | fresh : Consulted p {}
  | behaviorOrder {memo} (h : Consulted p memo) (behavior : String) :
      Consulted p ((behaviorOrder? p behavior).run memo).2
  | behaviorSlot {memo} (h : Consulted p memo) (behavior method : String) :
      Consulted p ((behaviorSlot? p behavior method).run memo).2
  | classSlots {memo} (h : Consulted p memo) (name : String) :
      Consulted p ((classSlots p name).run memo).2
  | classSlot {memo} (h : Consulted p memo) (name method : String) :
      Consulted p ((classSlot? p name method).run memo).2

variable {p : Program} {memo : SlotMemo} {α : Type} {query : StateM SlotMemo α} {answer : α}

theorem mem_of_lookup_eq_some {entries : List (String × α)} {name : String} {found : α}
    (h : entries.lookup name = some found) : (name, found) ∈ entries := by
  obtain ⟨before, after, rfl, -⟩ := lookup_eq_some_iff.1 h
  exact mem_append_right _ mem_cons_self

theorem run_behaviorOrder? (p : Program) (behavior : String) (memo : SlotMemo) :
    (behaviorOrder? p behavior).run memo =
      match memo.orders.lookup behavior, p.behaviorOrder? behavior with
      | some order, _ => (some order, memo)
      | none, none => (none, memo)
      | none, some order =>
          (some order, { memo with orders := (behavior, order) :: memo.orders }) := by
  cases hknown : memo.orders.lookup behavior <;> cases horder : p.behaviorOrder? behavior <;>
    simp only [behaviorOrder?, StateT.run_bind, StateT.run_get, pure_bind, hknown, horder] <;> rfl

theorem behaviorOrder?_answers (p : Program) (behavior : String) :
    Answers p (behaviorOrder? p behavior) (p.behaviorOrder? behavior) := by
  intro memo h
  rw [run_behaviorOrder?]
  cases hknown : memo.orders.lookup behavior with
  | some order => exact ⟨(h.orders _ (mem_of_lookup_eq_some hknown)).symm, h⟩
  | none =>
    cases horder : p.behaviorOrder? behavior with
    | none => exact ⟨rfl, h⟩
    | some order => exact ⟨rfl, forall_mem_cons.2 ⟨horder, h.orders⟩, h.classes⟩

theorem run_classSlots (p : Program) (name : String) (memo : SlotMemo) :
    (classSlots p name).run memo =
      match memo.classes.lookup name with
      | some slots => (slots, memo)
      | none => (p.classSlots name,
          { memo with classes := (name, p.classSlots name) :: memo.classes }) := by
  cases hknown : memo.classes.lookup name <;>
    simp only [classSlots, StateT.run_bind, StateT.run_get, pure_bind, hknown] <;> rfl

theorem classSlots_answers (p : Program) (name : String) :
    Answers p (classSlots p name) (p.classSlots name) := by
  intro memo h
  rw [run_classSlots]
  cases hknown : memo.classes.lookup name with
  | some slots => exact ⟨(h.classes _ (mem_of_lookup_eq_some hknown)).symm, h⟩
  | none => exact ⟨rfl, h.orders, forall_mem_cons.2 ⟨rfl, h.classes⟩⟩

theorem Answers.map {β : Type} (h : Answers p query answer) (f : α → β) :
    Answers p (f <$> query) (f answer) :=
  fun memo hmemo => ⟨congrArg f (h memo hmemo).1, (h memo hmemo).2⟩

theorem behaviorSlot?_answers (p : Program) (behavior method : String) :
    Answers p (behaviorSlot? p behavior method) (p.behaviorSlot? behavior method) :=
  (behaviorOrder?_answers p behavior).map
    fun order? => order?.bind fun order => order.findIdx? fun name => name = method

theorem classSlot?_answers (p : Program) (name method : String) :
    Answers p (classSlot? p name method) (p.classSlot? name method) :=
  (classSlots_answers p name).map _

theorem Consulted.holds (h : Consulted p memo) : Holds p memo := by
  induction h with
  | fresh => exact ⟨forall_mem_nil _, forall_mem_nil _⟩
  | behaviorOrder _ behavior ih => exact (behaviorOrder?_answers p behavior _ ih).2
  | behaviorSlot _ behavior method ih => exact (behaviorSlot?_answers p behavior method _ ih).2
  | classSlots _ name ih => exact (classSlots_answers p name _ ih).2
  | classSlot _ name method ih => exact (classSlot?_answers p name method _ ih).2

/-- The answer to a question does not depend on what was asked before. -/
theorem Consulted.answers (h : Consulted p memo) (hquery : Answers p query answer) :
    (query.run memo).1 = answer :=
  (hquery memo h.holds).1

/-- Whatever was asked before, the slots of a class extend those of its base: the methods of the
base come first and in the same order, no method has two slots, there is one for each method that a
class of the chain declares virtual, and it holds the code of the nearest class that does. So a
method keeps its slot in all classes below the one that declares it. -/
theorem classSlots_extend_base {name base : String} {d b : ClassDef}
    (hd : p.class? name = some d) (hbase : d.base.bind p.class? = some b)
    (hb : p.class? base = some b) (hends : p.ChainEnds name) {memo memo' : SlotMemo}
    (hmemo : Consulted p memo) (hmemo' : Consulted p memo') :
    ((classSlots p base).run memo).1.map ClassSlot.method <+:
        ((classSlots p name).run memo').1.map ClassSlot.method ∧
      (((classSlots p name).run memo').1.map ClassSlot.method).Nodup ∧
      (∀ method, method ∈ ((classSlots p name).run memo').1.map ClassSlot.method ↔
        ∃ c ∈ p.classChain name, method ∈ c.virtuals) ∧
      (∀ slot ∈ ((classSlots p name).run memo').1,
        ((p.classChain name).find? fun c => slot.method ∈ c.virtuals).map ClassDef.name =
          some slot.owner) ∧
      ∀ method i, ((classSlot? p base method).run memo).1 = some i →
        ((classSlot? p name method).run memo').1 = some i := by
  have hchain := Program.classChain_eq_cons hd (hbase.trans hb.symm) hends
  have hextends : (p.classSlots base).map ClassSlot.method <+:
      (p.classSlots name).map ClassSlot.method := by
    rw [p.classSlots_eq_along, p.classSlots_eq_along, hchain, ClassSlot.along_cons]
    exact ClassSlot.map_method_prefix_foldl_assign
  rw [hmemo.answers (classSlots_answers p base), hmemo'.answers (classSlots_answers p name)]
  refine ⟨hextends, ?_, fun method => ?_, fun slot hslot => ?_, fun method i hi => ?_⟩
  · rw [p.classSlots_eq_along]
    exact ClassSlot.nodup_along _
  · rw [p.classSlots_eq_along]
    exact ClassSlot.mem_map_method_along
  · rw [p.classSlots_eq_along] at hslot
    exact ClassSlot.mem_along.1 hslot
  · rw [hmemo.answers (classSlot?_answers p base method), p.classSlot?_eq_findIdx?] at hi
    rw [hmemo'.answers (classSlot?_answers p name method), p.classSlot?_eq_findIdx?]
    obtain ⟨added, hadded⟩ := hextends
    rw [← hadded, List.findIdx?_append, hi, Option.some_or]

/-- Three classes, each with the one before it as its base under a qualified name. The lowest
overrides a method of the root, and the one between has a method with no slot. -/
def threeShapes : Program where
  home := {
    path := "draw"
    classes := .ofList [
      { name := "Shape"
        methods := [{ name := "area", isVirtual := true }, { name := "draw", isVirtual := true }] },
      { name := "Polygon", base := some "draw::Shape"
        methods := [{ name := "sides", isVirtual := true }, { name := "scale" }] },
      { name := "Square", base := some "draw::Polygon"
        methods := [
          { name := "diagonal", isVirtual := true }, { name := "draw", isVirtual := true }] }] }

theorem classSlots_extend_base_threeShapes :
    threeShapes.ChainEnds "Square" ∧
      ((classSlots threeShapes "Square").run ((classSlot? threeShapes "Shape" "draw").run {}).2).1 =
        [⟨"area", "Shape"⟩, ⟨"draw", "Square"⟩, ⟨"sides", "Polygon"⟩, ⟨"diagonal", "Square"⟩] ∧
      ((classSlot? threeShapes "Polygon" "draw").run {}).1 = some 1 ∧
      ((classSlot? threeShapes "Square" "draw").run
        ((classSlot? threeShapes "Shape" "draw").run {}).2).1 = some 1 := by
  have hends : threeShapes.ChainEnds "Square" := by decide +kernel
  have hslot : ((classSlot? threeShapes "Polygon" "draw").run {}).1 = some 1 := by decide +kernel
  have hsquare : threeShapes.class? "Square" =
      some (threeShapes.home.classes.items.get ⟨2, by decide⟩) := rfl
  have hpolygon : threeShapes.class? "Polygon" =
      some (threeShapes.home.classes.items.get ⟨1, by decide⟩) := rfl
  have hfound := classSlots_extend_base hsquare rfl hpolygon hends .fresh
    (.classSlot .fresh "Shape" "draw")
  exact ⟨hends, by decide +kernel, hslot, hfound.2.2.2.2 "draw" 1 hslot⟩

end SlotMemo

end Monomorph
