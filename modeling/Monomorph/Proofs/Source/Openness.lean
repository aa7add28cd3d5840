import Monomorph.Dispatch.Requests
import Monomorph.Dispatch.Slots
import Monomorph.Instance.Worklist
import Monomorph.Proofs.Source.Names
import Monomorph.Proofs.Ty.Composition

/-!
# Open types under substitution, and instances with open arguments

A type in which the parameters of an item are replaced by closed types is closed, unless it has a
name that is neither known nor one of the parameters. An instance with an open argument is put aside
where it is requested. Two kinds of instances are requested without a look at all their arguments:
the methods in the slots of a dispatch table, which have the arguments of the type that the table is
for, and the static methods of an implementation, whose arguments are made from the type that the
implementation is for.
-/

namespace Monomorph

/-- The arguments of an instance: those of the item or the owner, then those of the method. -/
def WorkItem.allArgs (item : WorkItem) : List Ty :=
  item.args ++ (item.method.map MethodKey.args).getD []

/-- The type or class that a dispatch table is for, as its methods are requested. -/
def Dispatch.Request.owner : Request → String × List Ty
  | .behavior selfTy _ _ => selfTy.nominal?.getD ("", [])
  | .cls name args => (name, args)

/-- The arguments of the implementing type. -/
def ImplDef.selfArgs (d : ImplDef) : List Ty := (d.selfTy.asNamed?.map Prod.snd).getD []

namespace Program

/-- The methods in the slots of a dispatch table. -/
def slotMethods (p : Program) : Dispatch.Request → List String
  | .behavior _ name _ => (p.behaviorOrder? name).getD []
  | .cls name _ => (p.classSlots name).map ClassSlot.method

/-- Instances that are requested although an argument of the owner may be open, given the dispatch
tables that are requested. -/
inductive Spares (p : Program) (tabled : Dispatch.Request → Prop) : WorkItem → Prop
  /-- A method in a slot of a dispatch table. -/
  | slot {request method} (h : tabled request) (hmethod : method ∈ p.slotMethods request) :
      Spares p tabled (.ofMethod request.owner.1 request.owner.2 method [])
  /-- A static method, for closed types, of an implementation for a type with a name that is neither
  known nor a parameter. -/
  | unscoped {origin impl name method unknown f}
      (himpl : (origin, impl) ∈ p.impls) (hname : impl.typeName? = some name)
      (hf : impl.method? method = some f) (hunknown : unknown ∈ p.openNamesList impl.selfArgs)
      (hscope : unknown ∉ impl.generics ++ f.generics) {bound}
      (hbound : p.isOpenList bound = false) :
      Spares p tabled (.ofMethod name
        (Ty.substList (.ofArgs (impl.generics ++ f.generics) bound) impl.selfArgs) method
        (bound.drop impl.generics.length))

theorem Spares.mono {p : Program} {tabled tabled' : Dispatch.Request → Prop} {item : WorkItem}
    (h : p.Spares tabled item) (htabled : ∀ request, tabled request → tabled' request) :
    p.Spares tabled' item := by
  cases h with
  | slot h hmethod => exact .slot (htabled _ h) hmethod
  | unscoped himpl hname hf hunknown hscope hbound =>
    exact .unscoped himpl hname hf hunknown hscope hbound

variable {p : Program}

theorem isOpenList_append {ts us : List Ty} :
    p.isOpenList (ts ++ us) = (p.isOpenList ts || p.isOpenList us) := by
  simp [isOpenList_eq_any]

theorem isOpenList_eq_false {ts : List Ty} :
    p.isOpenList ts = false ↔ ∀ t ∈ ts, p.isOpen t = false := by
  simp [isOpenList_eq_any]

/-- A type is open if it has an unknown name. -/
theorem isOpen_iff {t : Ty} : p.isOpen t = true ↔ ∃ name, name ∈ p.openNames t := by
  induction t using Ty.induction_leaves with
  | leaf qualifier name => cases hknows : p.knowsType name <;> simp [isOpen, openNames, hknows]
  | step t hleaf ih =>
    simp only [p.isOpen_of_leaf?_eq_none hleaf, p.openNames_of_leaf?_eq_none hleaf,
      List.any_eq_true, List.mem_flatMap]
    grind

/-- Where every open name of a type is bound, and only to closed types, the type becomes closed. -/
theorem isOpen_subst {b : Bindings} (hb : ∀ name t, b.find? name = some t → p.isOpen t = false)
    {t : Ty} (h : ∀ name ∈ p.openNames t, (b.find? name).isSome = true) :
    p.isOpen (t.subst b) = false := by
  refine Bool.eq_false_iff.2 fun hopen => ?_
  obtain ⟨name, hname⟩ := isOpen_iff.1 hopen
  obtain ⟨hmentions, hunknown⟩ := p.mem_openNames.1 hname
  obtain ⟨own, hown, hexposes⟩ := (Ty.mentions_subst_iff b [name] t).1 hmentions
  obtain ⟨hfree, hsame⟩ | ⟨image, himage, hexposed⟩ := Bindings.exposes_iff.1 hexposes
  · -- An unknown name that is left is not bound.
    rw [← List.mem_singleton.1 hsame] at hunknown
    have hbound := h own (p.mem_openNames.2 ⟨hown, hunknown⟩)
    rw [hfree] at hbound
    cases hbound
  · exact Bool.false_ne_true ((hb own image himage).symm.trans
      (isOpen_iff.2 ⟨name, p.mem_openNames.2 ⟨hexposed, hunknown⟩⟩))

/-- What stays open when parameters are replaced by closed types has a name out of their scope. -/
theorem exists_notMem_of_isOpenList {params : List String} {bound ts : List Ty}
    (hbound : p.isOpenList bound = false) (hlength : bound.length = params.length)
    (h : p.isOpenList (Ty.substList (.ofArgs params bound) ts) = true) :
    ∃ name ∈ p.openNamesList ts, name ∉ params := by
  by_contra hscope
  rw [Ty.substList_eq_map, isOpenList_eq_any, List.any_map] at h
  obtain ⟨t, ht, hopen⟩ := List.any_eq_true.1 h
  refine Bool.false_ne_true ((isOpen_subst (fun name t ht => ?_) fun name hname => ?_).symm.trans
    hopen)
  · exact isOpenList_eq_false.1 hbound t (Bindings.mem_of_find?_ofArgs ht)
  · refine Bindings.isSome_find?_ofArgs hlength.ge (by_contra fun hout => hscope ⟨name, ?_, hout⟩)
    rw [openNamesList_eq_flatMap]
    exact List.mem_flatMap.2 ⟨t, ht, hname⟩

end Program

end Monomorph
