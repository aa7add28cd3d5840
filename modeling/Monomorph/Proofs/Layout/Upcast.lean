import Monomorph.Proofs.Layout.History
import Monomorph.Proofs.Layout.Regular

/-!
# Instances inside instances

The block of a class starts with the block of its base, or in a root with the pointer to the
dispatch table, and the first member of a record lies at its start. So an instance of a class has an
instance of each ancestor at offset 0, and a pointer to the one is a pointer to the other. This
takes that the ancestor is given the same members when it is laid out by itself: with no arguments,
at another time, and perhaps after other queries.

## Main results

* `Layout.fst_classMembers`, `Layout.Laid.isInstance`, `Layout.upcast_keepsOffsets`.
-/

namespace Monomorph

open List

namespace Layout

variable {p : Program} {extent again : Ty → Query Extent} {F G : Ty → Extent → Prop}
  {deep wide : Prop} {I : Memo → Prop} {fields : List (List Ty)}
  {blocks blocks' : List (List Extent)} {e e' whole whole' : Extent} {memo memo' last : Memo}
  {k i j offset' : Nat} {d c : ClassDef} {ancestors : List ClassDef} {depth : Nat} {args : List Ty}

/-! ### The members of class instances -/

/-- The extent of blocks inside each other, nearest class first, together with the extents of the
members of each block: the block of the base, or the pointer to the dispatch table, and the
fields. -/
def blocksWith (extent : Ty → Query Extent) : List (List Ty) → Query (Extent × List (List Extent))
  | [] => pure (.pointer, [])
  | own :: ancestors => do
      let base ← blocksWith extent ancestors
      let es ← own.mapM extent
      let e ← checked (Extent.record (base.1 :: es))
      return (e, (base.1 :: es) :: base.2)

/-- The types of the fields of a class instance, for the class and its ancestors. -/
def classFields (p : Program) (d : ClassDef) (args : List Ty) : List (List Ty) :=
  match blocksOf p d with
  | [] => []
  | own :: ancestors => own.fieldTypes args :: ancestors.map fun ancestor => ancestor.fieldTypes []

/-- The extent of a class instance in memory, with the extents of the members of each block. -/
def classMembers (p : Program) (depth : Nat) (d : ClassDef) (args : List Ty) :
    Query (Extent × List (List Extent)) :=
  blocksWith (extentOf p depth) (classFields p d args)

/-- The extent of a member of a block. -/
def member? (blocks : List (List Extent)) (k i : Nat) : Option Extent :=
  blocks[k]?.bind fun members => members[i]?

theorem fst_blocksWith (extent : Ty → Query Extent) (fields : List (List Ty)) :
    Prod.fst <$> blocksWith extent fields = (Shape.blocks fields).extentWith extent := by
  rw [Shape.extentWith]
  induction fields with
  | nil => rfl
  | cons own ancestors ih =>
    rw [foldrM_cons, ← ih, blocksWith]
    simp only [map_bind, bind_map_left, map_pure, bind_pure]

/-- The members come with the extent of the instance. -/
theorem fst_classMembers (p : Program) (depth : Nat) (d : ClassDef) (args : List Ty) :
    Prod.fst <$> classMembers p depth d args = classExtent p depth d args := by
  rw [classMembers, fst_blocksWith, classExtent, classExtentWith_eq, classFields, classShape]
  cases blocksOf p d <;> rfl

theorem parts_classShape (p : Program) (d : ClassDef) (args : List Ty) :
    (classShape p d args).parts = (classFields p d args).flatten := by
  rw [classFields, classShape]
  cases blocksOf p d <;> rfl

theorem exists_run_blocksWith_cons {own : List Ty}
    (h : (blocksWith extent (own :: fields)).run memo = .ok ((whole, blocks), last)) :
    ∃ base inner mid es, (blocksWith extent fields).run memo = .ok ((base, inner), mid) ∧
      (own.mapM extent).run mid = .ok (es, last) ∧ Extent.record (base :: es) = .ok whole ∧
        blocks = (base :: es) :: inner := by
  obtain ⟨⟨base, inner⟩, mid, hbase, h⟩ := exists_of_run_bind h
  obtain ⟨es, last', hown, h⟩ := exists_of_run_bind h
  dsimp only at h
  cases hrecord : Extent.record (base :: es) with
  | error o =>
    rw [hrecord] at h
    cases h
  | ok e =>
    rw [hrecord] at h
    cases h
    exact ⟨base, inner, mid, es, hbase, hown, hrecord, rfl⟩

/-! ### Blocks that fit -/

/-- The extents of blocks inside each other and of their members, given those of the fields. -/
inductive Laid (F : Ty → Extent → Prop) : List (List Ty) → Extent → List (List Extent) → Prop
  | nil : Laid F [] .pointer []
  | cons {own ancestors base e es blocks} (hbase : Laid F ancestors base blocks)
      (hown : List.Forall₂ F own es) (h : Extent.record (base :: es) = .ok e) :
      Laid F (own :: ancestors) e ((base :: es) :: blocks)

theorem Laid.unique (hunique : ∀ t ∈ fields.flatten, ∀ e e', F t e → F t e' → e = e')
    (h : Laid F fields whole blocks) (h' : Laid F fields whole' blocks') :
    whole = whole' ∧ blocks = blocks' := by
  induction h generalizing whole' blocks' with
  | nil =>
    cases h'
    exact ⟨rfl, rfl⟩
  | cons _ hown h ih =>
    cases h' with
    | cons hbase' hown' h' =>
      rw [flatten_cons] at hunique
      obtain ⟨hownUnique, hbaseUnique⟩ := forall_mem_append.1 hunique
      obtain ⟨rfl, rfl⟩ := ih hbaseUnique hbase'
      cases eq_of_forall₂ hownUnique hown hown'
      exact ⟨Except.ok.inj (h.symm.trans h'), rfl⟩

theorem Laid.exists_part (h : Laid F fields whole blocks) : ∀ t ∈ fields.flatten, ∃ e, F t e := by
  induction h with
  | nil => exact forall_mem_nil _
  | cons _ hown _ ih => exact forall_mem_append.2 ⟨fun t ht =>
      (exists_of_forall₂ hown t ht).imp fun _ h => h.2, ih⟩

theorem Laid.exists_drop (h : Laid F fields whole blocks) (k : Nat) :
    ∃ e, Laid F (fields.drop k) e (blocks.drop k) := by
  induction h generalizing k with
  | nil => exact ⟨_, by simpa using Laid.nil⟩
  | cons hbase hown h ih =>
    cases k with
    | zero => exact ⟨_, .cons hbase hown h⟩
    | succ k => exact ih k

/-- The query for blocks gives extents that fit, and overflows only where a record does. -/
theorem meets_blocksWith (h : ∀ t ∈ fields.flatten, Meets deep wide I (extent t) (F t))
    (hwide : ∀ own ancestors base blocks es, own :: ancestors <:+ fields →
      Laid F ancestors base blocks → List.Forall₂ F own es →
        (¬ ∃ e, Extent.record (base :: es) = .ok e) → wide) :
    Meets deep wide I (blocksWith extent fields) fun r => Laid F fields r.1 r.2 := by
  induction fields with
  | nil => exact meets_pure .nil
  | cons own ancestors ih =>
    rw [flatten_cons] at h
    obtain ⟨hown, hancestors⟩ := forall_mem_append.1 h
    rw [blocksWith]
    refine (ih hancestors fun own' ancestors' base blocks es hsuffix =>
      hwide own' ancestors' base blocks es (hsuffix.trans (suffix_cons _ _))).bind
        fun base hbase => (meets_mapM hown).bind fun es hes => ?_
    exact (meets_checked (fun e he => he)
      (hwide own ancestors base.1 base.2 es (suffix_refl _) hbase hes)).bind
        fun e he => meets_pure (.cons hbase hes he)

/-- If extents of blocks fit, and no others do, then the query for the blocks gives them, and does
not overflow. -/
theorem Laid.meets_blocksWith (hlaid : Laid F fields whole blocks)
    (hunique : ∀ t ∈ fields.flatten, ∀ e e', F t e → F t e' → e = e')
    (h : ∀ t ∈ fields.flatten, Meets deep False I (extent t) (F t)) :
    Meets deep False I (blocksWith extent fields) fun r => r = (whole, blocks) := by
  refine (Layout.meets_blocksWith h ?_).mono id id fun r hr => ?_
  · rintro own ancestors base inner es ⟨front, rfl⟩ hbase hes hno
    obtain ⟨e, hdrop⟩ := hlaid.exists_drop front.length
    rw [flatten_append, flatten_cons] at hunique
    obtain ⟨hownUnique, hbaseUnique⟩ :=
      forall_mem_append.1 (forall_mem_append.1 hunique).2
    rw [drop_left] at hdrop
    generalize blocks.drop front.length = blocks' at hdrop
    cases hdrop with
    | cons hbase' hown' hrecord =>
      rw [(hbase'.unique hbaseUnique hbase).1, eq_of_forall₂ hownUnique hown' hes] at hrecord
      exact hno ⟨e, hrecord⟩
  · obtain ⟨hwhole, hblocks⟩ := hlaid.unique hunique hr
    rw [hwhole, hblocks]

theorem repeats_blocksWith (h : ∀ t ∈ fields.flatten, Repeats [] (extent t) (again t)) :
    Repeats [] (blocksWith extent fields) (blocksWith again fields) := by
  have hlifts := lifts_repeats []
  induction fields with
  | nil => exact hlifts.pure _
  | cons own ancestors ih =>
    rw [flatten_cons] at h
    obtain ⟨hown, hancestors⟩ := forall_mem_append.1 h
    rw [blocksWith, blocksWith]
    exact hlifts.bind (ih hancestors) fun base => hlifts.bind (hlifts.mapM hown) fun es =>
      hlifts.bind (hlifts.checked _) fun e => hlifts.pure _

/-- The members of an ancestor are found before those of the classes below it, as they are found
for the ancestor alone, and what was found for it then is not forgotten. -/
theorem exists_run_blocksWith_drop (hkeeps : ∀ t old, Keeps (Extends old []) (extent t))
    (hmemo : memo.unfolding = [])
    (h : (blocksWith extent fields).run memo = .ok ((whole, blocks), last)) (k : Nat) :
    ∃ e mid, (blocksWith extent (fields.drop k)).run memo = .ok ((e, blocks.drop k), mid) ∧
      Extends mid [] last := by
  have hend : ∀ {fields whole blocks last},
      (blocksWith extent fields).run memo = .ok ((whole, blocks), last) → last.unfolding = [] :=
    fun hrun => ((meets_blocksWith (F := fun _ _ => True) (fun t _ => hkeeps t memo)
      fun _ _ _ _ _ _ _ _ _ => trivial).of_run_eq_ok (.refl hmemo) hrun).1.unfolding
  induction k generalizing fields whole blocks last with
  | zero => exact ⟨whole, last, h, .refl (hend h)⟩
  | succ k ih =>
    cases fields with
    | nil =>
      cases h
      exact ⟨.pointer, memo, rfl, .refl hmemo⟩
    | cons own fields =>
      obtain ⟨base, inner, mid, es, hinner, hown, -, rfl⟩ := exists_run_blocksWith_cons h
      obtain ⟨e, mid', hrun, hmid⟩ := ih hinner
      have hlast := ((meets_mapM (F := fun _ _ => True) fun t _ => hkeeps t mid).of_run_eq_ok
        (.refl (hend hinner)) hown).1
      exact ⟨e, mid', hrun, hmid.trans hlast⟩

/-- The block of an ancestor is the first member of the block around it. -/
theorem exists_run_blocksWith_base (hkeeps : ∀ t old, Keeps (Extends old []) (extent t))
    (hmemo : memo.unfolding = [])
    (h : (blocksWith extent fields).run memo = .ok ((whole, blocks), last))
    (hk : k < fields.length) :
    ∃ base mid, (blocksWith extent (fields.drop (k + 1))).run memo =
        .ok ((base, blocks.drop (k + 1)), mid) ∧
      Extends mid [] last ∧ member? blocks k 0 = some base := by
  obtain ⟨e, last', hrun, -⟩ := exists_run_blocksWith_drop hkeeps hmemo h k
  obtain ⟨base, mid, hbase, hmid⟩ := exists_run_blocksWith_drop hkeeps hmemo h (k + 1)
  refine ⟨base, mid, hbase, hmid, ?_⟩
  rw [drop_eq_getElem_cons hk] at hrun
  obtain ⟨base', inner, mid', es, hinner, -, -, hblocks⟩ := exists_run_blocksWith_cons hrun
  cases hinner.symm.trans hbase
  rw [member?, ← head?_drop, hblocks]
  rfl

theorem Laid.isRegular (h : Laid (fun _ => Extent.IsRegular) fields whole blocks) :
    whole.IsRegular := by
  induction h with
  | nil => exact Extent.isRegular_pointer
  | cons _ hown h ih =>
    exact Extent.isRegular_record (forall_mem_cons.2 ⟨ih, forall_of_forall₂ hown⟩) h

/-! ### Offsets -/

/-- The offset of a member of a record, where members are placed from `start` on. -/
inductive MemberAt : Nat → List Footprint → Nat → Nat → Prop
  | head {start offset member members}
      (h : FirstMultiple member.align start offset) : MemberAt start (member :: members) 0 offset
  | tail {start next offset i member members} (h : FirstMultiple member.align start next)
      (hrest : MemberAt (next + member.size) members i offset) :
      MemberAt start (member :: members) (i + 1) offset

section

variable {start stop offset offset' : Nat} {member : Footprint} {members : List Footprint}

section

variable (h : MemberAt start members i offset)

include h

theorem MemberAt.unique (h' : MemberAt start members i offset') : offset = offset' := by
  induction h with
  | head h =>
    cases h' with
    | head h' => exact h.unique h'
  | tail h _ ih =>
    cases h' with
    | tail h' hrest' =>
      rw [h'.unique h] at hrest'
      exact ih hrest'

theorem MemberAt.le : start ≤ offset := by
  induction h with
  | head h => exact h.le
  | tail h _ ih => exact h.le.trans ((Nat.le_add_right _ _).trans ih)

/-- Members do not overlap. -/
theorem MemberAt.end_le (hmember : members[i]? = some member)
    (h' : MemberAt start members j offset') (hlt : i < j) : offset + member.size ≤ offset' := by
  induction h generalizing j with
  | head h =>
    cases h' with
    | head => exact absurd hlt (Nat.lt_irrefl 0)
    | tail h' hrest' =>
      cases hmember
      rw [h.unique h']
      exact hrest'.le
  | tail h _ ih =>
    cases h' with
    | head => exact absurd hlt (Nat.not_lt_zero _)
    | tail h' hrest' =>
      rw [h'.unique h] at hrest'
      exact ih hmember hrest' (Nat.lt_of_succ_lt_succ hlt)

end

theorem le_of_placed (h : Placed start members stop) : start ≤ stop := by
  induction h with
  | nil => exact Nat.le_refl _
  | cons h _ ih => exact h.le.trans ((Nat.le_add_right _ _).trans ih)

/-- Every member that is placed has an offset and ends before the end of all. -/
theorem exists_memberAt (h : Placed start members stop) (hmember : members[i]? = some member) :
    ∃ offset, MemberAt start members i offset ∧ offset + member.size ≤ stop := by
  induction h generalizing i with
  | nil => cases hmember
  | cons h hrest ih =>
    cases i with
    | zero =>
      cases hmember
      exact ⟨_, .head h, le_of_placed hrest⟩
    | succ i =>
      obtain ⟨offset, hoffset, hend⟩ := ih hmember
      exact ⟨offset, .tail h hoffset, hend⟩

/-- The first member is at the start. -/
theorem MemberAt.eq_zero (h : MemberAt 0 members 0 offset) : offset = 0 := by
  cases h with
  | head h =>
    have hpos := h.lt
    rw [Nat.zero_add] at hpos
    exact Nat.eq_zero_of_dvd_of_lt h.dvd hpos

end

/-- The offset of a member in a class instance: of member `i` of the `k`th block, where the block of
a base is the first member of the block around it. -/
inductive InstanceAt : List (List Extent) → Nat → Nat → Nat → Prop
  | own {members blocks i offset} (h : MemberAt 0 (members.map Extent.footprint) i offset) :
      InstanceAt (members :: blocks) 0 i offset
  | inherited {members blocks k i start offset}
      (hbase : MemberAt 0 (members.map Extent.footprint) 0 start)
      (h : InstanceAt blocks k i offset) : InstanceAt (members :: blocks) (k + 1) i (start + offset)

theorem getElem?_footprint {members : List Extent} (h : members[i]? = some e) :
    (members.map Extent.footprint)[i]? = some e.footprint := by
  rw [getElem?_map, h]
  rfl

theorem InstanceAt.unique {offset : Nat} (h : InstanceAt blocks k i offset)
    (h' : InstanceAt blocks k i offset') : offset = offset' := by
  induction h generalizing offset' with
  | own h =>
    cases h' with
    | own h' => exact h.unique h'
  | inherited hbase _ ih =>
    cases h' with
    | inherited hbase' h' => rw [hbase.unique hbase', ih h']

/-- The members of a block do not overlap. -/
theorem InstanceAt.end_le {offset : Nat} (h : InstanceAt blocks k i offset)
    (hmember : member? blocks k i = some e) (h' : InstanceAt blocks k j offset') (hlt : i < j) :
    offset + e.size.toNat ≤ offset' := by
  induction h generalizing offset' with
  | own h =>
    cases h' with
    | own h' => exact h.end_le (getElem?_footprint hmember) h' hlt
  | inherited hbase _ ih =>
    cases h' with
    | inherited hbase' h' =>
      have hend := ih hmember h'
      have hstart := hbase.unique hbase'
      omega

/-- How the members of a class instance lie, where `blocks` has the members of the class and of its
ancestors. -/
structure IsInstance (ds : List ClassDef) (whole : Extent) (blocks : List (List Extent)) :
    Prop where
  /-- A block has one member more than the class has fields. -/
  lengths : blocks.map List.length = ds.map fun d => d.fields.length + 1
  /-- In the root the first member is the pointer to the dispatch table. -/
  dispatch : member? blocks (ds.length - 1) 0 = some .pointer
  /-- The pointer is at offset 0. -/
  dispatchAt : InstanceAt blocks (ds.length - 1) 0 0
  /-- Every member has an offset and lies inside the instance. -/
  inside : ∀ k i e, member? blocks k i = some e →
    ∃ offset, InstanceAt blocks k i offset ∧ offset + e.size.toNat ≤ whole.size.toNat
  /-- A member has one offset only. -/
  unique : ∀ k i offset offset', InstanceAt blocks k i offset → InstanceAt blocks k i offset' →
    offset = offset'
  /-- The members of a block do not overlap; the first one is the block of the base. -/
  apart : ∀ k i j e offset offset', i < j → member? blocks k i = some e →
    InstanceAt blocks k i offset → InstanceAt blocks k j offset' → offset + e.size.toNat ≤ offset'

namespace Laid

variable (h : Laid (fun _ => Extent.IsRegular) fields whole blocks)

include h

theorem map_length : blocks.map List.length = (fields.map List.length).map (· + 1) := by
  induction h with
  | nil => rfl
  | cons _ hown _ ih =>
    rw [map_cons, map_cons, map_cons, ih, length_cons, hown.length_eq]

/-- The block of an ancestor is at offset 0, so that its members have the offsets they have in an
instance of the ancestor. -/
theorem instanceAt_drop_iff (k : Nat) {offset : Nat} :
    InstanceAt blocks (k + j) i offset ↔ InstanceAt (blocks.drop k) j i offset := by
  induction h generalizing k with
  | nil =>
    rw [drop_nil]
    constructor <;> (intro h; cases h)
  | @cons _ _ base _ es _ hbase _ _ ih =>
    cases k with
    | zero => rw [Nat.zero_add, drop_zero]
    | succ k =>
      rw [drop_succ_cons, ← ih k, Nat.succ_add]
      constructor
      · intro h
        cases h with
        | inherited hfirst h => rwa [hfirst.eq_zero, Nat.zero_add]
      · intro h
        have hfirst : MemberAt 0 ((base :: es).map Extent.footprint) 0 0 :=
          .head ⟨Nat.dvd_zero _, Nat.le_refl 0, Nat.lt_add_of_pos_right hbase.isRegular.pos⟩
        rw [← Nat.zero_add offset]
        exact .inherited hfirst h

/-- Every member lies inside the instance. -/
theorem exists_instanceAt (hmember : member? blocks k i = some e) :
    ∃ offset, InstanceAt blocks k i offset ∧ offset + e.size.toNat ≤ whole.size.toNat := by
  induction h generalizing k with
  | nil => cases hmember
  | @cons _ _ base _ es _ hbase hown hrecord ih =>
    obtain ⟨stop, hplaced, hsize⟩ := (Extent.isRecord_of_record_eq_ok
      (forall_mem_cons.2 ⟨hbase.isRegular, forall_of_forall₂ hown⟩) hrecord).size
    cases k with
    | zero =>
      obtain ⟨offset, hoffset, hend⟩ := exists_memberAt hplaced (getElem?_footprint hmember)
      exact ⟨offset, .own hoffset, hend.trans hsize.le⟩
    | succ k =>
      obtain ⟨offset, hoffset, hend⟩ := ih hmember
      have hfirst : ((base :: es).map Extent.footprint)[0]? = some base.footprint := rfl
      obtain ⟨start, hstart, hbaseEnd⟩ := exists_memberAt hplaced hfirst
      refine ⟨start + offset, .inherited hstart hoffset, ?_⟩
      calc start + offset + e.size.toNat ≤ start + base.size.toNat := by omega
        _ ≤ stop := hbaseEnd
        _ ≤ _ := hsize.le

/-- The first member of the root is the pointer to the dispatch table. -/
theorem member?_root (hne : fields ≠ []) :
    member? blocks (fields.length - 1) 0 = some .pointer := by
  induction h with
  | nil => exact absurd rfl hne
  | @cons _ ancestors _ _ _ _ hbase _ _ ih =>
    cases ancestors with
    | nil =>
      cases hbase
      rfl
    | cons own ancestors => exact ih (cons_ne_nil _ _)

theorem isInstance {ds : List ClassDef} (hne : ds ≠ [])
    (hlengths : fields.map List.length = ds.map fun d => d.fields.length) :
    IsInstance ds whole blocks := by
  have hlength : fields.length = ds.length := by simpa using congrArg List.length hlengths
  have hne' : fields ≠ [] := fun hnil => by
    rw [hnil, length_nil] at hlength
    exact hne (length_eq_zero_iff.1 hlength.symm)
  have hdispatch := h.member?_root hne'
  rw [hlength] at hdispatch
  refine ⟨?_, hdispatch, ?_, fun k i e => h.exists_instanceAt, fun _ _ _ _ => InstanceAt.unique,
    fun _ _ _ _ _ _ hlt hmember hi hj => hi.end_le hmember hj hlt⟩
  · rw [h.map_length, hlengths, map_map]
    rfl
  · -- the root stands alone in what is left of the blocks
    obtain ⟨offset, hoffset, -⟩ := h.exists_instanceAt hdispatch
    have hroot := hoffset
    rw [← Nat.add_zero (ds.length - 1), h.instanceAt_drop_iff] at hroot
    generalize blocks.drop (ds.length - 1) = root at hroot
    cases hroot with
    | own hroot =>
      rw [hroot.eq_zero] at hoffset
      exact hoffset

end Laid

/-! ### Upcasts -/

theorem classFields_of_classChain (h : p.classChain d.name = d :: ancestors) (args : List Ty) :
    classFields p d args =
      d.fieldTypes args :: ancestors.map fun ancestor => ancestor.fieldTypes [] := by
  rw [classFields, blocksOf, h]
  dsimp only
  rw [if_pos rfl]

theorem map_length_classFields (h : p.classChain d.name = d :: ancestors) (args : List Ty) :
    (classFields p d args).map List.length = (d :: ancestors).map fun c => c.fields.length := by
  rw [classFields_of_classChain h, map_cons, map_cons, map_map]
  simp only [ClassDef.fieldTypes, FieldDef.typesUnder, Function.comp_def, length_map]

/-- The fields of an instance of an ancestor are the last of those of the instance. -/
theorem classFields_ancestor (hp : p.HasCleanTypes) (hchain : p.classChain d.name = d :: ancestors)
    (hroot : ∀ root ∈ (d :: ancestors).getLast?, root.base = none) (args : List Ty)
    (hc : ancestors[k]? = some c) :
    p.classChain c.name = c :: ancestors.drop (k + 1) ∧
      classFields p c [] = (classFields p d args).drop (k + 1) := by
  obtain ⟨hk, hget⟩ := List.getElem?_eq_some_iff.1 hc
  have hcons : ancestors.drop k = c :: ancestors.drop (k + 1) := by
    rw [drop_eq_getElem_cons hk, hget]
  have hrest : p.classChain c.name = c :: ancestors.drop (k + 1) := by
    rw [← hcons]
    have hends : p.ChainEnds d.name := fun last hlast => by
      rw [hchain] at hlast
      rw [hroot last hlast]
      rfl
    have hdrop := Program.classChain_drop (nodup_append.1 hp.nodup).2.1
      (fun name hname => isBare_of_isClean (hp.names name (mem_append_right _ hname))) hends
      (k := k + 1) (c := c) (by rwa [hchain])
    rwa [hchain] at hdrop
  refine ⟨hrest, ?_⟩
  rw [classFields_of_classChain hrest, classFields_of_classChain hchain, drop_succ_cons,
    ← map_drop, hcons, map_cons]

theorem exists_run_classMembers (h : (classExtent p depth d args).run memo = .ok (whole, last)) :
    ∃ blocks, (classMembers p depth d args).run memo = .ok ((whole, blocks), last) := by
  rw [← fst_classMembers, StateT.run_map] at h
  cases hrun : (classMembers p depth d args).run memo with
  | error fault =>
    rw [hrun] at h
    cases h
  | ok result =>
    rw [hrun] at h
    cases h
    exact ⟨_, rfl⟩

/-- The members of an instance whose fields have no types that contain each other do not depend on
what was asked before, and the query for them returns if it may go as deep as there are symbols. -/
theorem classMembers_eq_of_history (hp : p.HasCleanTypes)
    (hwritable : ∀ t ∈ (classFields p d args).flatten, t.Writable)
    (huntangled : ∀ t ∈ (classFields p d args).flatten, Untangled p t)
    (hmemo : History p Ty.Writable memo)
    (hrun : (classMembers p depth d args).run memo = .ok ((whole, blocks), last))
    (hmemo' : History p Ty.Writable memo') (depth' : Nat) :
    (∀ r after, (classMembers p depth' d args).run memo' = .ok (r, after) → r = (whole, blocks)) ∧
      ((∀ t ∈ (classFields p d args).flatten,
          (symbolsWithin p t).Finite ∧ (symbolsWithin p t).ncard ≤ depth') →
        ∃ after, (classMembers p depth' d args).run memo' = .ok ((whole, blocks), after)) := by
  have hS := tellsApart_writable hp
  have hsettles : ∀ n, ∀ t ∈ (classFields p d args).flatten,
      Meets True (¬ ∃ e, Sized p none t e) (Sound p Ty.Writable []) (extentOf p n t)
        (Sized p none t) := fun n t ht =>
    (settles_extentOf hS (hwritable t ht) (.outermost t)).mono id (fun h => h (huntangled t ht))
      fun _ h => h (huntangled t ht)
  have hlaid : Laid (Sized p none) (classFields p d args) whole blocks :=
    ((meets_blocksWith (fun t ht => (hsettles depth t ht).mono id (fun _ => trivial) fun _ => id)
      fun _ _ _ _ _ _ _ _ _ => trivial).of_run_eq_ok (hmemo.sound hS) hrun).2
  have hanswer : Meets True False (Sound p Ty.Writable []) (classMembers p depth' d args)
      fun r => r = (whole, blocks) :=
    hlaid.meets_blocksWith (fun _ _ _ _ h h' => h.unique h') fun t ht =>
      (hsettles depth' t ht).mono id (fun hno => hno (hlaid.exists_part t ht)) fun _ => id
  refine ⟨fun r after hrun' => (hanswer.of_run_eq_ok (hmemo'.sound hS) hrun').2, fun hdepth => ?_⟩
  have hdeep : Meets False True (fun memo => memo.unfolding = []) (classMembers p depth' d args)
      fun r => Laid (fun _ _ => True) (classFields p d args) r.1 r.2 := by
    refine meets_blocksWith (fun t ht => ?_) fun _ _ _ _ _ _ _ _ _ => trivial
    obtain ⟨hfinite, hle⟩ := hdepth t ht
    exact meets_extentOf hfinite subset_rfl
      ((Set.ncard_le_ncard Set.sdiff_subset hfinite).trans hle)
  have hanswer := hanswer memo' (hmemo'.sound hS)
  have hdeep := hdeep memo' (hmemo'.sound hS).unfolding
  cases hrun' : (classMembers p depth' d args).run memo' with
  | ok result =>
    obtain ⟨r, after⟩ := result
    rw [hrun'] at hanswer
    exact ⟨after, by rw [hanswer.2]⟩
  | error fault =>
    rw [hrun'] at hanswer hdeep
    cases fault with
    | overflow => exact hanswer.elim
    | tooDeep | nonConvergent => exact hdeep.elim

/-- A class laid out by itself, without arguments, has a certain extent and certain members: on a
memo, on all memos that follow another one, and wherever the first memo follows from. -/
structure LaidAlone (p : Program) (depth : Nat) (memo last : Memo) (c : ClassDef) (base : Extent)
    (members : List (List Extent)) : Prop where
  /-- On the memo, with the same bound on the depth. -/
  now : ∃ mid, (classMembers p depth c []).run memo = .ok ((base, members), mid)
  /-- At any later time, however deep the query may go. -/
  later : ∀ depth' memo', Follows p last memo' →
    (classMembers p depth' c []).run memo' = .ok ((base, members), memo')
  /-- At any earlier time. -/
  earlier : ∀ depth' before r after, Follows p {} before →
    (classMembers p depth' c []).run before = .ok (r, after) → Follows p after memo →
      r = (base, members)
  /-- After other queries, if no types inside the fields contain each other. The query returns if it
  may go as deep as there are symbols. -/
  elsewhere : History p Ty.Writable memo → (∀ t ∈ (classFields p c []).flatten, Untangled p t) →
    ∀ depth' other, History p Ty.Writable other →
      (∀ r after, (classMembers p depth' c []).run other = .ok (r, after) → r = (base, members)) ∧
        ((∀ t ∈ (classFields p c []).flatten,
            (symbolsWithin p t).Finite ∧ (symbolsWithin p t).ncard ≤ depth') →
          ∃ after, (classMembers p depth' c []).run other = .ok ((base, members), after))

/-- What the query for the members of an instance gives is laid out. -/
theorem laid_of_run_classMembers (hmemo : Follows p {} memo)
    (h : (classMembers p depth d args).run memo = .ok ((whole, blocks), last)) :
    Laid (fun _ => Extent.IsRegular) (classFields p d args) whole blocks :=
  ((meets_blocksWith (fun t _ => meets_isRegular p depth t)
    fun _ _ _ _ _ _ _ _ _ => trivial).of_run_eq_ok hmemo.isRegular h).2

/-- One query for the members of an instance settles all others. -/
theorem laidAlone_of_run_classMembers (hp : p.HasCleanTypes) (hmemo : Follows p {} memo)
    {base : Extent} {members : List (List Extent)} {mid : Memo}
    (hwritable : ∀ t ∈ (classFields p c []).flatten, t.Writable)
    (hrun : (classMembers p depth c []).run memo = .ok ((base, members), mid))
    (hmid : Extends mid [] last) : LaidAlone p depth memo last c base members := by
  have hrepeats : ∀ n n', Repeats [] (classMembers p n c []) (classMembers p n' c []) := fun n n' =>
    repeats_blocksWith fun t _ => repeats_extentOf n n' t fun _ _ _ => not_mem_nil
  refine ⟨⟨mid, hrun⟩, ?_, ?_, ?_⟩
  · intro depth' later hlater
    exact (hrepeats depth depth' memo _ mid (hmemo.extends rfl).self hrun).2 later
      (hmid.grows.trans (hlater.extends hmid.unfolding).grows)
  · intro depth' before r after hbefore hearlier hafter
    obtain ⟨hextends, hagain⟩ := hrepeats depth' depth before r after
      (hbefore.extends rfl).self hearlier
    cases (hagain memo (hafter.extends hextends.unfolding).grows).symm.trans hrun
    rfl
  · intro hhistory huntangled depth' other hother
    exact classMembers_eq_of_history hp hwritable huntangled hhistory hrun hother depth'

/-- Upcasts are free. Let an instance of a class be laid out after any queries, where the chain of
the class ends at a root. The pointer to the dispatch table is at offset 0, and members do not
overlap each other or the block of the base. Each ancestor has its block inside the instance, and
the members that it declares have the offsets that they have in an instance of the ancestor laid out
by itself: at the same time, at any later or earlier time, and, if no types inside the fields
contain each other, after other queries altogether. -/
theorem upcast_keepsOffsets (hp : p.HasCleanTypes) {d : ClassDef} {ancestors : List ClassDef}
    (hchain : p.classChain d.name = d :: ancestors)
    (hroot : ∀ root ∈ (d :: ancestors).getLast?, root.base = none) (hmemo : Follows p {} memo)
    {depth : Nat} {args : List Ty}
    (hrun : (classExtent p depth d args).run memo = .ok (whole, last)) :
    (∀ depth c args, Prod.fst <$> classMembers p depth c args = classExtent p depth c args) ∧
    ∃ blocks, (classMembers p depth d args).run memo = .ok ((whole, blocks), last) ∧
      IsInstance (d :: ancestors) whole blocks ∧
      ∀ k c, ancestors[k]? = some c → ∃ base,
        member? blocks k 0 = some base ∧ base.size ≤ whole.size ∧
        IsInstance (ancestors.drop k) base (blocks.drop (k + 1)) ∧
        (∀ j i offset, InstanceAt blocks (k + 1 + j) i offset ↔
          InstanceAt (blocks.drop (k + 1)) j i offset) ∧
        LaidAlone p depth memo last c base (blocks.drop (k + 1)) := by
  refine ⟨fst_classMembers p, ?_⟩
  obtain ⟨blocks, hmembers⟩ := exists_run_classMembers hrun
  have hlaid := laid_of_run_classMembers hmemo hmembers
  refine ⟨blocks, hmembers, hlaid.isInstance (List.cons_ne_nil _ _)
    (map_length_classFields hchain args), fun k c hc => ?_⟩
  obtain ⟨hrest, hfields⟩ := classFields_ancestor hp hchain hroot args hc
  have hk : k < (classFields p d args).length := by
    rw [classFields_of_classChain hchain, List.length_cons, List.length_map]
    exact Nat.lt_succ_of_lt (List.getElem?_eq_some_iff.1 hc).1
  obtain ⟨base, mid, hbase, hmid, hmember⟩ :=
    exists_run_blocksWith_base (fun t old => keeps_extends depth t old [])
      (hmemo.extends rfl).unfolding hmembers hk
  rw [← hfields] at hbase
  replace hbase : (classMembers p depth c []).run memo = _ := hbase
  have hwritable : ∀ t ∈ (classFields p c []).flatten, t.Writable := by
    have hmem : c ∈ p.classChain d.name := by
      rw [hchain]
      exact List.mem_cons_of_mem _ (List.mem_of_getElem? hc)
    obtain ⟨m, hm, hitem⟩ := Program.mem_of_mem_classChain hmem
    rw [← parts_classShape]
    exact hp.writable_classParts (hp.classes m hm c hitem) (List.forall_mem_nil _)
  obtain ⟨offset, -, hsize⟩ := hlaid.exists_instanceAt hmember
  refine ⟨base, hmember, UInt64.le_iff_toNat_le.2 (Nat.le_of_add_left_le hsize), ?_,
    fun j i offset => hlaid.instanceAt_drop_iff (k + 1),
    laidAlone_of_run_classMembers hp hmemo hwritable hbase hmid⟩
  rw [List.drop_eq_getElem_cons (List.getElem?_eq_some_iff.1 hc).1,
    (List.getElem?_eq_some_iff.1 hc).2]
  exact (laid_of_run_classMembers hmemo hbase).isInstance (List.cons_ne_nil _ _)
    (map_length_classFields hrest [])

/-- A root whose block ends in padding. -/
def shapeClass : ClassDef where
  name := "Shape"
  fields := [{ name := "tag", ty := .prim .i8 }]

/-- A class with a field of a generic struct. -/
def crateClass : ClassDef where
  name := "Crate"
  base := some "Shape"
  fields := [
    { name := "cell", ty := .ofName "Cell" [.prim .i16] },
    { name := "lid", ty := .prim .i8 }]

/-- A generic class whose base is named with a qualifier. -/
def parcelClass : ClassDef where
  name := "Parcel"
  generics := ["A"]
  base := some "geo::Crate"
  fields := [{ name := "first", ty := .param "A" }, { name := "rest", ty := .prim .i32 }]

/-- A chain of three classes in two modules. -/
def parcels : Program where
  home := { classes := .ofList [parcelClass] }
  imports := [{
    path := "geo"
    structs := .ofList [
      { name := "Cell", generics := ["A"]
        fields := [{ name := "value", ty := .param "A" }, { name := "mark", ty := .prim .i8 }] }]
    classes := .ofList [shapeClass, crateClass] }]

theorem upcast_keepsOffsets_parcels :
    parcels.HasCleanTypes ∧
    parcels.classChain "Parcel" = [parcelClass, crateClass, shapeClass] ∧
    ∃ memo last, Follows parcels {} memo ∧ memo.known.lookup "Cell__I16" = some ⟨4, 2⟩ ∧
      (classExtent parcels 0 parcelClass [.tuple [.prim .i64, .prim .i8]]).run memo =
        .ok (⟨48, 8⟩, last) ∧
      ∃ blocks base after, IsInstance [parcelClass, crateClass, shapeClass] ⟨48, 8⟩ blocks ∧
        member? blocks 0 0 = some base ∧ base.size ≤ 48 ∧
        (∀ j i offset, InstanceAt blocks (1 + j) i offset ↔
          InstanceAt (blocks.drop 1) j i offset) ∧
        (classMembers parcels 1 crateClass []).run {} = .ok ((base, blocks.drop 1), after) := by
  let ts : List Ty := [.prim .i8, .prim .i16, .ofName "Cell" [.prim .i16]]
  have hp : parcels.HasCleanTypes := by decide +kernel
  have hcell : (extentOf parcels 1 (.ofName "Cell" [.prim .i16])).run {} =
      .ok (⟨4, 2⟩, { known := [("Cell__I16", ⟨4, 2⟩)] }) := by
    decide +kernel
  have hparcel : (classExtent parcels 0 parcelClass [.tuple [.prim .i64, .prim .i8]]).run
      { known := [("Cell__I16", ⟨4, 2⟩)] } =
        .ok (⟨48, 8⟩, { known := [("Cell__I16", ⟨4, 2⟩)] }) := by
    decide +kernel
  have hmemo : Follows parcels {} { known := [("Cell__I16", ⟨4, 2⟩)] } := .extentOf .refl hcell
  have hparts : ∀ w ∈ ts, ∀ u ∈ (shape parcels w).parts,
      u.unqualified ∈ ts.map Ty.unqualified := by
    decide +kernel
  have hfields : ∀ t ∈ (classFields parcels crateClass []).flatten, t ∈ ts := by decide +kernel
  have hchain : parcels.classChain parcelClass.name = parcelClass :: [crateClass, shapeClass] := rfl
  obtain ⟨-, blocks, -, hinstance, hancestors⟩ := upcast_keepsOffsets hp hchain
    (fun root hroot => by cases hroot; rfl) hmemo hparcel
  obtain ⟨base, hbase, hsize, -, hoffsets, halone⟩ := hancestors 0 crateClass rfl
  obtain ⟨after, hafter⟩ := (halone.elsewhere (.extentOf .fresh (by decide +kernel) hcell)
    (fun t ht => untangled_of_rank (fun t => ts.idxOf t) (by decide +kernel) (by decide +kernel)
      (hfields t ht)) 1 {} .fresh).2 fun t ht =>
        ⟨finite_symbolsWithin hparts (hfields t ht), ncard_symbolsWithin_le hparts (hfields t ht)⟩
  exact ⟨hp, hchain, _, _, hmemo, rfl, hparcel, blocks, base, after, hinstance, hbase, hsize,
    hoffsets, hafter⟩

end Layout

end Monomorph
