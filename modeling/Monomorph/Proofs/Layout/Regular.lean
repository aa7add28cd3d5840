import Monomorph.Proofs.Layout.Placement
import Monomorph.Proofs.Layout.Repetition

/-!
# Regular extents

Every extent that a query gives has an alignment of 1, 2, 4, 8 or 16 bytes and a size that is a
multiple of it. So has every extent in the memo, and between queries no type is being unfolded.
Nothing is asked of the program: its types may contain themselves, and names may be unknown.

## Main results

* `Layout.meets_isRegular`, `Layout.regular_of_follows`.
-/

namespace Monomorph

open List

namespace Extent

variable {e e' : Extent} {es : List Extent} {length : UInt64}

/-- The alignment is one of those that built-in kinds have, and it divides the size. -/
structure IsRegular (e : Extent) : Prop where
  align : e.align.toNat ∈ [1, 2, 4, 8, 16]
  dvd : e.align.toNat ∣ e.size.toNat

theorem IsRegular.pos (h : e.IsRegular) : 0 < e.align.toNat :=
  (by decide : ∀ n ∈ [1, 2, 4, 8, 16], 0 < n) _ h.align

theorem isRegular_pointer : pointer.IsRegular := ⟨by decide, by decide⟩

section

variable (hes : ∀ e ∈ es, e.IsRegular)

include hes

theorem isRecord_of_record_eq_ok (h : record es = .ok e) :
    IsRecord (es.map footprint) e.footprint :=
  (isRecord_record (fun e he => (hes e he).pos) h).1

/-- The strictest alignment of regular extents is one of theirs or 1. -/
theorem strictest_mem_of_isRegular : strictest (es.map footprint) ∈ [1, 2, 4, 8, 16] := by
  obtain hone | ⟨member, hmember, halign⟩ := strictest_mem (es.map footprint)
  · exact hone ▸ mem_cons_self
  · obtain ⟨f, hf, rfl⟩ := mem_map.1 hmember
    exact halign ▸ (hes f hf).align

theorem isRegular_record (h : record es = .ok e) : e.IsRegular := by
  obtain ⟨hrecord, hpadded⟩ := isRecord_record (fun e he => (hes e he).pos) h
  have halign : e.align.toNat = strictest (es.map footprint) := hrecord.align
  exact ⟨halign ▸ strictest_mem_of_isRegular hes, hpadded.dvd⟩

omit hes in
theorem align_of_overlay_eq_ok (h : overlay es = .ok e) :
    e.align.toNat = strictest (es.map footprint) :=
  (congrArg Footprint.align (overlay_eq_ok_iff.1 h)).trans (Footprint.align_overlay _)

theorem isRegular_overlay (h : overlay es = .ok e) : e.IsRegular := by
  have halign := align_of_overlay_eq_ok h
  have hdvd := (Footprint.isLeast_overlay (es.map footprint)).1.1
  rw [← halign, ← overlay_eq_ok_iff.1 h] at hdvd
  exact ⟨halign ▸ strictest_mem_of_isRegular hes, hdvd⟩

end

theorem align_of_array_eq_ok (h : array e length = .ok e') : e'.align = e.align := by
  obtain ⟨stride, -, h⟩ := bind_eq_ok_iff.1 h
  obtain ⟨size, -, h⟩ := bind_eq_ok_iff.1 h
  cases h
  rfl

theorem isRegular_array (he : e.IsRegular) (h : array e length = .ok e') : e'.IsRegular :=
  ⟨align_of_array_eq_ok h ▸ he.align, (footprint_array ⟨he.pos, he.dvd⟩ h).2.dvd⟩

theorem isRegular_enumExtent {words : UInt64} (h : Layout.enumExtent words = .ok e) :
    e.IsRegular := by
  have hfootprint := footprint_of_enumExtent h
  have halign : e.align.toNat = _ := congrArg Footprint.align hfootprint
  have hsize : e.size.toNat = _ := congrArg Footprint.size hfootprint
  constructor <;> rw [halign] <;> try rw [hsize]
  all_goals split <;> simp

end Extent

namespace Layout

variable {p : Program} {extent : Ty → Query Extent} {deep : Prop} {I : Memo → Prop} {e : Extent}
  {memo : Memo} {t : Ty}

theorem forall_of_forall₂ {ts : List Ty} {es : List Extent} {P : Extent → Prop}
    (h : List.Forall₂ (fun _ e => P e) ts es) : ∀ e ∈ es, P e := by
  induction h with
  | nil => exact forall_mem_nil _
  | cons he _ ih => exact forall_mem_cons.2 ⟨he, ih⟩

/-- The extents that depend on no other type are those of built-in kinds and of pointers. -/
theorem eq_of_shape_eq_leaf (h : shape p t = .leaf e) :
    (∃ kind, t = .prim kind ∧ e = kind.extent) ∨ e = .pointer ∨ e = .fatPointer := by
  have hnominal : ∀ name args, nominalShape p name args = .leaf e → e = .pointer := by
    intro name args h
    rw [nominalShape, definitionShape] at h
    split at h
    · exact (Shape.leaf.inj h).symm
    · split at h
      · split at h <;> cases h
      · split at h
        · cases h
        · split at h
          · split at h
            · rw [classShape] at h
              split at h <;> cases h
              rfl
            · exact (Shape.leaf.inj h).symm
          · exact (Shape.leaf.inj h).symm
  cases t with
  | prim kind => exact .inl ⟨kind, rfl, (Shape.leaf.inj h).symm⟩
  | named _ name args => exact .inr (.inl (hnominal name args h))
  | classRef name => exact .inr (.inl (hnominal name [] h))
  | tuple | array => cases h
  | ref | ptr => exact .inr (.inl (Shape.leaf.inj h).symm)
  | func | closure | slice | dyn => exact .inr (.inr (Shape.leaf.inj h).symm)

theorem isRegular_of_shape_eq_leaf (h : shape p t = .leaf e) : e.IsRegular := by
  obtain ⟨kind, -, rfl⟩ | rfl | rfl := eq_of_shape_eq_leaf h
  · cases kind <;> exact ⟨by decide, by decide⟩
  · exact Extent.isRegular_pointer
  · exact ⟨by decide, by decide⟩

/-- The extent of a shape is regular if those of its parts are. -/
theorem Shape.meets_isRegular {s : Shape} (hleaf : ∀ e, s = .leaf e → e.IsRegular)
    (h : ∀ t ∈ s.parts, Meets deep True I (extent t) Extent.IsRegular) :
    Meets deep True I (s.extentWith extent) Extent.IsRegular := by
  cases s with
  | leaf e => exact meets_pure (hleaf e rfl)
  | record fields =>
    exact (meets_mapM h).bind fun es hes => meets_checked
      (fun e => Extent.isRegular_record (forall_of_forall₂ hes)) fun _ => trivial
  | overlay fields =>
    exact (meets_mapM h).bind fun es hes => meets_checked
      (fun e => Extent.isRegular_overlay (forall_of_forall₂ hes)) fun _ => trivial
  | tagged payloads =>
    exact (meets_mapM h).bind fun es _ => meets_checked
      (fun e => Extent.isRegular_enumExtent) fun _ => trivial
  | array elem length =>
    exact (h elem mem_cons_self).bind fun elemExtent helem => meets_checked
      (fun e => Extent.isRegular_array helem) fun _ => trivial
  | blocks fields =>
    clear hleaf
    rw [Shape.extentWith]
    induction fields with
    | nil => exact meets_pure Extent.isRegular_pointer
    | cons own ancestors ih =>
      obtain ⟨hown, hancestors⟩ := forall_mem_append.1 h
      rw [foldrM_cons]
      exact (ih hancestors).bind fun base hbase => (meets_mapM hown).bind fun es hes =>
        meets_checked (fun e => Extent.isRegular_record
          (forall_mem_cons.2 ⟨hbase, forall_of_forall₂ hes⟩)) fun _ => trivial

/-- All known extents are regular. -/
def Memo.IsRegular (memo : Memo) : Prop := ∀ entry ∈ memo.known, entry.2.IsRegular

/-- The answers to queries about the extent of a type are regular. -/
theorem meets_isRegular (p : Program) (n : Nat) (t : Ty) :
    Meets True True Memo.IsRegular (extentOf p n t) Extent.IsRegular := by
  induction n using Nat.strong_induction_on generalizing t with
  | h n ih =>
    refine extentWith_induction (p := p)
      (M := fun _ m => Meets True True Memo.IsRegular m Extent.IsRegular)
      (fun t name args hdeclared => ?_)
      (fun t _ hparts => Shape.meets_isRegular (fun _ => isRegular_of_shape_eq_leaf) hparts) t
    by_cases hwrapped : isWrapped name args = true
    · exact meets_nominal_of_isWrapped hwrapped Extent.isRegular_pointer
    · -- what is being unfolded does not matter
      let I : List String → Memo → Prop := fun _ => Memo.IsRegular
      change Meets True True (I []) _ _
      refine meets_nominal hdeclared (Bool.eq_false_iff.2 hwrapped)
        (fun _ e hmemo hlookup => ?_) (fun _ _ _ => Extent.isRegular_pointer)
        (fun _ _ _ _ => trivial) (fun _ hmemo _ _ => hmemo) ?_ ?_
      · obtain ⟨before, after, hknown, -⟩ := lookup_eq_some_iff.1 hlookup
        exact hmemo (_, e) (hknown ▸ mem_append_right _ mem_cons_self)
      · rintro k memo rfl - -
        exact Shape.meets_isRegular (fun _ => isRegular_of_shape_eq_leaf)
          fun u _ => ih k (Nat.lt_succ_self k) u
      · intro _ memo last e _ _ _ _ hlast he
        exact forall_mem_cons.2 ⟨he, hlast⟩

theorem Follows.isRegular (h : Follows p {} memo) : memo.IsRegular :=
  h.invariant (fun depth t => (meets_isRegular p depth t).keeps) (forall_mem_nil _)

/-- After any queries, all known extents are regular and no type is being unfolded, and if a further
query for an extent answers, then its answer is regular. -/
theorem regular_of_follows (h : Follows p {} memo) :
    memo.unfolding = [] ∧ (∀ entry ∈ memo.known, entry.2.IsRegular) ∧
      ∀ depth t e memo', (extentOf p depth t).run memo = .ok (e, memo') → e.IsRegular :=
  ⟨(h.extends rfl).unfolding, h.isRegular,
    fun depth t _ _ hrun => ((meets_isRegular p depth t).of_run_eq_ok h.isRegular hrun).2⟩

/-- After a query for an enum that contains itself beside structs that contain each other. -/
theorem regular_of_follows_entwined :
    ∃ memo, (extentOf entwined 3 (.ofName "Row" [.prim .i64])).run {} = .ok (⟨32, 8⟩, memo) ∧
      memo.unfolding = [] ∧ memo.known.map Prod.snd = [⟨32, 8⟩, ⟨16, 8⟩, ⟨8, 8⟩] ∧
      ∀ entry ∈ memo.known, entry.2.IsRegular := by
  have hanswer : ((extentOf entwined 3 (.ofName "Row" [.prim .i64])).run {}).toOption.map
      (Prod.map id fun memo => memo.known.map Prod.snd) =
        some (⟨32, 8⟩, [⟨32, 8⟩, ⟨16, 8⟩, ⟨8, 8⟩]) := by
    decide +kernel
  cases hrun : (extentOf entwined 3 (.ofName "Row" [.prim .i64])).run {} with
  | error fault =>
    rw [hrun] at hanswer
    cases hanswer
  | ok answer =>
    rw [hrun] at hanswer
    obtain ⟨e, memo⟩ := answer
    obtain ⟨rfl, hknown⟩ := Prod.mk.inj (Option.some.inj hanswer)
    obtain ⟨hunfolding, hregular, -⟩ := regular_of_follows (.extentOf .refl hrun)
    exact ⟨memo, rfl, hunfolding, hknown, hregular⟩

end Layout

end Monomorph
