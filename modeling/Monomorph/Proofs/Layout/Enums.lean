import Monomorph.Proofs.Layout.Bodies
import Monomorph.Proofs.Layout.Upcast

/-!
# Sizes and payloads of enums

The words for the payloads of an enum are asked for in two ways: on the way to its extent, while the
enum is being unfolded, and directly, when its body is written. What a memo knows of a type that
does not lie inside itself is what unfolding the type again gives, since none of the types around it
is met on the way. So the two ways agree for such enums. An enum inside itself counts as a pointer
in the first way and as itself in the second.

The payload is stored at offset 8, at an alignment of 8. That is enough for every alignment but that
of 128-bit integers.

## Main results

* `Layout.size_le_of_payloadWords`, `Layout.History.recalls`, `Layout.enumExtent_of_queries`,
  `Layout.align_eq_iff_holdsWide`, `Layout.payload_aligned_iff`.
-/

namespace Monomorph.Layout

open List Relation

variable {p : Program} {S : Ty → Prop} {n n' : Nat} {t u : Ty} {keys : List String}
  {self : Option Ty} {e : Extent} {memo memo' : Memo} {d : EnumDef} {args : List Ty}
  {words : UInt64} {g : Ty → Extent} {es : List Extent}

/-! ### Queries that unfold nothing -/

theorem Shape.extentWith_map (extent : Ty → Query Extent) (change : Ty → Ty) (s : Shape) :
    (s.map change).extentWith extent = s.extentWith fun t => extent (change t) := by
  cases s with
  | leaf | array => rfl
  | record fields | overlay fields | tagged fields =>
    simp only [map, extentWith, mapM_map, Function.comp_def]
  | blocks fields => simp only [map, extentWith, foldrM_map, mapM_map, Function.comp_def]

theorem nominal_zero_congr {name : String} {args' : List Ty} {t' : Ty}
    (hsymbol : t.symbol = t'.symbol) (hwrapped : isWrapped name args = isWrapped name args') :
    nominal p 0 t name args = nominal p 0 t' name args' := by
  funext memo
  have hrun := run_nominal p 0 t name args memo
  rw [hsymbol, hwrapped] at hrun
  exact hrun.trans (run_nominal p 0 t' name args' memo).symm

mutual

/-- Qualifiers do not matter to a query that unfolds nothing. -/
theorem extentOf_zero_unqualified : (t : Ty) → extentOf p 0 t.unqualified = extentOf p 0 t
  | .named qualifier name args => by
      have hsymbol := symbol_unqualified (.named qualifier name args)
      rw [extentOf, extentOf, Ty.extentWith, Ty.unqualified, Ty.extentWith]
      exact nominal_zero_congr hsymbol (isWrapped_congr (Ty.unqualifiedList_unqualifiedList args) _)
  | .tuple elems => by
      rw [extentOf, extentOf, Ty.unqualified, Ty.extentWith, Ty.extentWith,
        extentsWith_zero_unqualifiedList elems]
  | .array elem length => by
      have helem := extentOf_zero_unqualified elem
      rw [extentOf, extentOf] at helem
      rw [extentOf, extentOf, Ty.unqualified, Ty.extentWith, Ty.extentWith, helem]
  | .prim _ | .ref .. | .ptr _ | .func .. | .closure .. | .slice _ | .dyn .. | .classRef _ => by
      simp only [extentOf, Ty.unqualified, Ty.extentWith]

theorem extentsWith_zero_unqualifiedList : (ts : List Ty) →
    Ty.extentsWith (nominal p 0) (Ty.unqualifiedList ts) = Ty.extentsWith (nominal p 0) ts
  | [] => rfl
  | t :: ts => by
      have ht := extentOf_zero_unqualified t
      rw [extentOf, extentOf] at ht
      rw [Ty.unqualifiedList, Ty.extentsWith, Ty.extentsWith, ht,
        extentsWith_zero_unqualifiedList ts]

end

theorem extentWith_zero_congr (h : t.unqualified = u.unqualified) :
    (shape p t).extentWith (extentOf p 0) = (shape p u).extentWith (extentOf p 0) := by
  have hmap := congrArg (Shape.extentWith (extentOf p 0)) (map_unqualified_shape (p := p) h)
  simpa only [Shape.extentWith_map, extentOf_zero_unqualified] using hmap

/-! ### Payloads fit -/

theorem toNat_foldl_max (sizes : List UInt64) (size : UInt64) :
    (sizes.foldl max size).toNat = (sizes.map UInt64.toNat).foldl max size.toNat := by
  induction sizes generalizing size with
  | nil => rfl
  | cons other sizes ih => rw [foldl_cons, ih, Extent.toNat_max, map_cons, foldl_cons]

/-- The words for some payloads hold each of them. -/
theorem le_wordsFor {sizes : List UInt64} {size : UInt64} (h : size ∈ sizes) :
    size.toNat ≤ 8 * (wordsFor sizes).toNat := by
  have hle : size.toNat ≤ (sizes.foldl max 0).toNat := by
    rw [toNat_foldl_max]
    exact le_foldl_max _ _ _ (mem_cons_of_mem _ (mem_map_of_mem h))
  rw [wordsFor]
  generalize sizes.foldl max 0 = largest at hle
  have hround : (Word.ceilDiv largest 8).toNat = (largest.toNat + 7) / 8 :=
    Word.toNat_ceilDiv (by decide)
  omega

/-- A payload fits into the words of its enum, where both come from one memo. -/
theorem size_le_of_payloadWords (hmemo : memo.unfolding = [])
    (h : (payloadWords p n d args).run memo = .ok (words, memo')) (ht : t ∈ payloads d args)
    {later : Memo} (hlater : memo'.Grows later) (he : (extentOf p 0 t).run later = .ok (e, later)) :
    e.size.toNat ≤ 8 * words.toNat := by
  obtain ⟨es, last, hrun, h⟩ := exists_of_run_bind h
  cases h
  have hes := forall₂_of_run_mapM
    (fun t _ => repeats_extentOf n 0 t fun _ _ _ => not_mem_nil) (.refl hmemo) hrun hlater
  obtain ⟨e', hmem, he'⟩ := exists_of_forall₂ hes t ht
  cases he.symm.trans he'
  exact le_wordsFor (mem_map_of_mem hmem)

/-! ### What is known is what unfolding gives -/

/-- Unfolding a known type that does not lie inside itself gives the extent that is known. -/
def Recalls (p : Program) (S : Ty → Prop) (memo : Memo) : Prop :=
  ∀ t e, S t → isRemembered t = true → ¬ TransGen (Part p) t.unqualified t.unqualified →
    memo.known.lookup t.symbol = some e →
      ∀ later, memo.Grows later → ((shape p t).extentWith (extentOf p 0)).run later = .ok (e, later)

/-- A type that does not lie inside itself meets none of the types around it, nor itself. -/
theorem notMem_of_within (hS : TellsApart p S) (ht : S t) (hremembered : isRemembered t = true)
    (hloop : ¬ TransGen (Part p) t.unqualified t.unqualified) (haround : Around p S keys self t)
    (hu : u ∈ (shape p t).parts) {v : Ty} (hv : Within p v u) (hv' : isRemembered v = true) :
    v.symbol ∉ t.symbol :: keys := by
  have hS' : ∀ {s : Ty}, ReflTransGen (Part p) s u.unqualified → ∃ v, S v ∧ v.unqualified = s := by
    intro s h
    induction h using ReflTransGen.head_induction_on with
    | refl => exact ⟨u, hS.parts t ht u hu, rfl⟩
    | head hpart _ ih =>
      obtain ⟨w, hw, rfl⟩ := ih
      obtain ⟨part, hpart, rfl⟩ := hpart
      obtain ⟨x, hx, heq⟩ := exists_mem_parts (Ty.unqualified_unqualified w).symm hpart
      exact ⟨x, hS.parts w hw x hx, heq⟩
  intro hmem
  obtain ⟨w, hw, hremembered', hsymbol, hwithin⟩ :
      ∃ w, S w ∧ isRemembered w = true ∧ w.symbol = v.symbol ∧ Within p t w := by
    obtain heq | hmem := mem_cons.1 hmem
    · exact ⟨t, ht, hremembered, heq.symm, .refl t⟩
    · exact haround.exists_of_mem hmem
  obtain ⟨x, hx, heq⟩ := hS' hv
  have hsame : w.unqualified = x.unqualified := hS.symbol w x hw hx hremembered'
    ((isRemembered_congr heq).trans hv') (hsymbol.trans (symbol_eq_of_unqualified_eq heq).symm)
  rw [heq] at hsame
  rw [Within, hsame] at hwithin
  exact hloop (.tail' (hwithin.trans hv) (part_of_mem hu))

/-- Queries keep what they know in accord with what unfolding gives. -/
theorem keeps_recalls (hS : TellsApart p S) (ht : S t) (haround : Around p S keys self t) :
    Keeps (fun memo => Extends {} keys memo ∧ Recalls p S memo) (extentOf p n t) := by
  induction n using Nat.strong_induction_on generalizing t keys self with
  | h n ih =>
    let I : List String → Memo → Prop := fun keys memo => Extends {} keys memo ∧ Recalls p S memo
    refine extentWith_induction (p := p)
      (M := fun t m => S t → Around p S keys self t → Keeps (I keys) m)
      (fun t name args hdeclared ht haround => ?_)
      (fun t _ hparts ht haround =>
        Shape.keeps fun u hu => hparts u hu (hS.parts t ht u hu) (haround.part hu)) t ht haround
    by_cases hwrapped : isWrapped name args = true
    · exact meets_nominal_of_isWrapped hwrapped trivial
    have hremembered : isRemembered t = true := by
      rw [isRemembered_of_declared? hdeclared, Bool.eq_false_iff.2 hwrapped]
      rfl
    refine meets_nominal (I := I) hdeclared (Bool.eq_false_iff.2 hwrapped)
      (fun _ _ _ _ => trivial) (fun _ _ _ => trivial) (fun _ _ _ _ => trivial)
      (fun memo hmemo hlookup _ => ⟨hmemo.1.unfold hlookup, hmemo.2⟩) ?_ ?_
    · rintro k memo rfl - -
      exact Shape.keeps fun u hu => ih k (Nat.lt_succ_self k) (hS.parts t ht u hu)
        (haround.unfold ht hremembered hu)
    · intro k memo last e hmemo hlookup hnew hrun hlast _
      rw [hmemo.1.unfolding] at hnew
      refine ⟨hlast.1.remember hnew rfl e, ?_⟩
      have hgrows :=
        (hlast.1.self.remember hnew (hlast.1.unknown _ mem_cons_self) e).grows
      intro u e' hu hremembered' hloop hfound later hlater
      rw [lookup_cons] at hfound
      split at hfound
      · -- this is the type that has just been unfolded
        rename_i hsymbol
        cases hfound
        have heq := hS.symbol u t hu ht hremembered' hremembered (eq_of_beq hsymbol)
        rw [heq] at hloop
        rw [extentWith_zero_congr heq]
        have hrepeats : Repeats (t.symbol :: keys) ((shape p t).extentWith (extentOf p k))
            ((shape p t).extentWith (extentOf p 0)) :=
          (lifts_repeats _).shape fun x hx => repeats_extentOf k 0 x fun v hv hv' =>
            notMem_of_within hS ht hremembered hloop haround hx hv hv'
        exact (hrepeats _ _ _ (hmemo.1.unfold hlookup).self hrun).2 later (hgrows.trans hlater)
      · exact hlast.2 u e' hu hremembered' hloop hfound later (hgrows.trans hlater)

theorem History.recalls (hS : TellsApart p S) (h : History p S memo) :
    Extends {} [] memo ∧ Recalls p S memo :=
  h.invariant (fun _ t ht => keeps_recalls hS ht (.outermost t))
    ⟨.refl rfl, fun _ _ _ _ _ hlookup => by cases hlookup⟩

/-! ### Sizes of enums -/

/-- A type that was asked for is known. -/
theorem lookup_of_run_extentOf {qualifier name : String} (hwrapped : isWrapped name args = false)
    (hmemo : memo.unfolding = [])
    (h : (extentOf p n (.named qualifier name args)).run memo = .ok (e, memo')) :
    memo'.known.lookup (Ty.named qualifier name args).symbol = some e := by
  obtain ⟨hextends, hagain⟩ :=
    repeats_extentOf n 0 _ (fun _ _ _ => not_mem_nil) memo e memo' (.refl hmemo) h
  have hrun := hagain memo' (.refl memo')
  rw [extentOf, Ty.extentWith, run_nominal, if_neg (Bool.eq_false_iff.1 hwrapped),
    hextends.unfolding] at hrun
  cases hlookup : memo'.known.lookup (Ty.named qualifier name args).symbol with
  | some found =>
    rw [hlookup] at hrun
    cases hrun
    rfl
  | none =>
    rw [hlookup] at hrun
    cases hrun

section Queries

variable {qualifier : String} {memo₁ last₁ memo₂ last₂ : Memo} (hS : TellsApart p S)
  (hd : p.enum? d.name = some d) (hstruct : p.struct? d.name = none)
  (hwrapped : isWrapped d.name args = false) (ht : S (.named qualifier d.name args))
  (hinside : ¬ TransGen (Part p) (Ty.named qualifier d.name args).unqualified
    (Ty.named qualifier d.name args).unqualified)
  (hmemo₁ : History p S memo₁) (hmemo₂ : Follows p {} memo₂)
  (he : (extentOf p n (.named qualifier d.name args)).run memo₁ = .ok (e, last₁))
  (hwords : (payloadWords p n' d args).run memo₂ = .ok (words, last₂))
  (hsame : Follows p last₁ memo₂ ∨ Follows p last₂ memo₁)

include hS hd hstruct hwrapped ht hinside hmemo₁ hmemo₂ he hwords hsame

/-- The extent of an enum that does not lie inside itself is the one that the words for its payloads
give, whether these are asked for before or after it. -/
theorem enumExtent_eq_of_queries : enumExtent words = .ok e := by
  have hremembered : isRemembered (.named qualifier d.name args) = true := by
    rw [isRemembered_of_declared? rfl, hwrapped]
    rfl
  have hempty := (hmemo₁.recalls hS).1.unfolding
  have hlookup := lookup_of_run_extentOf hwrapped hempty he
  have hrecalls := (hmemo₁.extentOf ht he).recalls hS
  obtain ⟨hlast₂, hagain⟩ := repeats_payloadWords p n' 0 d args memo₂ words last₂
    (.refl (hmemo₂.extends rfl).unfolding) hwords
  -- a memo on which both answers can be had again
  have hlast₁ := ((keeps_extends n _ memo₁ []).of_run_eq_ok (.refl hempty) he).1
  obtain ⟨later, hlater₁, hlater₂⟩ := hlast₁.exists_grows hlast₂ hsame
  have hshape : shape p (.named qualifier d.name args) = .tagged (payloads d args) := by
    rw [shape, nominalShape_of_not_isWrapped hwrapped, definitionShape, hstruct, hd]
  have hquery : (Shape.tagged (payloads d args)).extentWith (extentOf p 0) =
      payloadWords p 0 d args >>= fun words => checked (enumExtent words) := by
    rw [payloadWords, payloadWordsWith, Shape.extentWith, bind_assoc]
    rfl
  have hunfold := hrecalls.2 _ e ht hremembered hinside hlookup later hlater₁
  rw [hshape, hquery, StateT.run_bind, hagain later hlater₂] at hunfold
  change (checked (enumExtent words)).run later = .ok (e, later) at hunfold
  cases hextent : enumExtent words with
  | error overflow =>
    rw [hextent] at hunfold
    cases hunfold
  | ok e' =>
    rw [hextent] at hunfold
    cases hunfold
    rfl

/-- The size of an enum that does not lie inside itself is that of a tag and of the words for its
payloads, whether these are asked for before or after the extent. -/
theorem enumExtent_of_queries :
    enumExtent words = .ok e ∧
      e.size.toNat = if words = 0 then 4 else 8 + 8 * words.toNat := by
  have hextent := enumExtent_eq_of_queries hS hd hstruct hwrapped ht hinside hmemo₁ hmemo₂ he hwords
    hsame
  have hfootprint := congrArg Footprint.size (Extent.footprint_of_enumExtent hextent)
  rw [apply_ite Footprint.size, Nat.mul_comm] at hfootprint
  exact ⟨hextent, hfootprint⟩

end Queries

/-- An enum with a payload that lies inside itself, though the enum does not. -/
def cellDef : EnumDef where
  name := "Cell"
  generics := ["A"]
  variants := [{ name := "Full", payload := [.param "A"] }, { name := "Empty" }]

theorem not_transGen_cell : ¬ TransGen (Part knotted) (.ofName "Cell" [.ofName "Node" []])
      (.ofName "Cell" [.ofName "Node" []]) := by
  let ts : List Ty := [.ofName "Node" [], .prim .i8]
  have hclosed : ∀ w ∈ ts, ∀ u ∈ (shape knotted w).parts,
      u.unqualified ∈ ts.map Ty.unqualified := by
    decide +kernel
  have hparts : ∀ u ∈ (shape knotted (.ofName "Cell" [.ofName "Node" []])).parts,
      u.unqualified ∈ ts.map Ty.unqualified := by
    decide +kernel
  intro hloop
  obtain ⟨_, hrest, part, hpart, rfl⟩ := TransGen.tail'_iff.1 hloop
  exact absurd (mem_of_reflTransGen_part hclosed hrest (hparts part hpart)) (by decide +kernel)

theorem enumExtent_of_queries_knotted :
    knotted.enum? "Cell" = some cellDef ∧
      ∃ memo last, (extentOf knotted 2 (.ofName "Cell" [.ofName "Node" []])).run {} =
          .ok (⟨24, 8⟩, memo) ∧
        (payloadWords knotted 0 cellDef [.ofName "Node" []]).run memo = .ok (2, last) ∧
        enumExtent 2 = .ok ⟨24, 8⟩ := by
  have hd : knotted.enum? cellDef.name = some cellDef := rfl
  have hcell : (extentOf knotted 2 (.ofName "Cell" [.ofName "Node" []])).run {} =
      .ok (⟨24, 8⟩, { known := [("Cell__Node", ⟨24, 8⟩), ("Node", ⟨16, 8⟩)] }) := by
    decide +kernel
  have hwords : (payloadWords knotted 0 cellDef [.ofName "Node" []]).run
      { known := [("Cell__Node", ⟨24, 8⟩), ("Node", ⟨16, 8⟩)] } =
        .ok (2, { known := [("Cell__Node", ⟨24, 8⟩), ("Node", ⟨16, 8⟩)] }) := by
    decide +kernel
  have ht : Ty.Writable (.named "" cellDef.name [.ofName "Node" []]) := by decide +kernel
  have hextent := enumExtent_of_queries (tellsApart_writable (by decide +kernel)) hd rfl
    (by decide +kernel) ht not_transGen_cell .fresh (.extentOf .refl hcell) hcell hwords
    (.inl .refl)
  exact ⟨hd, _, _, hcell, hwords, hextent.1⟩

/-- An enum that lies inside itself. -/
def nestDef : EnumDef where
  name := "Nest"
  variants := [{ name := "Deep", payload := [.ofName "Nest" []] }]

/-- A program with an enum that lies inside itself. -/
def nested : Program where
  home := { enums := .ofList [nestDef] }

/-- An enum counts as a pointer inside itself while its extent is computed, but as itself when the
words for its payloads are asked for. -/
theorem enumExtent_nested :
    nested.HasCleanTypes ∧ nested.enum? "Nest" = some nestDef ∧
      ∃ memo, (extentOf nested 1 (.ofName "Nest" [])).run {} = .ok (⟨16, 8⟩, memo) ∧
        (payloadWords nested 1 nestDef []).run memo = .ok (2, memo) ∧
        enumExtent 2 = .ok ⟨24, 8⟩ :=
  ⟨by decide +kernel, rfl, { known := [("Nest", ⟨16, 8⟩)] }, by decide +kernel, by decide +kernel,
    by decide +kernel⟩

/-! ### Wide types -/

/-- A type holds a 128-bit integer that is in no enum inside it. -/
inductive HoldsWide (p : Program) : Ty → Prop
  | wide {kind : Primitive} (h : kind = .i128 ∨ kind = .u128) : HoldsWide p (.prim kind)
  | part {t u : Ty} (ht : ∀ payloads, shape p t ≠ .tagged payloads) (hu : u ∈ (shape p t).parts)
      (h : HoldsWide p u) : HoldsWide p t

theorem align_eq_iff_of_strictest (hes : ∀ e ∈ es, e.IsRegular)
    (h : e.align.toNat = strictest (es.map Extent.footprint)) :
    e.align.toNat = 16 ↔ ∃ e' ∈ es, e'.align.toNat = 16 := by
  constructor
  · intro he
    obtain hone | ⟨_, hmember, halign⟩ := strictest_mem (es.map Extent.footprint)
    · omega
    · obtain ⟨e', he', rfl⟩ := mem_map.1 hmember
      exact ⟨e', he', halign.trans (h.symm.trans he)⟩
  · rintro ⟨e', he', halign⟩
    have hle : e'.align.toNat ≤ e.align.toNat :=
      h ▸ align_le_strictest (mem_map_of_mem (f := Extent.footprint) he')
    have hlast := Extent.strictest_mem_of_isRegular hes
    simp only [← h, mem_cons, not_mem_nil, or_false] at hlast
    omega

theorem align_of_record (hes : ∀ e ∈ es, e.IsRegular) (h : Extent.record es = .ok e) :
    e.IsRegular ∧ (e.align.toNat = 16 ↔ ∃ e' ∈ es, e'.align.toNat = 16) :=
  ⟨Extent.isRegular_record hes h,
    align_eq_iff_of_strictest hes (Extent.isRecord_of_record_eq_ok hes h).align⟩

theorem align_of_blocks {fields : List (List Ty)} (hfields : ∀ u ∈ fields.flatten, (g u).IsRegular)
    (h : fields.foldrM (fun own base => Extent.record (base :: own.map g)) .pointer = .ok e) :
    e.IsRegular ∧ (e.align.toNat = 16 ↔ ∃ u ∈ fields.flatten, (g u).align.toNat = 16) := by
  induction fields generalizing e with
  | nil =>
    cases h
    exact ⟨Extent.isRegular_pointer, by simp [Extent.pointer]⟩
  | cons own ancestors ih =>
    obtain ⟨hown, hancestors⟩ := forall_mem_append.1 hfields
    rw [foldrM_cons] at h
    cases hbase : ancestors.foldrM (fun own base => Extent.record (base :: own.map g))
        Extent.pointer with
    | error overflow =>
      rw [hbase] at h
      cases h
    | ok base =>
      rw [hbase] at h
      obtain ⟨hbase, hwide⟩ := ih hancestors hbase
      obtain ⟨he, hiff⟩ :=
        align_of_record (forall_mem_cons.2 ⟨hbase, forall_mem_map.2 hown⟩) h
      refine ⟨he, hiff.trans ?_⟩
      simp only [exists_mem_cons_iff, hwide, flatten_cons, mem_append, or_and_right,
        exists_or, mem_map, exists_exists_and_eq_and]
      exact or_comm

/-- A shape other than a leaf is aligned to 16 bytes if one of its parts is and if it is no enum. -/
theorem Shape.align_of_eval {s : Shape} (hleaf : ∀ e, s ≠ .leaf e)
    (hparts : ∀ u ∈ s.parts, (g u).IsRegular) (h : s.eval g = .ok e) :
    e.IsRegular ∧ (e.align.toNat = 16 ↔
      (∀ payloads, s ≠ .tagged payloads) ∧ ∃ u ∈ s.parts, (g u).align.toNat = 16) := by
  cases s with
  | leaf e => exact (hleaf e rfl).elim
  | record fields =>
    have hes := forall_mem_map.2 hparts
    simpa [Shape.parts] using align_of_record hes h
  | overlay fields =>
    have hes := forall_mem_map.2 hparts
    have halign := Extent.align_of_overlay_eq_ok h
    refine ⟨Extent.isRegular_overlay hes h, ?_⟩
    simpa [Shape.parts] using align_eq_iff_of_strictest hes halign
  | array elem length =>
    have helem := hparts elem mem_cons_self
    refine ⟨Extent.isRegular_array helem h, ?_⟩
    simp [Shape.parts, Extent.align_of_array_eq_ok h]
  | tagged payloads =>
    refine ⟨Extent.isRegular_enumExtent h, ?_⟩
    have halign : e.align.toNat = _ := congrArg Footprint.align (Extent.footprint_of_enumExtent h)
    rw [halign, apply_ite Footprint.align]
    simp only [ne_eq, Shape.tagged.injEq, forall_eq', false_and, iff_false]
    split <;> simp
  | blocks fields => simpa [Shape.parts] using align_of_blocks hparts h

/-- A type with finite containment is aligned to 16 bytes just if it holds a 128-bit integer outside
of enums. -/
theorem align_of_sized (hacc : Acc (Part p) t.unqualified) (h : Sized p none t e) :
    e.IsRegular ∧ (e.align.toNat = 16 ↔ HoldsWide p t) := by
  generalize ht : t.unqualified = erased at hacc
  induction hacc generalizing t e with
  | intro erased hacc ih =>
    subst ht
    obtain ⟨g, hg, heval⟩ := h.exists_eval (not_transGen_of_acc ⟨_, hacc⟩)
    have hparts : ∀ u ∈ (shape p t).parts,
        (g u).IsRegular ∧ ((g u).align.toNat = 16 ↔ HoldsWide p u) :=
      fun u hu => ih _ (part_of_mem hu) (hg u hu) rfl
    by_cases hleaf : ∃ e', shape p t = .leaf e'
    · obtain ⟨e', hleaf⟩ := hleaf
      rw [hleaf] at heval
      cases heval
      refine ⟨isRegular_of_shape_eq_leaf hleaf, fun halign => ?_, fun hwide => ?_⟩
      · obtain ⟨kind, rfl, rfl⟩ | rfl | rfl := eq_of_shape_eq_leaf hleaf
        · refine .wide ?_
          cases kind <;> first | exact .inl rfl | exact .inr rfl | cases halign
        · cases halign
        · cases halign
      · cases hwide with
        | wide hkind =>
          cases hleaf
          obtain rfl | rfl := hkind <;> rfl
        | part _ hu =>
          rw [hleaf] at hu
          cases hu
    · obtain ⟨he, hiff⟩ :=
        Shape.align_of_eval (not_exists.1 hleaf) (fun u hu => (hparts u hu).1) heval
      refine ⟨he, hiff.trans ⟨?_, fun hwide => ?_⟩⟩
      · rintro ⟨htagged, u, hu, halign⟩
        exact .part htagged hu ((hparts u hu).2.1 halign)
      · cases hwide with
        | wide => exact (hleaf ⟨_, rfl⟩).elim
        | part htagged hu hwide => exact ⟨htagged, _, hu, (hparts _ hu).2.2 hwide⟩

/-- The alignment that a query answers tells whether the type holds a 128-bit integer. -/
theorem align_eq_iff_holdsWide (hS : TellsApart p S) (ht : S t)
    (hacc : Acc (Part p) t.unqualified) (hmemo : History p S memo)
    (h : (extentOf p n t).run memo = .ok (e, memo')) : e.align.toNat = 16 ↔ HoldsWide p t :=
  (align_of_sized hacc (((settles_extentOf hS ht (.outermost t)).of_run_eq_ok (hmemo.sound hS) h).2
    (untangled_of_acc hacc))).2

/-! ### Offsets of payloads -/

/-- The offset of a field of an aggregate. -/
def FieldAt (bodies : String → IR.Ty → Prop) (fields : List IR.Ty) (i offset : Nat) : Prop :=
  ∃ members, List.Forall₂ (IR.Ty.HasFootprint bodies) fields members ∧ MemberAt 0 members i offset

/-- The words of an enum are at offset 8. -/
theorem fieldAt_words (bodies : String → IR.Ty → Prop) (words : UInt64) (offset : Nat) :
    FieldAt bodies [.i32, .array words .i64] 1 offset ↔ offset = 8 := by
  have htag : FirstMultiple 4 0 0 := ⟨by omega, by omega, by omega⟩
  have hpayload : FirstMultiple 8 4 8 := ⟨by omega, by omega, by omega⟩
  have hmember : MemberAt 0 [⟨4, 4⟩, ⟨words.toNat * 8, 8⟩] 1 8 := .tail htag (.head hpayload)
  constructor
  · rintro ⟨members, hmembers, hoffset⟩
    rw [IR.Ty.forall₂_words_iff] at hmembers
    subst hmembers
    exact hoffset.unique hmember
  · rintro rfl
    exact ⟨_, (IR.Ty.forall₂_words_iff bodies words _).2 rfl, hmember⟩

/-- Where an enum stores a payload that is not empty: in words at offset 8, aligned to 8 bytes. That
is the alignment which a query answers for the enum itself, if it does not lie inside itself. The
payload is aligned there unless its alignment is 16. A payload with finite containment has that
alignment just if it holds a 128-bit integer outside of enums. -/
theorem payload_aligned_iff {session : Session} {symbol : String} {variant : VariantDef}
    {s s' : Build} {events : List (Script.Event Step.Answer)}
    (hs : Follows session.program {} s.memo)
    (hrun : Script.Runs (Step.perform session) (Gen.defineEnum d args symbol) s events () s')
    (hvariant : variant ∈ d.variants) (hpayload : d.payload? variant args = some t)
    (hmemo : Follows session.program {} memo)
    (he : (extentOf session.program n t).run memo = .ok (e, memo')) (hsize : e.size ≠ 0)
    (hsame : Follows session.program memo' s.memo ∨ Follows session.program s'.memo memo) :
    ∃ words : UInt64, words ≠ 0 ∧
      ⟨.defineType ("%struct." ++ symbol) (.anon [.i32, .array words .i64]), ()⟩ ∈ events ∧
      (∀ bodies offset, FieldAt bodies [.i32, .array words .i64] 1 offset ↔ offset = 8) ∧
      (∀ bodies f, IR.Ty.HasFootprint bodies (.anon [.i32, .array words .i64]) f ↔
        f = ⟨8 + words.toNat * 8, 8⟩) ∧
      (∀ own, enumExtent words = .ok own → own.align = 8) ∧
      (∀ S qualifier k own memo₁ last₁, TellsApart session.program S →
        session.program.enum? d.name = some d → session.program.struct? d.name = none →
        isWrapped d.name args = false → S (.named qualifier d.name args) →
        ¬ TransGen (Part session.program) (Ty.named qualifier d.name args).unqualified
          (Ty.named qualifier d.name args).unqualified →
        History session.program S memo₁ →
        (extentOf session.program k (.named qualifier d.name args)).run memo₁ = .ok (own, last₁) →
        (Follows session.program last₁ s.memo ∨ Follows session.program s'.memo memo₁) →
          own.align = 8) ∧
      ((e.align.toNat ∣ 8 ∧ e.align.toNat ≤ 8) ↔ e.align.toNat ≠ 16) ∧
      ∀ S, TellsApart session.program S → S t → Acc (Part session.program) t.unqualified →
        History session.program S memo → (e.align.toNat ≠ 16 ↔ ¬ HoldsWide session.program t) := by
  obtain ⟨_, _, _, words, -, hwords, rfl⟩ := Gen.runs_defineEnum hrun
  have hempty := (hs.extends rfl).unfolding
  have hempty' := (hmemo.extends rfl).unfolding
  have hlast := (repeats_payloadWords session.program _ 0 d args _ words _ (.refl hempty) hwords).1
  obtain ⟨hnext, hagain⟩ :=
    repeats_extentOf n 0 t (fun _ _ _ => List.not_mem_nil) memo e memo' (.refl hempty') he
  -- a memo on which both answers can be had again
  obtain ⟨later, hlater', hlater⟩ := hnext.exists_grows hlast hsame
  have hmem : t ∈ payloads d args := List.mem_filterMap.2 ⟨variant, hvariant, hpayload⟩
  have hfits := size_le_of_payloadWords hempty hwords hmem hlater (hagain later hlater')
  have hne : words ≠ 0 := by
    rintro rfl
    exact hsize (UInt64.toNat_inj.1 (Nat.le_zero.1 hfits))
  have halign : ∀ own, enumExtent words = .ok own → own.align = 8 := by
    intro own hown
    have halign := congrArg Footprint.align (Extent.footprint_of_enumExtent hown)
    rw [if_neg hne] at halign
    exact UInt64.toNat_inj.1 halign
  refine ⟨words, hne, ?_, fun bodies => fieldAt_words bodies words,
    fun bodies => IR.Ty.hasFootprint_words_iff bodies words, halign,
    fun S qualifier k own memo₁ last₁ hS hd hstruct hwrapped ht hinside hmemo₁ hown hsame =>
      halign own (enumExtent_eq_of_queries hS hd hstruct hwrapped ht hinside hmemo₁ hs hown hwords
        hsame), ?_,
    fun S hS ht hacc hhistory => not_congr (align_eq_iff_holdsWide hS ht hacc hhistory he)⟩
  · rw [if_neg hne]
    exact List.mem_append_right _ (List.mem_cons_of_mem _ List.mem_cons_self)
  · have halign := ((meets_isRegular session.program n t).of_run_eq_ok hmemo.isRegular he).2
    have hcases : ∀ align ∈ [1, 2, 4, 8, 16], (align ∣ 8 ∧ align ≤ 8) ↔ align ≠ 16 := by decide
    exact hcases _ halign.align

theorem payload_aligned_iff_cell :
    ∃ events s', Script.Runs (Step.perform ⟨knotted, {}⟩)
        (Gen.defineEnum cellDef [.tuple [.prim .i32, .prim .bool]] "Cell__Entry") (.initial {})
        events () s' ∧
      (extentOf knotted 0 (.tuple [.prim .i32, .prim .bool])).run {} = .ok (⟨8, 4⟩, {}) ∧
      ¬ HoldsWide knotted (.tuple [.prim .i32, .prim .bool]) ∧
      ∃ words : UInt64, words ≠ 0 ∧
        ⟨.defineType "%struct.Cell__Entry" (.anon [.i32, .array words .i64]), ()⟩ ∈ events := by
  let session : Session := ⟨knotted, {}⟩
  let entry : Ty := .tuple [.prim .i32, .prim .bool]
  have he : (extentOf knotted 0 entry).run {} = .ok (⟨8, 4⟩, {}) := by decide +kernel
  have hacc : UnfoldsIn knotted 2 entry := by decide +kernel
  have hsome : ((Gen.defineEnum cellDef [entry] "Cell__Entry").run (Step.perform session)
      (.initial {})).toOption.isSome = true := by
    decide +kernel
  cases hresult : (Gen.defineEnum cellDef [entry] "Cell__Entry").run (Step.perform session)
      (.initial {}) with
  | error fault =>
    rw [hresult] at hsome
    cases hsome
  | ok result =>
    obtain ⟨⟨⟩, s'⟩ := result
    obtain ⟨events, hrun⟩ := Script.run_eq_ok_iff.1 hresult
    obtain ⟨words, hne, hbody, -, -, -, -, -, hwide⟩ := payload_aligned_iff
      (s := .initial {}) .refl hrun List.mem_cons_self
      (by decide +kernel : cellDef.payload? _ [entry] = some entry) .refl he (by decide)
      (.inl .refl)
    have hentry := hwide Ty.Writable (tellsApart_writable (by decide +kernel))
      (by decide +kernel) hacc.acc .fresh
    exact ⟨events, s', hrun, he, hentry.1 (by decide), words, hne, hbody⟩

/-- A 128-bit integer in an enum is neither at a multiple of its alignment, nor does the enum have
that alignment. -/
theorem payload_misaligned :
    (extentOf knotted 0 (.prim .i128)).run {} = .ok (⟨16, 16⟩, {}) ∧
      ((extentOf knotted 1 (.ofName "Cell" [.prim .i128])).run {}).toOption.map Prod.fst =
        some ⟨24, 8⟩ ∧
      ((payloadWords knotted 1 cellDef [.prim .i128]).run {}).toOption.map Prod.fst = some 2 ∧
      ∀ bodies offset, FieldAt bodies [.i32, .array 2 .i64] 1 offset → ¬ 16 ∣ offset := by
  refine ⟨by decide +kernel, by decide +kernel, by decide +kernel, fun bodies offset hoffset => ?_⟩
  rw [(fieldAt_words bodies 2 offset).1 hoffset]
  decide

end Monomorph.Layout
