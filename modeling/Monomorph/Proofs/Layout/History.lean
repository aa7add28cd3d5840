import Monomorph.Proofs.Layout.Depth

/-!
# Queries and what was asked before

A type that is being unfolded counts as a pointer inside itself. If two types contain each other,
it depends on which of them is asked for first what the other one counts as, and the memo keeps that
answer. If no two types inside a type contain each other, then there is no such choice: the extent
of the type follows from the definitions, with a pointer only where a type lies directly inside
itself, and every query gives that extent whatever was asked before. This takes types that symbols
tell apart, since the memo is kept by symbols.

## Main results

* `Layout.Sized.unique`, `Layout.settles_extentOf`, `Layout.extentOf_eq_of_history`,
  `Layout.extentOf_tangled`.
-/

namespace Monomorph.Layout

open List

variable {p : Program} {n : Nat} {keys : List String} {self self' : Option Ty} {t t' u : Ty}
  {e e' : Extent} {F : Ty → Extent → Prop} {f g : Ty → Extent} {extent : Ty → Query Extent}
  {deep wide : Prop} {I : Memo → Prop}

/-! ### Extents of shapes -/

namespace Shape

/-- The extent of a shape, given the extents of its parts. -/
def eval (f : Ty → Extent) : Shape → Except Overflow Extent
  | .leaf e => .ok e
  | .record fields => Extent.record (fields.map f)
  | .overlay fields => Extent.overlay (fields.map f)
  | .array elem length => Extent.array (f elem) length
  | .tagged payloads => enumExtent (wordsFor ((payloads.map f).map Extent.size))
  | .blocks fields => fields.foldrM (fun own base => Extent.record (base :: own.map f)) .pointer

theorem eval_congr {s : Shape} (h : ∀ t ∈ s.parts, f t = g t) : s.eval f = s.eval g := by
  cases s with
  | leaf e => rfl
  | record fields => exact congrArg Extent.record (map_congr_left h)
  | overlay fields => exact congrArg Extent.overlay (map_congr_left h)
  | tagged payloads =>
    exact congrArg (fun es => enumExtent (wordsFor (es.map Extent.size))) (map_congr_left h)
  | array elem length => rw [eval, eval, h elem mem_cons_self]
  | blocks fields =>
    rw [eval, eval]
    induction fields with
    | nil => rfl
    | cons own ancestors ih =>
      obtain ⟨hown, hancestors⟩ := forall_mem_append.1 h
      rw [foldrM_cons, foldrM_cons, ih hancestors, map_congr_left hown]

theorem eval_map (change : Ty → Ty) (s : Shape) :
    (s.map change).eval f = s.eval fun t => f (change t) := by
  cases s with
  | leaf e => rfl
  | record fields => exact congrArg Extent.record map_map
  | overlay fields => exact congrArg Extent.overlay map_map
  | tagged payloads =>
    exact congrArg (fun es => enumExtent (wordsFor (es.map Extent.size))) map_map
  | array elem length => rfl
  | blocks fields =>
    rw [map, eval, eval, foldrM_map]
    simp only [map_map]
    rfl

end Shape

theorem eq_map_of_forall₂ {ts : List Ty} {es : List Extent}
    (hunique : ∀ t ∈ ts, ∀ e, F t e → e = f t) (h : List.Forall₂ F ts es) :
    es = ts.map f ∧ ∀ t ∈ ts, F t (f t) := by
  induction h with
  | nil => exact ⟨rfl, forall_mem_nil _⟩
  | cons he _ ih =>
    obtain ⟨hown, hrest⟩ := forall_mem_cons.1 hunique
    obtain ⟨heq, hmem⟩ := ih hrest
    have hext := hown _ he
    exact ⟨by rw [hext, heq, map_cons], forall_mem_cons.2 ⟨hext ▸ he, hmem⟩⟩

/-- A query that follows a shape computes its extent from the extents of the parts. -/
theorem Shape.meets_eval {s : Shape} (hunique : ∀ t ∈ s.parts, ∀ e, F t e → e = f t)
    (h : ∀ t ∈ s.parts, Meets deep wide I (extent t) (F t))
    (herror : (¬ ∃ e, s.eval f = .ok e) → wide) :
    Meets deep wide I (s.extentWith extent)
      fun e => (∀ t ∈ s.parts, F t (f t)) ∧ s.eval f = .ok e := by
  cases s with
  | leaf e => exact meets_pure ⟨forall_mem_nil _, rfl⟩
  | record fields | overlay fields | tagged payloads =>
    refine (meets_mapM h).bind fun es hes => ?_
    obtain ⟨rfl, hparts⟩ := eq_map_of_forall₂ hunique hes
    exact meets_checked (fun e he => ⟨hparts, he⟩) herror
  | array elem length =>
    refine (h elem mem_cons_self).bind fun elemExtent helem => ?_
    cases hunique elem mem_cons_self _ helem
    exact meets_checked (fun e he => ⟨forall_mem_singleton.2 helem, he⟩) herror
  | blocks fields =>
    rw [eval] at herror
    rw [eval, Shape.extentWith]
    induction fields with
    | nil => exact meets_pure ⟨forall_mem_nil _, rfl⟩
    | cons own ancestors ih =>
      obtain ⟨hown, hancestors⟩ := forall_mem_append.1 h
      obtain ⟨hownUnique, hancestorsUnique⟩ := forall_mem_append.1 hunique
      rw [foldrM_cons] at herror
      rw [foldrM_cons, foldrM_cons]
      refine (ih hancestorsUnique hancestors fun hno => herror ?_).bind
        fun base hbase => (meets_mapM hown).bind fun es hes => ?_
      · rintro ⟨e, he⟩
        cases hbase : ancestors.foldrM (fun own base => Extent.record (base :: own.map f))
            Extent.pointer with
        | ok base => exact hno ⟨base, hbase⟩
        | error o =>
          rw [hbase] at he
          cases he
      · obtain ⟨rfl, hparts⟩ := eq_map_of_forall₂ hownUnique hes
        rw [hbase.2] at herror ⊢
        exact meets_checked (fun e he => ⟨forall_mem_append.2 ⟨hparts, hbase.1⟩, he⟩) herror

/-! ### Extents that follow from the definitions -/

/-- The shape of a type with the qualifiers of its parts erased. -/
def erasedShape (p : Program) (t : Ty) : Shape := (shape p t).map Ty.unqualified

/-- The nearest remembered type around the parts of a type that lies inside `self`. -/
def innermost (self : Option Ty) (t : Ty) : Option Ty :=
  if isRemembered t then some t.unqualified else self

/-- The extents that follow from the definitions for a type inside `self`, the nearest remembered
type around it. A type directly inside itself counts as a pointer. -/
inductive Sized (p : Program) : Option Ty → Ty → Extent → Prop
  | inner {self : Option Ty} {t : Ty} (ht : isRemembered t = true)
      (hself : self = some t.unqualified) : Sized p self t .pointer
  | unfold {self : Option Ty} {t : Ty} {f : Ty → Extent} {e : Extent}
      (hself : isRemembered t = true → self ≠ some t.unqualified)
      (hparts : ∀ u ∈ (erasedShape p t).parts, Sized p (innermost self t) u (f u))
      (h : (erasedShape p t).eval f = .ok e) : Sized p self t e

/-- At most one extent follows from the definitions. -/
theorem Sized.unique (h : Sized p self t e) (h' : Sized p self t e') : e = e' := by
  induction h generalizing e' with
  | inner ht hself =>
    cases h' with
    | inner => rfl
    | unfold hself' => exact absurd hself (hself' ht)
  | unfold hself _ h ih =>
    cases h' with
    | inner ht hself' => exact absurd hself' (hself ht)
    | unfold _ hparts' h' =>
      rw [Shape.eval_congr fun u hu => ih u hu (hparts' u hu)] at h
      exact Except.ok.inj (h.symm.trans h')

theorem isRemembered_congr (h : t.unqualified = t'.unqualified) :
    isRemembered t = isRemembered t' := by
  rw [← isRemembered_unqualified t, h, isRemembered_unqualified]

theorem Sized.congr (h : t.unqualified = t'.unqualified) (ht : Sized p self t e) :
    Sized p self t' e := by
  have hremembered := isRemembered_congr h
  cases ht with
  | inner ht hself => exact .inner (hremembered ▸ ht) (hself.trans (congrArg some h))
  | unfold hself hparts heval =>
    have hshape : erasedShape p t = erasedShape p t' := map_unqualified_shape h
    rw [innermost, hremembered, h, hshape] at hparts
    rw [hshape] at heval
    rw [hremembered, h] at hself
    exact .unfold hself hparts heval

/-- What lies around a remembered type does not matter, if it is another type. -/
theorem Sized.change_self (ht : isRemembered t = true) (hself : self ≠ some t.unqualified)
    (hself' : self' ≠ some t.unqualified) (h : Sized p self t e) : Sized p self' t e := by
  cases h with
  | inner _ heq => exact absurd heq hself
  | unfold _ hparts heval =>
    rw [innermost, if_pos ht] at hparts
    refine .unfold (fun _ => hself') ?_ heval
    rwa [innermost, if_pos ht]

/-- What lies around a type does not matter if it does not lie inside the type again. -/
theorem Sized.change_around (h : Sized p self t e)
    (hself : ∀ w, self = some w → ¬ Relation.ReflTransGen (Part p) w t.unqualified)
    (hself' : ∀ w, self' = some w → ¬ Relation.ReflTransGen (Part p) w t.unqualified) :
    Sized p self' t e := by
  induction h with
  | inner _ heq => exact absurd .refl (hself _ heq)
  | @unfold self t f e hne hparts heval ih =>
    by_cases ht : isRemembered t = true
    · exact (Sized.unfold hne hparts heval).change_self ht (hne ht) fun heq => hself' _ heq .refl
    · refine .unfold (fun h => absurd h ht) (fun u hu => ?_) heval
      have hmem := hu
      rw [erasedShape, Shape.parts_map] at hmem
      obtain ⟨v, hv, rfl⟩ := mem_map.1 hmem
      have hinside : ∀ w, ¬ Relation.ReflTransGen (Part p) w t.unqualified →
          ¬ Relation.ReflTransGen (Part p) w v.unqualified.unqualified := by
        intro w hw hwithin
        rw [Ty.unqualified_unqualified] at hwithin
        exact hw (hwithin.tail (part_of_mem hv))
      rw [innermost, if_neg ht] at ih ⊢
      exact ih _ hu (fun w hw => hinside w (hself w hw)) fun w hw => hinside w (hself' w hw)

theorem not_within_of_innermost (ht : ¬ Relation.TransGen (Part p) t.unqualified t.unqualified)
    (hu : u ∈ (shape p t).parts) {w : Ty} (hw : innermost none t = some w) :
    ¬ Relation.ReflTransGen (Part p) w u.unqualified := by
  rw [innermost] at hw
  split at hw
  · cases hw
    exact fun hwithin => ht (.tail' hwithin (part_of_mem hu))
  · cases hw

/-- The extent of a type that does not lie inside itself comes from those of its parts. -/
theorem Sized.exists_eval (h : Sized p none t e)
    (ht : ¬ Relation.TransGen (Part p) t.unqualified t.unqualified) :
    ∃ g, (∀ u ∈ (shape p t).parts, Sized p none u (g u)) ∧ (shape p t).eval g = .ok e := by
  cases h with
  | inner _ heq => cases heq
  | unfold _ hparts heval =>
    rw [erasedShape, Shape.eval_map] at heval
    refine ⟨_, fun u hu => ?_, heval⟩
    have hmem : u.unqualified ∈ (erasedShape p t).parts := by
      rw [erasedShape, Shape.parts_map]
      exact mem_map_of_mem hu
    refine ((hparts _ hmem).congr (Ty.unqualified_unqualified u)).change_around
      (fun w hw => not_within_of_innermost ht hu hw) ?_
    rintro w ⟨⟩

/-- Only the shape of a type matters for its extent, if it does not lie inside itself. -/
theorem Sized.of_shape_eq (h : Sized p none t e) (hshape : shape p t = shape p u)
    (ht : ¬ Relation.TransGen (Part p) t.unqualified t.unqualified)
    (hu : ¬ Relation.TransGen (Part p) u.unqualified u.unqualified) : Sized p none u e := by
  cases h with
  | inner _ heq => cases heq
  | unfold _ hparts heval =>
    have herased : erasedShape p t = erasedShape p u := congrArg (Shape.map Ty.unqualified) hshape
    refine .unfold (fun _ => (Option.some_ne_none _).symm) (fun v hv => ?_) (herased ▸ heval)
    rw [← herased] at hv
    have hsized := hparts v hv
    rw [erasedShape, Shape.parts_map] at hv
    obtain ⟨x, hx, rfl⟩ := mem_map.1 hv
    refine hsized.change_around (fun w hw => ?_) fun w hw => ?_ <;>
      rw [Ty.unqualified_unqualified]
    · exact not_within_of_innermost ht hx hw
    · exact not_within_of_innermost hu (hshape ▸ hx) hw

/-! ### Types that do not contain each other -/

/-- No two remembered types inside a type contain each other. -/
def Untangled (p : Program) (t : Ty) : Prop :=
  ∀ u v, Within p u t → isRemembered u = true → isRemembered v = true →
    Within p u v → Within p v u → u.unqualified = v.unqualified

theorem Untangled.of_within (h : Untangled p t) (hu : Within p u t) : Untangled p u :=
  fun v w hv => h v w (hv.trans hu)

theorem within_of_unqualified_eq (h : t.unqualified = t'.unqualified) : Within p t t' := by
  rw [Within, h]

/-- Types are untangled if going to what lies inside them comes to an end. -/
theorem untangled_of_acc (h : Acc (Part p) t.unqualified) : Untangled p t := by
  intro u v hu _ _ huv hvu
  by_contra hne
  have hacc : Acc (Part p) u.unqualified := by
    obtain heq | hu := Relation.reflTransGen_iff_eq_or_transGen.1 hu
    · rwa [← heq]
    · exact h.inv_of_transGen hu
  have hstep := (Relation.reflTransGen_iff_eq_or_transGen.1 huv).resolve_left (Ne.symm hne)
  exact not_transGen_of_acc hacc (hstep.trans_left hvu)

/-- Types are untangled if they can be ranked, so that no type has a lower rank than its parts and
no two remembered types have one rank. -/
theorem untangled_of_rank {ts : List Ty} (rank : Ty → Nat)
    (hparts : ∀ w ∈ ts, ∀ u ∈ (shape p w).parts,
      u.unqualified ∈ ts.map Ty.unqualified ∧ rank u.unqualified ≤ rank w.unqualified)
    (hrank : ∀ u ∈ ts, ∀ v ∈ ts, isRemembered u = true → isRemembered v = true →
      rank u.unqualified = rank v.unqualified → u.unqualified = v.unqualified) (ht : t ∈ ts) :
    Untangled p t := by
  have hclosed : ∀ w ∈ ts, ∀ u ∈ (shape p w).parts, u.unqualified ∈ ts.map Ty.unqualified :=
    fun w hw u hu => (hparts w hw u hu).1
  have hle : ∀ {s t : Ty}, Relation.ReflTransGen (Part p) s t → t ∈ ts.map Ty.unqualified →
      rank s ≤ rank t := by
    intro s t h ht
    induction h using Relation.ReflTransGen.head_induction_on with
    | refl => exact Nat.le_refl _
    | head hpart hrest ih =>
      obtain ⟨part, hpart, rfl⟩ := hpart
      obtain ⟨w, hw, rfl⟩ := mem_map.1 (mem_of_reflTransGen_part hclosed hrest ht)
      obtain ⟨u, hu, heq⟩ := exists_mem_parts (Ty.unqualified_unqualified w).symm hpart
      rw [← heq]
      exact (hparts w hw u hu).2.trans ih
  intro u v hu hremembered hremembered' huv hvu
  obtain ⟨u', hu', heq⟩ := mem_map.1 (mem_of_reflTransGen_part hclosed hu (mem_map_of_mem ht))
  obtain ⟨v', hv', heq'⟩ := mem_map.1
    (mem_of_reflTransGen_part hclosed (hvu.trans hu) (mem_map_of_mem ht))
  rw [← heq, ← heq']
  rw [← isRemembered_congr heq] at hremembered
  rw [← isRemembered_congr heq'] at hremembered'
  refine hrank u' hu' v' hv' hremembered hremembered' (Nat.le_antisymm ?_ ?_)
  · rw [heq, heq']
    exact hle huv (heq' ▸ mem_map_of_mem hv')
  · rw [heq, heq']
    exact hle hvu (heq ▸ mem_map_of_mem hu')

/-! ### Memos -/

/-- Types that symbols tell apart up to qualifiers, with all types inside them. -/
structure TellsApart (p : Program) (S : Ty → Prop) : Prop where
  parts : ∀ t, S t → ∀ u ∈ (shape p t).parts, S u
  symbol : ∀ t u, S t → S u → isRemembered t = true → isRemembered u = true →
    t.symbol = u.symbol → t.unqualified = u.unqualified

/-- Symbols tell types with clean names apart. -/
theorem tellsApart_writable (hp : p.HasCleanTypes) : TellsApart p Ty.Writable where
  parts _ := hp.writable_parts
  symbol _ _ ht hu _ _ := Symbol.unqualified_eq_of_symbol_eq ht hu

variable {S : Ty → Prop} {memo : Memo}

/-- The memos that queries lead to, where only certain types and types made of them were asked
for. -/
inductive History (p : Program) (S : Ty → Prop) : Memo → Prop
  | fresh : History p S {}
  | extentOf {depth : Nat} {t : Ty} {e : Extent} {memo memo' : Memo} (hmemo : History p S memo)
      (ht : S t) (h : (extentOf p depth t).run memo = .ok (e, memo')) : History p S memo'
  | payloadWords {depth : Nat} {d : EnumDef} {args : List Ty} {words : UInt64} {memo memo' : Memo}
      (hmemo : History p S memo) (hpayloads : ∀ t ∈ payloads d args, S t)
      (h : (payloadWords p depth d args).run memo = .ok (words, memo')) : History p S memo'
  | classExtent {depth : Nat} {d : ClassDef} {args : List Ty} {e : Extent} {memo memo' : Memo}
      (hmemo : History p S memo) (hparts : ∀ t ∈ (classShape p d args).parts, S t)
      (h : (classExtent p depth d args).run memo = .ok (e, memo')) : History p S memo'

theorem Reachable.history (hp : p.HasCleanTypes) (h : Reachable p memo) :
    History p Ty.Writable memo := by
  induction h with
  | initial => exact .fresh
  | extentOf _ ht h ih => exact ih.extentOf ht h
  | payloadWords _ hd hargs h ih => exact ih.payloadWords (EnumDef.writable_payloads hd hargs) h
  | classExtent _ hd hargs h ih => exact ih.classExtent (hp.writable_classParts hd hargs) h

/-- A memo while certain types are being unfolded: none of these is known, and what is known of
untangled types follows from the definitions. -/
structure Sound (p : Program) (S : Ty → Prop) (keys : List String) (memo : Memo) : Prop where
  unfolding : memo.unfolding = keys
  unknown : ∀ key ∈ keys, memo.known.lookup key = none
  known : ∀ t e, S t → isRemembered t = true → memo.known.lookup t.symbol = some e →
    Untangled p t → Sized p none t e

/-- Where a query for a type stands: nothing is being unfolded, or the type lies inside `self`, and
all other types being unfolded lie around `self`. -/
inductive Around (p : Program) (S : Ty → Prop) : List String → Option Ty → Ty → Prop
  | outermost (t : Ty) : Around p S [] none t
  | inside {keys : List String} {u t : Ty} (hkey : u.symbol ∈ keys) (hu : isRemembered u = true)
      (hkeys : ∀ key ∈ keys, ∃ w, S w ∧ isRemembered w = true ∧ w.symbol = key ∧ Within p u w)
      (ht : Within p t u) : Around p S keys (some u.unqualified) t

section

variable (h : Around p S keys self t)

include h

theorem Around.part (hu : u ∈ (shape p t).parts) : Around p S keys self u := by
  cases h with
  | outermost => exact .outermost u
  | inside hkey hremembered hkeys ht =>
    exact .inside hkey hremembered hkeys ((within_of_mem hu).trans ht)

/-- The types being unfolded lie around the type. -/
theorem Around.exists_of_mem {key : String} (hkey : key ∈ keys) :
    ∃ w, S w ∧ isRemembered w = true ∧ w.symbol = key ∧ Within p t w := by
  cases h with
  | outermost => cases hkey
  | inside _ _ hkeys ht =>
    obtain ⟨w, hw, hremembered, hsymbol, hwithin⟩ := hkeys key hkey
    exact ⟨w, hw, hremembered, hsymbol, ht.trans hwithin⟩

/-- Unfolding a type puts it around its parts. -/
theorem Around.unfold (ht : S t) (hremembered : isRemembered t = true)
    (hu : u ∈ (shape p t).parts) : Around p S (t.symbol :: keys) (some t.unqualified) u := by
  exact .inside mem_cons_self hremembered (forall_mem_cons.2
    ⟨⟨t, ht, hremembered, rfl, .refl t⟩, fun _ => h.exists_of_mem⟩) (within_of_mem hu)

/-- A type whose symbol is not among those being unfolded is not the type around it. -/
theorem Around.ne_of_notMem (hnew : t.symbol ∉ keys) : self ≠ some t.unqualified := by
  rintro rfl
  generalize hself : some t.unqualified = self at h
  cases h with
  | outermost => cases hself
  | inside hkey =>
    rw [← symbol_eq_of_unqualified_eq (Option.some.inj hself)] at hkey
    exact hnew hkey

/-- An untangled type that is being unfolded is the type around itself. -/
theorem Around.eq_of_mem (hS : TellsApart p S) (ht : S t) (hremembered : isRemembered t = true)
    (huntangled : Untangled p t) (hmem : t.symbol ∈ keys) : self = some t.unqualified := by
  cases h with
  | outermost => cases hmem
  | @inside _ u _ _ hu hkeys htu =>
    obtain ⟨w, hw, hremembered', hsymbol, hwithin⟩ := hkeys _ hmem
    have hsame := hS.symbol w t hw ht hremembered' hremembered hsymbol
    have hut : Within p u t := hwithin.trans (within_of_unqualified_eq hsame)
    rw [huntangled u t hut hu hremembered hut htu]

end

/-! ### Answers -/

/-- What a query for the extent of a type inside `self` does: if the type is untangled, then the
answer follows from the definitions, and an overflow means that no extent does. -/
def Settles (p : Program) (S : Ty → Prop) (keys : List String) (self : Option Ty) (t : Ty)
    (m : Query Extent) : Prop :=
  Meets True (Untangled p t → ¬ ∃ e, Sized p self t e) (Sound p S keys) m
    fun e => Untangled p t → Sized p self t e

theorem settles_shape (hself : isRemembered t = true → self ≠ some t.unqualified)
    (h : ∀ u ∈ (shape p t).parts, Settles p S keys (innermost self t) u (extent u)) :
    Settles p S keys self t ((shape p t).extentWith extent) := by
  by_cases huntangled : Untangled p t
  · -- the extents of the parts are the only ones that follow from the definitions
    let f : Ty → Extent := fun u => Classical.epsilon (Sized p (innermost self t) u)
    have hunique : ∀ u e, Sized p (innermost self t) u e → e = f u :=
      fun u e he => he.unique (Classical.epsilon_spec ⟨e, he⟩)
    have hmem : ∀ u ∈ (shape p t).parts, u.unqualified ∈ (erasedShape p t).parts := by
      intro u hu
      rw [erasedShape, Shape.parts_map]
      exact mem_map_of_mem hu
    have heval : (erasedShape p t).eval f = (shape p t).eval fun u => f u.unqualified :=
      Shape.eval_map _ _
    have hparts : ∀ u ∈ (shape p t).parts, Meets True (¬ ∃ e, Sized p self t e) (Sound p S keys)
        (extent u) (Sized p (innermost self t) u) := by
      intro u hu
      have hu' := huntangled.of_within (within_of_mem hu)
      refine (h u hu).mono id (fun hno ⟨e, he⟩ => hno hu' ?_) fun e he => he hu'
      cases he with
      | inner ht hself' => exact absurd hself' (hself ht)
      | unfold _ hparts' _ =>
        exact ⟨_, (hparts' _ (hmem u hu)).congr (Ty.unqualified_unqualified u)⟩
    have herror : (¬ ∃ e, (shape p t).eval (fun u => f u.unqualified) = .ok e) →
        ¬ ∃ e, Sized p self t e := by
      rintro hno ⟨e, he⟩
      cases he with
      | inner ht hself' => exact absurd hself' (hself ht)
      | unfold _ hparts' he =>
        rw [Shape.eval_congr fun u hu => hunique u _ (hparts' u hu), heval] at he
        exact hno ⟨e, he⟩
    refine (Shape.meets_eval (fun u _ e he => ?_) hparts herror).mono id (fun h _ => h) ?_
    · exact hunique _ e (he.congr (Ty.unqualified_unqualified u).symm)
    · rintro e ⟨hsized, he⟩ -
      refine .unfold (f := f) hself ?_ (heval.trans he)
      rw [erasedShape, Shape.parts_map]
      exact forall_mem_map.2 fun v hv => (hsized v hv).congr (Ty.unqualified_unqualified v).symm
  · exact (Shape.keeps fun u hu => (h u hu).keeps).mono id (fun _ h => absurd h huntangled)
      fun _ _ h => absurd h huntangled

theorem sized_of_isWrapped {name : String} {args : List Ty}
    (hdeclared : t.declared? = some (name, args)) (hwrapped : isWrapped name args = true) :
    Sized p self t .pointer := by
  have hremembered : isRemembered t = false := by
    rw [isRemembered_of_declared? hdeclared, hwrapped]
    rfl
  have hshape : erasedShape p t = .leaf .pointer := by
    rw [erasedShape, shape_of_declared? hdeclared, nominalShape, if_pos hwrapped]
    rfl
  refine .unfold (f := fun _ => .pointer)
    (fun h => absurd h (Bool.eq_false_iff.1 hremembered)) ?_ ?_ <;> rw [hshape]
  · exact forall_mem_nil _
  · rfl

/-- What is known of a type follows from the definitions wherever it is asked for. -/
theorem Sound.sized (hmemo : Sound p S keys memo) (haround : Around p S keys self t) (ht : S t)
    (hremembered : isRemembered t = true) (hlookup : memo.known.lookup t.symbol = some e)
    (huntangled : Untangled p t) : Sized p self t e := by
  have hnew : t.symbol ∉ keys := fun hmem => by
    rw [hmemo.unknown _ hmem] at hlookup
    cases hlookup
  exact (hmemo.known t e ht hremembered hlookup huntangled).change_self hremembered
    (Option.some_ne_none _).symm (haround.ne_of_notMem hnew)

/-- The memo stays sound when an unfolded type is remembered. -/
theorem Sound.remember (hS : TellsApart p S) (haround : Around p S keys self t) (ht : S t)
    (hremembered : isRemembered t = true) (hnew : t.symbol ∉ keys) {last : Memo}
    (hlast : Sound p S (t.symbol :: keys) last) (he : Untangled p t → Sized p self t e) :
    Sound p S keys { known := (t.symbol, e) :: last.known,
                     unfolding := last.unfolding.erase t.symbol } where
  unfolding := by
    rw [hlast.unfolding]
    exact erase_cons_head ..
  unknown key hkey := by
    have hne : (key == t.symbol) = false := beq_false_of_ne fun heq => hnew (heq ▸ hkey)
    rw [lookup_cons, hne]
    exact hlast.unknown key (mem_cons_of_mem _ hkey)
  known u e' hu hremembered' hlookup huntangled := by
    rw [lookup_cons] at hlookup
    split at hlookup
    next hsymbol =>
      cases hlookup
      have heq := hS.symbol u t hu ht hremembered' hremembered (eq_of_beq hsymbol)
      have hsized := he (huntangled.of_within (within_of_unqualified_eq heq.symm))
      exact (hsized.change_self hremembered (haround.ne_of_notMem hnew)
        (Option.some_ne_none _).symm).congr heq.symm
    · exact hlast.known u e' hu hremembered' hlookup huntangled

/-- The answers to queries about the extent of a type. -/
theorem settles_extentOf (hS : TellsApart p S) (ht : S t) (haround : Around p S keys self t) :
    Settles p S keys self t (extentOf p n t) := by
  induction n using Nat.strong_induction_on generalizing t keys self with
  | h n ih =>
    refine extentWith_induction (p := p) (M := fun t m => S t → Around p S keys self t →
      Settles p S keys self t m) (fun t name args hdeclared ht haround => ?_)
      (fun t hdeclared hparts ht haround => ?_) t ht haround
    · by_cases hwrapped : isWrapped name args = true
      · exact meets_nominal_of_isWrapped hwrapped fun _ => sized_of_isWrapped hdeclared hwrapped
      · have hremembered : isRemembered t = true := by
          rw [isRemembered_of_declared? hdeclared, Bool.eq_false_iff.2 hwrapped]
          rfl
        have hinner : innermost self t = some t.unqualified := if_pos hremembered
        refine meets_nominal (I := Sound p S) hdeclared (Bool.eq_false_iff.2 hwrapped)
          (fun _ _ hmemo => hmemo.sized haround ht hremembered) ?_ (fun _ _ _ _ => trivial) ?_ ?_ ?_
        · intro memo hmemo hmem huntangled
          rw [hmemo.unfolding] at hmem
          exact .inner hremembered (haround.eq_of_mem hS ht hremembered huntangled hmem)
        · intro memo hmemo hlookup _
          exact ⟨congrArg _ hmemo.unfolding, forall_mem_cons.2 ⟨hlookup, hmemo.unknown⟩,
            hmemo.known⟩
        · rintro k memo rfl hmemo hnew
          rw [hmemo.unfolding] at hnew
          refine settles_shape (fun _ => haround.ne_of_notMem hnew) fun u hu => ?_
          rw [hinner]
          exact ih k (Nat.lt_succ_self k) (hS.parts t ht u hu) (haround.unfold ht hremembered hu)
        · intro _ memo last e hmemo _ hnew _ hlast he
          rw [hmemo.unfolding] at hnew
          exact hlast.remember hS haround ht hremembered hnew he
    · have hremembered : ¬ isRemembered t = true := by
        rw [isRemembered, hdeclared]
        exact Bool.false_ne_true
      have hinner : innermost self t = self := if_neg hremembered
      refine settles_shape (fun h => absurd h hremembered) fun u hu => ?_
      rw [hinner]
      exact hparts u hu (hS.parts t ht u hu) (haround.part hu)

/-- What queries about certain types keep, every history of such queries keeps. -/
theorem History.invariant (hkeeps : ∀ depth t, S t → Keeps I (Layout.extentOf p depth t))
    (hfresh : I {}) (h : History p S memo) : I memo := by
  induction h with
  | fresh => exact hfresh
  | extentOf _ ht h ih => exact ((hkeeps _ _ ht).of_run_eq_ok ih h).1
  | payloadWords _ hpayloads h ih =>
    exact ((meets_payloadWordsWith (F := fun _ _ => True)
      fun t ht => hkeeps _ t (hpayloads t ht)).of_run_eq_ok ih h).1
  | classExtent _ hparts h ih =>
    rw [Layout.classExtent, classExtentWith_eq] at h
    exact ((Shape.keeps fun t ht => hkeeps _ t (hparts t ht)).of_run_eq_ok ih h).1

/-- After any queries, what is known of untangled types follows from the definitions, and no type
is being unfolded. -/
theorem History.sound (hS : TellsApart p S) (h : History p S memo) : Sound p S [] memo :=
  h.invariant (fun _ t ht => (settles_extentOf hS ht (.outermost t)).keeps)
    ⟨rfl, forall_mem_nil _, fun _ _ _ _ hlookup => by cases hlookup⟩

/-- The extent of an untangled type does not depend on what was asked before: if the query for it
returns an extent after some queries, then after any others it does not overflow, and the extent
that it returns is the same. -/
theorem extentOf_eq_of_history (hS : TellsApart p S) (ht : S t) (huntangled : Untangled p t)
    {memo memo' last : Memo} (hmemo : History p S memo) (hmemo' : History p S memo')
    {depth depth' : Nat} (hrun : (extentOf p depth t).run memo = .ok (e, last)) :
    (∀ e' last', (extentOf p depth' t).run memo' = .ok (e', last') → e' = e) ∧
      ∀ operation, (extentOf p depth' t).run memo' ≠ .error (.overflow operation) := by
  have hsized : Sized p none t e :=
    ((settles_extentOf hS ht (.outermost t)).of_run_eq_ok (hmemo.sound hS) hrun).2 huntangled
  have hother := settles_extentOf (n := depth') hS ht (.outermost t) memo' (hmemo'.sound hS)
  refine ⟨fun e' last' hrun' => ?_, fun operation hrun' => ?_⟩
  · rw [hrun'] at hother
    exact (hother.2 huntangled).unique hsized
  · rw [hrun'] at hother
    exact hother huntangled ⟨e, hsized⟩

/-- A struct that contains itself, and one that contains it twice, beside a payload of an enum. -/
def knotted : Program where
  home := {
    structs := .ofList [
      { name := "Node"
        fields := [
          { name := "next", ty := .ofName "Node" [] },
          { name := "value", ty := .prim .i8 }] },
      { name := "Pair"
        fields := [
          { name := "first", ty := .ofName "Node" [] },
          { name := "rest", ty := .tuple [.ofName "Cell" [.ofName "Node" []], .prim .i8] }] }]
    enums := .ofList [
      { name := "Cell", generics := ["A"]
        variants := [{ name := "Full", payload := [.param "A"] }, { name := "Empty" }] }] }

theorem extentOf_eq_of_history_knotted :
    knotted.HasCleanTypes ∧ Untangled knotted (.ofName "Pair" []) ∧
      ∃ memo last, History knotted Ty.Writable memo ∧ memo.known.lookup "Node" = some ⟨16, 8⟩ ∧
        (extentOf knotted 3 (.ofName "Pair" [])).run {} = .ok (⟨48, 8⟩, last) ∧
        (∀ e last', (extentOf knotted 2 (.ofName "Pair" [])).run memo = .ok (e, last') →
          e = ⟨48, 8⟩) ∧
        ∀ operation, (extentOf knotted 2 (.ofName "Pair" [])).run memo ≠
          .error (.overflow operation) := by
  let ts : List Ty := [.prim .i8, .ofName "Node" [], .ofName "Cell" [.ofName "Node" []],
    .tuple [.ofName "Cell" [.ofName "Node" []], .prim .i8], .ofName "Pair" []]
  have hp : knotted.HasCleanTypes := by decide +kernel
  have huntangled : Untangled knotted (.ofName "Pair" []) :=
    untangled_of_rank (fun t => ts.idxOf t) (by decide +kernel) (by decide +kernel)
      (by decide +kernel : Ty.ofName "Pair" [] ∈ ts)
  have hcell : (extentOf knotted 2 (.ofName "Cell" [.ofName "Node" []])).run {} =
      .ok (⟨24, 8⟩, { known := [("Cell__Node", ⟨24, 8⟩), ("Node", ⟨16, 8⟩)] }) := by
    decide +kernel
  have hpair : (extentOf knotted 3 (.ofName "Pair" [])).run {} =
      .ok (⟨48, 8⟩,
        { known := [("Pair", ⟨48, 8⟩), ("Cell__Node", ⟨24, 8⟩), ("Node", ⟨16, 8⟩)] }) := by
    decide +kernel
  have hmemo : History knotted Ty.Writable _ := .extentOf .fresh (by decide +kernel) hcell
  exact ⟨hp, huntangled, _, _, hmemo, rfl, hpair, extentOf_eq_of_history (tellsApart_writable hp)
    (by decide +kernel) huntangled .fresh hmemo hpair⟩

/-- Two structs that contain each other. -/
def tangled : Program where
  home := {
    structs := .ofList [
      { name := "Left", fields := [{ name := "right", ty := .ofName "Right" [] }] },
      { name := "Right"
        fields := [
          { name := "left", ty := .ofName "Left" [] },
          { name := "value", ty := .prim .i32 }] }] }

/-- The extent of a type that contains another one which contains it depends on which of the two was
asked for first. -/
theorem extentOf_tangled :
    tangled.HasCleanTypes ∧
      ((extentOf tangled 2 (.ofName "Left" [])).run {}).toOption.map Prod.fst = some ⟨16, 8⟩ ∧
      ∃ memo, History tangled Ty.Writable memo ∧
        ((extentOf tangled 2 (.ofName "Left" [])).run memo).toOption.map Prod.fst =
          some ⟨8, 8⟩ := by
  have hright : (extentOf tangled 2 (.ofName "Right" [])).run {} =
      .ok (⟨16, 8⟩, { known := [("Right", ⟨16, 8⟩), ("Left", ⟨8, 8⟩)] }) := by
    decide +kernel
  exact ⟨by decide +kernel, by decide +kernel, _, .extentOf .fresh (by decide +kernel) hright,
    by decide +kernel⟩

end Monomorph.Layout
