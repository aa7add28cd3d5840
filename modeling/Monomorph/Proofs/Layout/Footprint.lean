import Mathlib.Data.List.Forall2
import Mathlib.Data.Nat.Basic
import Monomorph.IR.Ty
import Monomorph.Layout.Query
import Monomorph.Proofs.Script.Events

/-!
# Sizes and alignments of instruction types

The size and the alignment that the usual rules for C give to a type of the instruction stream,
as numbers without a bound. Members of an aggregate follow each other, each at the first multiple
of its alignment; the whole has the strictest alignment of its members, and its size is rounded up
to that. A name stands for the bodies that a relation gives to it.

Arithmetic on 64-bit words computes these numbers as long as it does not overflow.
-/

namespace Monomorph

open List

/-! ### Multiples -/

/-- The first multiple of `align` that is not below `start`. -/
structure FirstMultiple (align start offset : Nat) : Prop where
  dvd : align ∣ offset
  le : start ≤ offset
  lt : offset < start + align

/-- The next multiple of an alignment, without a bound; an alignment of zero or one asks for
nothing. -/
def nextMultiple (start align : Nat) : Nat :=
  if align ≤ 1 then start else (start + align - 1) / align * align

variable {align start offset offset' : Nat} {members : List Footprint}

theorem le_nextMultiple (start align : Nat) : start ≤ nextMultiple start align := by
  rw [nextMultiple]
  split
  · exact Nat.le_refl _
  · have hdiv := Nat.div_add_mod (start + align - 1) align
    have hmod := Nat.mod_lt (start + align - 1) (y := align) (by omega)
    rw [Nat.mul_comm] at hdiv
    omega

theorem firstMultiple_nextMultiple (start : Nat) (h : 0 < align) :
    FirstMultiple align start (nextMultiple start align) := by
  refine ⟨?_, le_nextMultiple start align, ?_⟩ <;> rw [nextMultiple] <;> split
  · rw [show align = 1 by omega]
    exact Nat.one_dvd _
  · exact Nat.dvd_mul_left _ _
  · omega
  · have := Nat.div_mul_le_self (start + align - 1) align
    omega

namespace FirstMultiple

/-- No multiple from the start on is smaller. -/
theorem le_of_dvd (h : FirstMultiple align start offset) (hdvd : align ∣ offset')
    (hle : start ≤ offset') : offset ≤ offset' := by
  by_contra hlt
  have hsmall : offset - offset' < align := by
    have := h.lt
    omega
  have hzero := Nat.eq_zero_of_dvd_of_lt (Nat.dvd_sub h.dvd hdvd) hsmall
  omega

theorem unique (h : FirstMultiple align start offset) (h' : FirstMultiple align start offset') :
    offset = offset' :=
  Nat.le_antisymm (h.le_of_dvd h'.dvd h'.le) (h'.le_of_dvd h.dvd h.le)

end FirstMultiple

/-! ### Arithmetic on words -/

namespace Word

variable {a b c : UInt64}

theorem add_eq_ok_iff : add a b = .ok c ↔ c.toNat = a.toNat + b.toNat := by
  rw [add]
  split
  next hfits =>
    have hsum : (a + b).toNat = a.toNat + b.toNat :=
      (UInt64.toNat_add a b).trans (Nat.mod_eq_of_lt hfits)
    rw [Except.ok.injEq, ← hsum, UInt64.toNat_inj, eq_comm]
  next hfits => exact iff_of_false (by rintro ⟨⟩) fun h => hfits (h ▸ c.toNat_lt_size)

theorem mul_eq_ok_iff : mul a b = .ok c ↔ c.toNat = a.toNat * b.toNat := by
  rw [mul]
  split
  next hfits =>
    have hproduct : (a * b).toNat = a.toNat * b.toNat :=
      (UInt64.toNat_mul a b).trans (Nat.mod_eq_of_lt hfits)
    rw [Except.ok.injEq, ← hproduct, UInt64.toNat_inj, eq_comm]
  next hfits => exact iff_of_false (by rintro ⟨⟩) fun h => hfits (h ▸ c.toNat_lt_size)

theorem toNat_ceilDiv (ha : 1 < a.toNat) :
    (ceilDiv b a).toNat = (b.toNat + a.toNat - 1) / a.toNat := by
  have hdiv := Nat.div_add_mod b.toNat a.toNat
  have hmod := Nat.mod_lt b.toNat (y := a.toNat) (by omega)
  have hzero : b % a = 0 ↔ b.toNat % a.toNat = 0 := by
    rw [← UInt64.toNat_inj, UInt64.toNat_mod, UInt64.toNat_zero]
  rw [ceilDiv, if_congr hzero rfl rfl]
  split
  next hzero =>
    rw [UInt64.toNat_div]
    refine (Nat.div_eq_of_lt_le ?_ ?_).symm
    · rw [Nat.mul_comm]
      omega
    · rw [Nat.add_mul, Nat.mul_comm]
      omega
  next hzero =>
    -- the quotient is at most half of the word, so that adding one does not wrap around
    have hquotient : b.toNat / a.toNat ≤ b.toNat / 2 := Nat.div_le_div_left (by omega) (by omega)
    have hword : b.toNat < 2 ^ 64 := b.toNat_lt
    rw [UInt64.toNat_add, UInt64.toNat_div, UInt64.toNat_one, Nat.mod_eq_of_lt (by omega)]
    refine (Nat.div_eq_of_lt_le ?_ ?_).symm
    · rw [Nat.add_mul, Nat.mul_comm]
      omega
    · rw [Nat.add_mul, Nat.add_mul, Nat.mul_comm]
      omega

/-- Rounding up gives the next multiple, if it fits. -/
theorem roundUp_eq_ok_iff : roundUp b a = .ok c ↔ c.toNat = nextMultiple b.toNat a.toNat := by
  have hone : a ≤ 1 ↔ a.toNat ≤ 1 := UInt64.le_iff_toNat_le
  rw [roundUp, nextMultiple, if_congr hone rfl rfl]
  split
  · rw [Except.ok.injEq, UInt64.toNat_inj, eq_comm]
  · rw [mul_eq_ok_iff, toNat_ceilDiv (by omega)]

theorem firstMultiple_of_roundUp_eq_ok (ha : 0 < a.toNat) (h : roundUp b a = .ok c) :
    FirstMultiple a.toNat b.toNat c.toNat :=
  roundUp_eq_ok_iff.1 h ▸ firstMultiple_nextMultiple _ ha

end Word

/-! ### Footprints -/

/-- A size and an alignment in bytes, without a bound. -/
structure Footprint where
  /-- The size. -/
  size : Nat
  /-- The alignment. -/
  align : Nat
  deriving DecidableEq

/-- The size and the alignment of an extent as numbers. -/
def Extent.footprint (e : Extent) : Footprint := ⟨e.size.toNat, e.align.toNat⟩

/-- Members that follow each other, each at the first multiple of its alignment. -/
inductive Placed : Nat → List Footprint → Nat → Prop
  | nil (start : Nat) : Placed start [] start
  | cons {start offset stop member members} (h : FirstMultiple member.align start offset)
      (hrest : Placed (offset + member.size) members stop) :
      Placed start (member :: members) stop

/-- The strictest alignment of some members. -/
def strictest (members : List Footprint) : Nat := (members.map Footprint.align).foldl max 1

/-- The footprint of members in order: it has the strictest alignment, and its size is the first
multiple of that after the members. -/
structure IsRecord (members : List Footprint) (whole : Footprint) : Prop where
  align : whole.align = strictest members
  size : ∃ stop, Placed 0 members stop ∧ FirstMultiple whole.align stop whole.size

private theorem foldl_max_mem (ns : List Nat) (n : Nat) : ns.foldl max n ∈ n :: ns := by
  induction ns generalizing n with
  | nil => exact mem_cons_self
  | cons m ns ih =>
    obtain h | h := mem_cons.1 (ih (max n m))
    · rw [foldl_cons, h]
      rcases Nat.le_total n m with hle | hle
      · rw [Nat.max_eq_right hle]
        exact mem_cons_of_mem _ mem_cons_self
      · rw [Nat.max_eq_left hle]
        exact mem_cons_self
    · exact mem_cons_of_mem _ (mem_cons_of_mem _ h)

theorem le_foldl_max (ns : List Nat) (n : Nat) : ∀ m ∈ n :: ns, m ≤ ns.foldl max n := by
  induction ns generalizing n with
  | nil => exact forall_mem_singleton.2 (Nat.le_refl n)
  | cons k ns ih =>
    obtain ⟨hmax, hrest⟩ := forall_mem_cons.1 (ih (max n k))
    exact forall_mem_cons.2 ⟨Nat.le_trans (Nat.le_max_left n k) hmax,
      forall_mem_cons.2 ⟨Nat.le_trans (Nat.le_max_right n k) hmax, hrest⟩⟩

/-- The strictest alignment is that of a member, if there is one. -/
theorem strictest_mem (members : List Footprint) :
    strictest members = 1 ∨ ∃ member ∈ members, member.align = strictest members := by
  obtain h | h := mem_cons.1 (foldl_max_mem (members.map Footprint.align) 1)
  · exact .inl h
  · exact .inr (mem_map.1 h)

theorem align_le_strictest {member : Footprint} (h : member ∈ members) :
    member.align ≤ strictest members :=
  le_foldl_max _ 1 _ (mem_cons_of_mem _ (mem_map_of_mem h))

theorem one_le_strictest (members : List Footprint) : 1 ≤ strictest members :=
  le_foldl_max _ 1 1 mem_cons_self

theorem Placed.unique {start stop stop' : Nat} (h : Placed start members stop)
    (h' : Placed start members stop') : stop = stop' := by
  induction h with
  | nil start =>
    cases h'
    rfl
  | cons hmember _ ih =>
    cases h' with
    | cons hmember' hrest' =>
      rw [hmember'.unique hmember] at hrest'
      exact ih hrest'

theorem IsRecord.unique {whole whole' : Footprint} (h : IsRecord members whole)
    (h' : IsRecord members whole') : whole = whole' := by
  obtain ⟨stop, hplaced, hsize⟩ := h.size
  obtain ⟨stop', hplaced', hsize'⟩ := h'.size
  have halign : whole.align = whole'.align := h.align.trans h'.align.symm
  rw [hplaced.unique hplaced', halign] at hsize
  cases whole
  cases whole'
  cases halign
  cases hsize.unique hsize'
  rfl

/-- An extent whose size is a multiple of its alignment. -/
structure Extent.IsPadded (e : Extent) : Prop where
  pos : 0 < e.align.toNat
  dvd : e.align.toNat ∣ e.size.toNat

namespace Extent

variable {e : Extent} {es : List Extent}

theorem isPadded_primitive (kind : Primitive) : kind.extent.IsPadded := by
  cases kind <;> exact ⟨by decide, by decide⟩

theorem isPadded_pointer : pointer.IsPadded := ⟨by decide, by decide⟩

theorem isPadded_fatPointer : fatPointer.IsPadded := ⟨by decide, by decide⟩

theorem toNat_max (a b : UInt64) : (max a b).toNat = max a.toNat b.toNat := by
  rcases Nat.le_total a.toNat b.toNat with hle | hle
  · rw [Nat.max_eq_right hle, UInt64.max_def, if_pos (UInt64.le_iff_toNat_le.2 hle)]
  · rw [Nat.max_eq_left hle, UInt64.max_def]
    split
    next hab => exact Nat.le_antisymm hle (UInt64.le_iff_toNat_le.1 hab)
    · rfl

/-- Placing fields one after the other from any start. -/
theorem placed_of_foldlM {acc last : Extent} (hes : ∀ e ∈ es, 0 < e.align.toNat)
    (h : es.foldlM place acc = .ok last) :
    Placed acc.size.toNat (es.map footprint) last.size.toNat ∧
      last.align.toNat = ((es.map footprint).map Footprint.align).foldl max acc.align.toNat := by
  induction es generalizing acc with
  | nil =>
    cases h
    exact ⟨.nil _, rfl⟩
  | cons e es ih =>
    obtain ⟨he, hes⟩ := forall_mem_cons.1 hes
    rw [foldlM_cons] at h
    obtain ⟨next, hplace, h⟩ := bind_eq_ok_iff.1 h
    obtain ⟨start, hstart, hplace⟩ := bind_eq_ok_iff.1 hplace
    obtain ⟨stop, hstop, hplace⟩ := bind_eq_ok_iff.1 hplace
    cases hplace
    obtain ⟨hplaced, halign⟩ := ih hes h
    rw [Word.add_eq_ok_iff.1 hstop] at hplaced
    rw [toNat_max] at halign
    exact ⟨.cons (Word.firstMultiple_of_roundUp_eq_ok he hstart) hplaced, halign⟩

/-- The extent of a record is the footprint of its members. -/
theorem isRecord_record (hes : ∀ e ∈ es, 0 < e.align.toNat) (h : record es = .ok e) :
    IsRecord (es.map footprint) e.footprint ∧ e.IsPadded := by
  obtain ⟨last, hlast, h⟩ := bind_eq_ok_iff.1 h
  obtain ⟨size, hsize, h⟩ := bind_eq_ok_iff.1 h
  cases h
  obtain ⟨hplaced, halign⟩ := placed_of_foldlM hes hlast
  have hpos : 0 < last.align.toNat := by
    rw [halign]
    exact one_le_strictest _
  have hround := Word.firstMultiple_of_roundUp_eq_ok hpos hsize
  exact ⟨⟨halign, last.size.toNat, hplaced, hround⟩, hpos, hround.dvd⟩

/-- The elements of an array follow each other without gaps. -/
theorem footprint_array {elem : Extent} {length : UInt64} (helem : elem.IsPadded)
    (h : array elem length = .ok e) :
    e.footprint = ⟨length.toNat * elem.size.toNat, elem.align.toNat⟩ ∧ e.IsPadded := by
  obtain ⟨stride, hstride, h⟩ := bind_eq_ok_iff.1 h
  obtain ⟨size, hsize, h⟩ := bind_eq_ok_iff.1 h
  cases h
  have hfirst : FirstMultiple elem.align.toNat elem.size.toNat elem.size.toNat :=
    ⟨helem.dvd, Nat.le_refl _, Nat.lt_add_of_pos_right helem.pos⟩
  have hsize' : size.toNat = length.toNat * elem.size.toNat := by
    rw [Word.mul_eq_ok_iff.1 hsize, Nat.mul_comm,
      (Word.firstMultiple_of_roundUp_eq_ok helem.pos hstride).unique hfirst]
  refine ⟨?_, helem.pos, ?_⟩
  · rw [footprint, hsize']
  · exact hsize' ▸ Nat.dvd_mul_left_of_dvd helem.dvd length.toNat

theorem isRecord_words (words : Nat) : IsRecord [⟨4, 4⟩, ⟨words * 8, 8⟩] ⟨8 + words * 8, 8⟩ where
  align := rfl
  size := by
    have htag : FirstMultiple 4 0 0 := ⟨by omega, by omega, by omega⟩
    have hpayload : FirstMultiple 8 4 8 := ⟨by omega, by omega, by omega⟩
    have hend : FirstMultiple 8 (8 + words * 8) (8 + words * 8) := ⟨by omega, by omega, by omega⟩
    exact ⟨_, .cons htag (.cons hpayload (.nil _)), hend⟩

/-- The size and the alignment of an enum follow from the words for its payloads. -/
theorem footprint_of_enumExtent {words : UInt64} (h : Layout.enumExtent words = .ok e) :
    e.footprint = if words = 0 then ⟨4, 4⟩ else ⟨8 + words.toNat * 8, 8⟩ := by
  rw [Layout.enumExtent] at h
  split at h
  next hzero =>
    cases h
    rw [if_pos hzero]
    rfl
  next hzero =>
    rw [if_neg hzero]
    obtain ⟨payload, hpayload, h⟩ := bind_eq_ok_iff.1 h
    have haligns : ∀ e ∈ [(⟨4, 4⟩ : Extent), ⟨payload, 8⟩], 0 < e.align.toNat := by simp
    have hrecord := (isRecord_record haligns h).1
    have hsize : payload.toNat = words.toNat * 8 := Word.mul_eq_ok_iff.1 hpayload
    simp only [map_cons, map_nil, Extent.footprint, hsize] at hrecord
    exact hrecord.unique (isRecord_words words.toNat)

end Extent

/-! ### Footprints of instruction types -/

namespace IR.Ty

/-- The size of a scalar, which is also its alignment. -/
def scalarSize? : Ty → Option Nat
  | .i1 | .i8 => some 1
  | .i16 => some 2
  | .i32 | .float => some 4
  | .i64 | .double | .ptr => some 8
  | .i128 => some 16
  | .void | .empty | .named _ | .anon _ | .array .. => none

/-- The footprints of a type, where a name stands for the bodies that `bodies` gives to it. -/
inductive HasFootprint (bodies : String → Ty → Prop) : Ty → Footprint → Prop
  | scalar {t n} (h : scalarSize? t = some n) : HasFootprint bodies t ⟨n, n⟩
  | empty : HasFootprint bodies .empty ⟨0, 1⟩
  | anon {fields members whole} (hfields : List.Forall₂ (HasFootprint bodies) fields members)
      (h : IsRecord members whole) : HasFootprint bodies (.anon fields) whole
  | array {elem member} (length : UInt64) (helem : HasFootprint bodies elem member) :
      HasFootprint bodies (.array length elem) ⟨length.toNat * member.size, member.align⟩
  | named {name body whole} (hname : bodies name body)
      (hbody : HasFootprint bodies body whole) : HasFootprint bodies (.named name) whole

/-- An extent is the footprint of a type, and the only one. -/
def Measures (bodies : String → Ty → Prop) (t : Ty) (e : Extent) : Prop :=
  ∀ f, HasFootprint bodies t f ↔ f = e.footprint

variable {bodies : String → Ty → Prop} {e : Extent}

theorem measures_scalar {t : Ty} (h : scalarSize? t = some e.footprint.size)
    (halign : e.footprint.align = e.footprint.size) : Measures bodies t e := by
  have he : e.footprint = ⟨e.footprint.size, e.footprint.size⟩ :=
    congrArg (Footprint.mk e.footprint.size) halign
  intro f
  constructor
  · intro hf
    cases hf with
    | scalar h' =>
      cases h.symm.trans h'
      exact he.symm
    | empty | anon | array | named => cases h
  · rintro rfl
    rw [he]
    exact .scalar h

theorem measures_ptr : Measures bodies .ptr .pointer := measures_scalar rfl rfl

theorem measures_empty : Measures bodies .empty .zero := by
  intro f
  constructor
  · intro hf
    cases hf with
    | scalar h => cases h
    | empty => rfl
  · rintro rfl
    exact .empty

/-- Members that have one footprint each give the aggregate one footprint. -/
theorem measures_anon {fields : List Ty} {es : List Extent}
    (hfields : List.Forall₂ (Measures bodies) fields es) (hes : ∀ e ∈ es, 0 < e.align.toNat)
    (h : Extent.record es = .ok e) : Measures bodies (.anon fields) e := by
  have hrecord := (Extent.isRecord_record hes h).1
  have hmembers : ∀ members, List.Forall₂ (HasFootprint bodies) fields members ↔
      members = es.map Extent.footprint := by
    clear hes h hrecord
    induction hfields with
    | nil => simp
    | cons hfield _ ih =>
      intro members
      simp only [forall₂_cons_left_iff, ih, hfield _, map_cons]
      aesop
  intro f
  constructor
  · intro hf
    cases hf with
    | scalar h => cases h
    | anon hfields' hrecord' =>
      rw [(hmembers _).1 hfields'] at hrecord'
      exact hrecord'.unique hrecord
  · rintro rfl
    exact .anon ((hmembers _).2 rfl) hrecord

theorem measures_array {elem : Ty} {elemExtent : Extent} {length : UInt64}
    (helem : Measures bodies elem elemExtent) (hpadded : elemExtent.IsPadded)
    (h : Extent.array elemExtent length = .ok e) : Measures bodies (.array length elem) e := by
  have hfootprint := (Extent.footprint_array hpadded h).1
  intro f
  rw [hfootprint]
  constructor
  · intro hf
    cases hf with
    | scalar h => cases h
    | array _ helem' => rw [(helem _).1 helem', Extent.footprint]
  · rintro rfl
    exact .array length ((helem _).2 rfl)

/-- A name with a single body has the footprint of the body. -/
theorem measures_named {name : String} {body : Ty}
    (hname : ∀ other, bodies name other ↔ other = body) (hbody : Measures bodies body e) :
    Measures bodies (.named name) e := by
  intro f
  constructor
  · intro hf
    cases hf with
    | scalar h => cases h
    | named hname' hbody' =>
      cases (hname _).1 hname'
      exact (hbody f).1 hbody'
  · intro hf
    exact .named ((hname body).2 rfl) ((hbody f).2 hf)

theorem measures_fatPtr : Measures bodies .fatPtr .fatPointer :=
  measures_anon (.cons measures_ptr (.cons measures_ptr .nil)) (by decide) rfl

/-- A number of bytes. -/
theorem measures_bytes (size : UInt64) : Measures bodies (.anon [.array size .i8]) ⟨size, 1⟩ := by
  have hbyte : Measures bodies .i8 ⟨1, 1⟩ := measures_scalar rfl rfl
  have hmul : Word.mul 1 size = .ok size := by
    rw [Word.mul, UInt64.toNat_one, Nat.one_mul, if_pos size.toNat_lt, UInt64.one_mul]
  have hadd : Word.add 0 size = .ok size := by
    rw [Word.add, UInt64.toNat_zero, Nat.zero_add, if_pos size.toNat_lt, UInt64.zero_add]
  have harray : Extent.array ⟨1, 1⟩ size = .ok ⟨size, 1⟩ := by
    simp only [Extent.array, Word.roundUp, UInt64.le_refl, if_true, hmul, bind, Except.bind]
    rfl
  have hrecord : Extent.record [⟨size, 1⟩] = .ok ⟨size, 1⟩ := by
    simp only [Extent.record, foldlM_cons, foldlM_nil, Extent.place, Extent.zero,
      Extent.pad, Word.roundUp, UInt64.le_refl, if_true, hadd, bind, Except.bind, pure, Except.pure]
    rfl
  exact measures_anon (.cons (measures_array hbyte ⟨by decide, by decide⟩ harray) .nil)
    (forall_mem_singleton.2 Nat.one_pos) hrecord

section

variable (bodies : String → Ty → Prop) (words : UInt64)

theorem forall₂_words_iff (members : List Footprint) :
    List.Forall₂ (HasFootprint bodies) [.i32, .array words .i64] members ↔
      members = [⟨4, 4⟩, ⟨words.toNat * 8, 8⟩] := by
  constructor
  · intro h
    cases h with
    | cons htag hrest =>
      cases hrest with
      | cons harray hnil =>
        cases hnil
        cases htag with
        | scalar htag =>
          cases htag
          cases harray with
          | scalar h => cases h
          | array _ hword =>
            cases hword with
            | scalar hword =>
              cases hword
              rfl
  · rintro rfl
    exact .cons (.scalar rfl) (.cons (.array words (.scalar rfl)) .nil)

/-- A tag and words for payloads are aligned to 8 bytes. -/
theorem hasFootprint_words_iff (f : Footprint) :
    HasFootprint bodies (.anon [.i32, .array words .i64]) f ↔ f = ⟨8 + words.toNat * 8, 8⟩ := by
  constructor
  · intro h
    cases h with
    | scalar h => cases h
    | anon hmembers hrecord =>
      rw [forall₂_words_iff] at hmembers
      subst hmembers
      exact hrecord.unique (Extent.isRecord_words _)
  · rintro rfl
    exact .anon ((forall₂_words_iff bodies words _).2 rfl) (Extent.isRecord_words _)

end

/-- The body of an enum: a tag and, if some variant carries values, words for them. -/
theorem measures_enum (bodies : String → Ty → Prop) {words : UInt64}
    (h : Layout.enumExtent words = .ok e) :
    Measures bodies (.anon (if words = 0 then [.i32] else [.i32, .array words .i64])) e ∧
      e.IsPadded := by
  by_cases hzero : words = 0
  · have htag : Measures bodies .i32 ⟨4, 4⟩ := measures_scalar rfl rfl
    rw [Layout.enumExtent, if_pos hzero] at h
    cases h
    rw [if_pos hzero]
    exact ⟨measures_anon (.cons htag .nil) (by decide) rfl, by decide, by decide⟩
  · have hfootprint := Extent.footprint_of_enumExtent h
    rw [if_neg hzero] at hfootprint ⊢
    have hsize : e.size.toNat = 8 + words.toNat * 8 := congrArg Footprint.size hfootprint
    have halign : e.align.toNat = 8 := congrArg Footprint.align hfootprint
    refine ⟨fun f => ?_, by omega, by rw [hsize, halign]; omega⟩
    rw [hfootprint]
    exact hasFootprint_words_iff bodies words f

end IR.Ty

end Monomorph
