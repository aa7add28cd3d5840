import Mathlib.Order.Bounds.Defs
import Monomorph.Proofs.Layout.Footprint

/-!
# Records and overlays in the least space

The size of a record is the least multiple of its alignment into which its fields can be placed in
order, each at a multiple of its own alignment and none over another: placing each field as early as
possible leaves at least as much room for the rest as any other placement. An overlay is the least
multiple of its alignment that holds each field.

Words compute these sizes exactly. Every sum and product on the way is at most the final size, so an
overflow on the way is one of the final size too.

## Main results

* `Extent.record_overlay_exact`, `Extent.record_overlay_least`.
-/

namespace Monomorph

open List

/-! ### Sizes without a bound -/

namespace Footprint

/-- The end and the alignment of a record after one more field. -/
def place (acc field : Footprint) : Footprint :=
  ⟨nextMultiple acc.size field.align + field.size, max acc.align field.align⟩

/-- The greater size and the stricter alignment. -/
def cover (acc field : Footprint) : Footprint :=
  ⟨max acc.size field.size, max acc.align field.align⟩

/-- A size rounded up to its alignment. -/
def pad (whole : Footprint) : Footprint := ⟨nextMultiple whole.size whole.align, whole.align⟩

/-- Fields one after the other, in order. -/
def record (fields : List Footprint) : Footprint := (fields.foldl place ⟨0, 1⟩).pad

/-- Fields that all start at the same place. -/
def overlay (fields : List Footprint) : Footprint := (fields.foldl cover ⟨0, 1⟩).pad

variable {acc : Footprint} {fields : List Footprint} {start start' size align : Nat}
  {offsets : List Nat}

theorem size_le_foldl_place (fields : List Footprint) (acc : Footprint) :
    acc.size ≤ (fields.foldl place acc).size := by
  induction fields generalizing acc with
  | nil => exact Nat.le_refl _
  | cons field fields ih =>
    exact Nat.le_trans (Nat.le_add_right_of_le (le_nextMultiple acc.size field.align))
      (ih (acc.place field))

/-- Both ways to add a field take the stricter alignment. -/
theorem align_foldl {f : Footprint → Footprint → Footprint}
    (hf : ∀ acc field, (f acc field).align = max acc.align field.align) (fields : List Footprint)
    (acc : Footprint) :
    (fields.foldl f acc).align = (fields.map Footprint.align).foldl max acc.align := by
  induction fields generalizing acc with
  | nil => rfl
  | cons field fields ih =>
    rw [foldl_cons, ih, hf]
    rfl

theorem align_record (fields : List Footprint) : (record fields).align = strictest fields :=
  align_foldl (fun _ _ => rfl) fields _

theorem align_overlay (fields : List Footprint) : (overlay fields).align = strictest fields :=
  align_foldl (fun _ _ => rfl) fields _

theorem foldl_cover_le_iff : (fields.foldl cover acc).size ≤ size ↔
    acc.size ≤ size ∧ ∀ field ∈ fields, field.size ≤ size := by
  induction fields generalizing acc with
  | nil => simp
  | cons field fields ih =>
    rw [foldl_cons, ih, forall_mem_cons, ← and_assoc]
    exact and_congr_left fun _ => Nat.max_le

/-! ### Placements -/

/-- Offsets at which fields lie in order between a start and an end, each at a multiple of its
alignment and none over another. -/
inductive Placement : Nat → List Footprint → List Nat → Nat → Prop
  | nil {start size : Nat} (h : start ≤ size) : Placement start [] [] size
  | cons {start offset size : Nat} {field : Footprint} {fields : List Footprint}
      {offsets : List Nat} (hdvd : field.align ∣ offset) (hstart : start ≤ offset)
      (h : Placement (offset + field.size) fields offsets size) :
      Placement start (field :: fields) (offset :: offsets) size

/-- Each field at the first multiple of its alignment after the field before it. -/
def greedy : Nat → List Footprint → List Nat
  | _, [] => []
  | start, field :: fields =>
      nextMultiple start field.align ::
        greedy (nextMultiple start field.align + field.size) fields

section

variable (hfields : ∀ field ∈ fields, 0 < field.align)

include hfields

/-- If there is a placement, then placing each field as early as possible is one. -/
theorem Placement.greedy (h : Placement start fields offsets size) (hle : start' ≤ start) :
    Placement start' fields (Footprint.greedy start' fields) size := by
  induction h generalizing start' with
  | nil h => exact .nil (Nat.le_trans hle h)
  | @cons start offset size field fields offsets hdvd hstart _ ih =>
    obtain ⟨hfield, hfields⟩ := forall_mem_cons.1 hfields
    have hfirst := firstMultiple_nextMultiple start' hfield
    have hoffset : nextMultiple start' field.align ≤ offset :=
      hfirst.le_of_dvd hdvd (Nat.le_trans hle hstart)
    exact .cons hfirst.dvd hfirst.le (ih hfields (Nat.add_le_add_right hoffset field.size))

/-- The fields end where placing each as early as possible ends. -/
theorem placement_greedy_iff : Placement start fields (greedy start fields) size ↔
      (fields.foldl place ⟨start, align⟩).size ≤ size := by
  induction fields generalizing start align with
  | nil =>
    constructor
    · rintro ⟨h⟩
      exact h
    · exact .nil
  | cons field fields ih =>
    obtain ⟨hfield, hfields⟩ := forall_mem_cons.1 hfields
    have hfirst := firstMultiple_nextMultiple start hfield
    rw [foldl_cons, place, ← ih hfields]
    constructor
    · rintro (_ | ⟨-, -, h⟩)
      exact h
    · exact .cons hfirst.dvd hfirst.le

omit hfields in
/-- Rounding up gives the least multiple of the alignment with a property that says how small a size
can be. -/
theorem isLeast_pad (whole : Footprint) {P : Nat → Prop} (hpos : 0 < whole.align)
    (hP : ∀ size, P size ↔ whole.size ≤ size) :
    IsLeast {size | whole.align ∣ size ∧ P size} whole.pad.size := by
  have hfirst := firstMultiple_nextMultiple whole.size hpos
  refine ⟨⟨hfirst.dvd, (hP _).2 hfirst.le⟩, ?_⟩
  rintro size ⟨hdvd, hsize⟩
  exact hfirst.le_of_dvd hdvd ((hP size).1 hsize)

/-- The size of a record is the least into which its fields can be placed. -/
theorem isLeast_record :
    IsLeast {size | strictest fields ∣ size ∧ ∃ offsets, Placement 0 fields offsets size}
      (record fields).size := by
  have hpos : 0 < (record fields).align := align_record fields ▸ one_le_strictest fields
  rw [← align_record]
  refine isLeast_pad (fields.foldl place ⟨0, 1⟩) hpos fun size => ?_
  rw [← placement_greedy_iff hfields]
  exact ⟨fun ⟨_, h⟩ => h.greedy hfields (Nat.le_refl 0), fun h => ⟨_, h⟩⟩

end

/-- The size of an overlay is the least that holds each field. -/
theorem isLeast_overlay (fields : List Footprint) :
    IsLeast {size | strictest fields ∣ size ∧ ∀ field ∈ fields, field.size ≤ size}
      (overlay fields).size := by
  have hpos : 0 < (overlay fields).align := align_overlay fields ▸ one_le_strictest fields
  rw [← align_overlay]
  refine isLeast_pad (fields.foldl cover ⟨0, 1⟩) hpos fun size => ?_
  rw [foldl_cover_le_iff]
  exact ⟨fun h => ⟨Nat.zero_le _, h⟩, And.right⟩

end Footprint

/-! ### Words compute sizes exactly -/

namespace Extent

variable {acc last e e' : Extent} {fields : List Extent} {whole : Footprint}
  {x : Except Overflow Extent}

theorem footprint_inj : e.footprint = e'.footprint ↔ e = e' := by
  cases e
  cases e'
  rw [footprint, footprint, Footprint.mk.injEq, UInt64.toNat_inj, UInt64.toNat_inj, mk.injEq]

theorem exists_footprint_eq (hsize : whole.size < UInt64.size)
    (halign : whole.align < UInt64.size) :
    ∃ e : Extent, e.footprint = whole :=
  ⟨⟨.ofNat whole.size, .ofNat whole.align⟩, by
    rw [footprint, UInt64.toNat_ofNat_of_lt' hsize, UInt64.toNat_ofNat_of_lt' halign]⟩

theorem place_eq_ok_iff (acc field : Extent) :
    place acc field = .ok e ↔ e.footprint = acc.footprint.place field.footprint := by
  have hplace : (acc.footprint.place field.footprint).align = (max acc.align field.align).toNat :=
    (toNat_max ..).symm
  rw [place]
  simp only [bind_eq_ok_iff, Word.add_eq_ok_iff, Word.roundUp_eq_ok_iff]
  constructor
  · rintro ⟨start, hstart, stop, hstop, ⟨⟩⟩
    rw [footprint, hstop, hstart, ← hplace]
    rfl
  · intro h
    have hsize : e.size.toNat = nextMultiple acc.size.toNat field.align.toNat + field.size.toNat :=
      congrArg Footprint.size h
    have halign : e.align = max acc.align field.align :=
      UInt64.toNat_inj.1 ((congrArg Footprint.align h).trans hplace)
    -- the start of the field is not beyond its end
    have hstart := UInt64.toNat_ofNat_of_lt'
      (Nat.lt_of_le_of_lt (Nat.le_add_right _ field.size.toNat) (hsize ▸ e.size.toNat_lt_size))
    exact ⟨_, hstart, e.size, by rw [hsize, hstart], by rw [← halign]; rfl⟩

/-- A field that does not fit leaves no room for the fields after it. -/
theorem foldlM_place_eq_ok_iff : fields.foldlM place acc = .ok last ↔
    last.footprint = (fields.map footprint).foldl Footprint.place acc.footprint := by
  induction fields generalizing acc with
  | nil =>
    rw [map_nil, foldl_nil, footprint_inj]
    exact ⟨by rintro ⟨⟩; rfl, by rintro rfl; rfl⟩
  | cons field fields ih =>
    rw [foldlM_cons, map_cons, foldl_cons, bind_eq_ok_iff]
    simp only [ih, place_eq_ok_iff]
    constructor
    · rintro ⟨next, hnext, h⟩
      rwa [← hnext]
    · intro h
      have hle := Footprint.size_le_foldl_place (fields.map footprint)
        (acc.footprint.place field.footprint)
      rw [← h] at hle
      have halign : (acc.footprint.place field.footprint).align < UInt64.size :=
        Nat.max_lt.2 ⟨acc.align.toNat_lt_size, field.align.toNat_lt_size⟩
      obtain ⟨next, hnext⟩ :=
        exists_footprint_eq (Nat.lt_of_le_of_lt hle last.size.toNat_lt_size) halign
      exact ⟨next, hnext, hnext ▸ h⟩

theorem pad_eq_ok_iff : pad acc = .ok e ↔ e.footprint = acc.footprint.pad := by
  rw [pad]
  simp only [bind_eq_ok_iff, Word.roundUp_eq_ok_iff]
  constructor
  · rintro ⟨size, hsize, ⟨⟩⟩
    rw [footprint, hsize]
    rfl
  · intro h
    have halign : e.align = acc.align := UInt64.toNat_inj.1 (congrArg Footprint.align h)
    exact ⟨e.size, congrArg Footprint.size h, by rw [← halign]; rfl⟩

theorem record_eq_ok_iff : record fields = .ok e ↔
    e.footprint = .record (fields.map footprint) := by
  rw [record, bind_eq_ok_iff]
  simp only [foldlM_place_eq_ok_iff, pad_eq_ok_iff]
  constructor
  · rintro ⟨last, hlast, h⟩
    rw [h, hlast]
    rfl
  · intro h
    have hsize : (Footprint.record (fields.map footprint)).size < UInt64.size :=
      congrArg Footprint.size h ▸ e.size.toNat_lt_size
    have halign : (Footprint.record (fields.map footprint)).align < UInt64.size :=
      congrArg Footprint.align h ▸ e.align.toNat_lt_size
    obtain ⟨last, hlast⟩ :=
      exists_footprint_eq (Nat.lt_of_le_of_lt (le_nextMultiple _ _) hsize) halign
    exact ⟨last, hlast, hlast ▸ h⟩

theorem footprint_foldl_cover (fields : List Extent) (acc : Extent) :
    (fields.foldl (fun acc f => ⟨max acc.size f.size, max acc.align f.align⟩) acc).footprint =
      (fields.map footprint).foldl Footprint.cover acc.footprint := by
  induction fields generalizing acc with
  | nil => rfl
  | cons field fields ih =>
    rw [foldl_cons, ih, footprint, toNat_max, toNat_max]
    rfl

theorem overlay_eq_ok_iff : overlay fields = .ok e ↔
    e.footprint = .overlay (fields.map footprint) := by
  rw [overlay, pad_eq_ok_iff, footprint_foldl_cover]
  rfl

/-- The alignment of fields whose alignments are words is a word. -/
theorem strictest_lt (fields : List Extent) : strictest (fields.map footprint) < UInt64.size := by
  obtain h | ⟨field, hfield, h⟩ := strictest_mem (fields.map footprint)
  · exact h ▸ by decide
  · obtain ⟨e, -, rfl⟩ := mem_map.1 hfield
    exact h ▸ e.align.toNat_lt_size

/-- A computation on words overflows exactly if the size does not fit in a word, and has that size
and alignment otherwise. -/
def Computes (x : Except Overflow Extent) (whole : Footprint) : Prop :=
  ((∃ o, x = .error o) ↔ UInt64.size ≤ whole.size) ∧
    (whole.size < UInt64.size → ∃ e, x = .ok e ∧ e.footprint = whole)

theorem computes_of_eq_ok_iff (halign : whole.align < UInt64.size)
    (h : ∀ e, x = .ok e ↔ e.footprint = whole) : Computes x whole := by
  have hok (hsize : whole.size < UInt64.size) : ∃ e, x = .ok e ∧ e.footprint = whole := by
    obtain ⟨e, he⟩ := exists_footprint_eq hsize halign
    exact ⟨e, (h e).2 he, he⟩
  refine ⟨⟨?_, fun hsize => ?_⟩, hok⟩
  · rintro ⟨o, rfl⟩
    refine Nat.le_of_not_lt fun hsize => ?_
    obtain ⟨e, ⟨⟩, -⟩ := hok hsize
  · cases x with
    | error o => exact ⟨o, rfl⟩
    | ok e =>
      obtain rfl := (h e).1 rfl
      exact absurd e.size.toNat_lt_size (Nat.not_lt.2 hsize)

/-- Overflow is detected exactly, whatever the sizes and the alignments are. -/
theorem record_overlay_exact (fields : List Extent) :
    Computes (record fields) (.record (fields.map footprint)) ∧
      Computes (overlay fields) (.overlay (fields.map footprint)) := by
  have halign := strictest_lt fields
  constructor
  · exact computes_of_eq_ok_iff (Footprint.align_record _ ▸ halign) fun _ => record_eq_ok_iff
  · exact computes_of_eq_ok_iff (Footprint.align_overlay _ ▸ halign) fun _ => overlay_eq_ok_iff

/-- A record has the strictest alignment of its fields and the least size into which they can be
placed, which they are when each is placed as early as possible. An overlay has that alignment and
the least size that holds each field. -/
theorem record_overlay_least (hfields : ∀ field ∈ fields, 1 ≤ field.align.toNat) :
    ((Footprint.record (fields.map footprint)).size < UInt64.size →
      ∃ e, record fields = .ok e ∧ e.align.toNat = strictest (fields.map footprint) ∧
        Footprint.Placement 0 (fields.map footprint) (Footprint.greedy 0 (fields.map footprint))
          e.size.toNat ∧
        IsLeast {size | e.align.toNat ∣ size ∧
          ∃ offsets, Footprint.Placement 0 (fields.map footprint) offsets size} e.size.toNat) ∧
    ((Footprint.overlay (fields.map footprint)).size < UInt64.size →
      ∃ e, overlay fields = .ok e ∧ e.align.toNat = strictest (fields.map footprint) ∧
        IsLeast {size | e.align.toNat ∣ size ∧ ∀ field ∈ fields, field.size.toNat ≤ size}
          e.size.toNat) := by
  have halign := strictest_lt fields
  have hmembers : ∀ member ∈ fields.map footprint, 0 < member.align := List.forall_mem_map.2 hfields
  constructor
  · intro hsize
    have hstrict := Footprint.align_record (fields.map footprint)
    obtain ⟨e, he⟩ := exists_footprint_eq hsize (hstrict ▸ halign)
    have hleast := Footprint.isLeast_record hmembers
    rw [← hstrict, ← he] at hleast
    obtain ⟨-, offsets, hoffsets⟩ := hleast.1
    exact ⟨e, record_eq_ok_iff.2 he, (congrArg Footprint.align he).trans hstrict,
      hoffsets.greedy hmembers (Nat.le_refl 0), hleast⟩
  · intro hsize
    have hstrict := Footprint.align_overlay (fields.map footprint)
    obtain ⟨e, he⟩ := exists_footprint_eq hsize (hstrict ▸ halign)
    have hleast := Footprint.isLeast_overlay (fields.map footprint)
    rw [← hstrict, ← he] at hleast
    simp only [List.forall_mem_map] at hleast
    exact ⟨e, overlay_eq_ok_iff.2 he, (congrArg Footprint.align he).trans hstrict, hleast⟩

/-- A byte, a field whose alignment is not a power of two, and a word. -/
theorem record_overlay_least_mixed :
    (∀ field ∈ [(⟨1, 1⟩ : Extent), ⟨2, 3⟩, ⟨8, 8⟩], 1 ≤ field.align.toNat) ∧
      record [⟨1, 1⟩, ⟨2, 3⟩, ⟨8, 8⟩] = .ok ⟨16, 8⟩ ∧
      Footprint.Placement 0 [⟨1, 1⟩, ⟨2, 3⟩, ⟨8, 8⟩] [0, 3, 8] 16 ∧
      ∀ size offsets, 8 ∣ size → Footprint.Placement 0 [⟨1, 1⟩, ⟨2, 3⟩, ⟨8, 8⟩] offsets size →
        16 ≤ size := by
  have hfields : ∀ field ∈ [(⟨1, 1⟩ : Extent), ⟨2, 3⟩, ⟨8, 8⟩], 1 ≤ field.align.toNat := by decide
  obtain ⟨e, he, -, hplacement, hleast⟩ := (record_overlay_least hfields).1 (by decide)
  cases (show record [⟨1, 1⟩, ⟨2, 3⟩, ⟨8, 8⟩] = .ok ⟨16, 8⟩ by decide).symm.trans he
  exact ⟨hfields, he, hplacement, fun size offsets hdvd h => hleast.2 ⟨hdvd, offsets, h⟩⟩

end Extent

end Monomorph
