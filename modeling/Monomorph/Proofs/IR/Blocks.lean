import Mathlib.Data.List.Nodup
import Monomorph.Proofs.IR.Parts

/-!
# Blocks of a function

The labels of a function divide its lines into blocks, the first of which is the entry. A function
is written from its beginning to its end, and at each branching the labels of the blocks to come get
a number that no label had before. So control never goes from a new block to an old one or back, and
the blocks before a branching stay as they are.
-/

namespace Monomorph.IR

open List

/-! ### Labels -/

namespace Label

/-- The number of a label. -/
def id : Label → Nat
  | thin id | fat id | merge id | assertOk id | assertFail id | dead id => id

/-- What the text of a label starts with. -/
def stem : Label → String
  | thin _ => "fp_thin"
  | fat _ => "fp_fat"
  | merge _ => "fp_merge"
  | assertOk _ => "assert_ok"
  | assertFail _ => "assert_fail"
  | dead _ => "dead"

/-- The characters of a text that are no digits. -/
def letters (text : String) : List Char := text.toList.filter fun c => !c.isDigit

theorem text_eq (l : Label) : l.text = l.stem ++ toString l.id := by cases l <;> rfl

theorem toList_text (l : Label) : l.text.toList = l.stem.toList ++ Nat.toDigits 10 l.id := by
  rw [text_eq, String.toList_append, Nat.toString_eq_ofList_toDigits, String.toList_ofList]

/-- Without its number, the text of a label is its stem. -/
theorem letters_text (l : Label) : letters l.text = l.stem.toList := by
  have hstem : ∀ c ∈ l.stem.toList, (!c.isDigit) = true := by
    cases l <;> rw [stem] <;> simp
  have hdigits : ∀ c ∈ Nat.toDigits 10 l.id, ¬ (!c.isDigit) = true := by
    intro c hc
    simp [Nat.isDigit_of_mem_toDigits (by decide) (by decide) hc]
  rw [letters, toList_text, filter_append, filter_eq_self.2 hstem,
    filter_eq_nil_iff.2 hdigits, append_nil]

/-- Labels are told apart by their texts. -/
theorem text_injective : Function.Injective text := by
  intro l l' h
  have hstem : l.stem.toList = l'.stem.toList := by rw [← letters_text, ← letters_text, h]
  have htext := congrArg String.toList h
  rw [toList_text, toList_text, hstem] at htext
  have hid : l.id = l'.id := by
    have hdigits := congrArg (Nat.ofDigitChars 10 · 0) (append_cancel_left htext)
    simpa using hdigits
  cases l <;> cases l' <;> simp_all [stem, id]

end Label

/-! ### Blocks -/

/-- A block of a function: its label, which the entry does not have, and its instructions. -/
structure Block where
  /-- The label. -/
  label : Option Label
  /-- The instructions. -/
  code : List Instr

namespace Block

/-- The name of a block as it is written. -/
def name (b : Block) : String := (b.label.map Label.text).getD "entry"

/-- The lines of a block. -/
def lines (b : Block) : List Line := (b.label.map Line.label).toList ++ b.code.map Line.instr

/-- The blocks to which control goes from a block. -/
def targets (b : Block) : List Label := b.code.flatMap Instr.targets

/-- No instruction ends the block yet. -/
def IsOpen (b : Block) : Prop := ∀ i ∈ b.code, i.isTerminator = false

/-- The last instruction, and no other, ends the block. -/
def IsClosed (b : Block) : Prop :=
  ∃ body last, b.code = body ++ [last] ∧ last.isTerminator ∧ ∀ i ∈ body, i.isTerminator = false

/-- The block with more instructions. -/
def extend (b : Block) (code : List Instr) : Block := ⟨b.label, b.code ++ code⟩

theorem IsOpen.extend {b : Block} (h : b.IsOpen) {code : List Instr}
    (hcode : ∀ i ∈ code, i.isTerminator = false) : (b.extend code).IsOpen :=
  forall_mem_append.2 ⟨h, hcode⟩

theorem IsOpen.close {b : Block} (h : b.IsOpen) {body : List Instr} {last : Instr}
    (hbody : ∀ i ∈ body, i.isTerminator = false) (hlast : last.isTerminator) :
    (b.extend (body ++ [last])).IsClosed :=
  ⟨b.code ++ body, last, (append_assoc ..).symm, hlast, forall_mem_append.2 ⟨h, hbody⟩⟩

theorem lines_extend (b : Block) (code : List Instr) :
    (b.extend code).lines = b.lines ++ code.map Line.instr := by
  rw [lines, extend, map_append, ← append_assoc]
  rfl

/-- The names of blocks are different if their labels are. -/
theorem nodup_map_name {blocks : List Block} (h : (blocks.map label).Nodup) :
    (blocks.map name).Nodup := by
  have hinjective : Function.Injective fun l : Option Label => (l.map Label.text).getD "entry" := by
    -- The stem of a label is not the name of the entry.
    have hentry : ∀ l : Label, l.text ≠ "entry" := by
      intro l hl
      have hletters := l.letters_text
      rw [hl] at hletters
      revert hletters
      cases l <;> dsimp only [Label.stem] <;> decide
    intro l l' h
    cases l with
    | none =>
      cases l' with
      | none => rfl
      | some l' => exact absurd h.symm (hentry l')
    | some l =>
      cases l' with
      | none => exact absurd h (hentry l)
      | some l' => rw [Label.text_injective h]
  have hmap : blocks.map name = (blocks.map label).map fun l => (l.map Label.text).getD "entry" :=
    by rw [map_map]; rfl
  rw [hmap]
  exact List.Nodup.map hinjective h

/-- The blocks of a finished function. The first is the entry, the names are different, and each
block ends with its only terminator. Every block that an instruction names is there, and the two
blocks from which a value can come are those from which control comes. -/
structure IsFlow (blocks : List Block) : Prop where
  entry : ∃ labels : List Label, blocks.map label = none :: labels.map some
  names : (blocks.map name).Nodup
  closed : ∀ b ∈ blocks, b.IsClosed
  named : ∀ b ∈ blocks, ∀ i ∈ b.code, ∀ l ∈ i.targets ++ i.sources,
    ∃ own ∈ blocks, own.label = some l
  joins : ∀ b ∈ blocks, ∀ r ty first l second l', .phi r ty first l second l' ∈ b.code → l ≠ l' ∧
    ∀ p ∈ blocks, b.label ∈ p.targets.map some ↔ p.label = some l ∨ p.label = some l'

/-- Blocks with different labels, the first of which is the entry. Every block that an instruction
names is there, and where a value depends on the block that control came from, these are the
blocks from which control comes. -/
structure IsChart (blocks : List Block) (bound : Nat) : Prop where
  labels : ∃ labels : List Label, blocks.map label = none :: labels.map some
  nodup : (blocks.map label).Nodup
  below : ∀ l, some l ∈ blocks.map label → l.id < bound
  named : ∀ b ∈ blocks, ∀ i ∈ b.code, ∀ l ∈ i.targets ++ i.sources, some l ∈ blocks.map label
  joins : ∀ b ∈ blocks, ∀ i ∈ b.code, i.sources ≠ [] → i.sources.Nodup ∧
    ∀ p ∈ blocks, b.label ∈ p.targets.map some ↔ p.label ∈ i.sources.map some

/-- A chart of closed blocks is a finished function. -/
theorem IsChart.isFlow {blocks : List Block} {bound : Nat} (h : IsChart blocks bound)
    (hclosed : ∀ b ∈ blocks, b.IsClosed) : IsFlow blocks := by
  refine ⟨h.labels, nodup_map_name h.nodup, hclosed, ?_, ?_⟩
  · intro b hb i hi l hl
    exact mem_map.1 (h.named b hb i hi l hl)
  · intro b hb r ty first l second l' hi
    obtain ⟨hnodup, hiff⟩ := h.joins b hb _ hi (cons_ne_nil _ _)
    refine ⟨fun heq => ?_, fun p hp => (hiff p hp).trans ?_⟩
    · exact (nodup_cons.1 hnodup).1 (heq ▸ mem_singleton_self _)
    · simp [Instr.sources]

/-- The entry alone. -/
theorem isChart_entry {code : List Instr} (h : ∀ i ∈ code, i.targets = [] ∧ i.sources = [])
    (bound : Nat) : IsChart [⟨none, code⟩] bound := by
  refine ⟨⟨[], rfl⟩, nodup_singleton _, ?_, ?_, ?_⟩
  · intro l hl
    cases mem_singleton.1 hl
  · intro b hb i hi l hl
    obtain rfl := mem_singleton.1 hb
    rw [(h i hi).1, (h i hi).2] at hl
    nomatch hl
  · intro b hb i hi hne
    obtain rfl := mem_singleton.1 hb
    exact absurd (h i hi).2 hne

/-- What continues a chart: instructions of the last block and new blocks, which name only each
other. -/
structure Growth (bound bound' : Nat) (code : List Instr) (fresh : List Block)
    (labels : List Label) : Prop where
  label_eq : fresh.map label = labels.map some
  nodup : labels.Nodup
  bounds : ∀ l ∈ labels, bound ≤ l.id ∧ l.id < bound'
  plain : ∀ i ∈ code, i.sources = []
  named : ∀ i ∈ code ++ fresh.flatMap Block.code, ∀ l ∈ i.targets ++ i.sources, l ∈ labels
  joins : ∀ b ∈ fresh, ∀ i ∈ b.code, i.sources ≠ [] → i.sources.Nodup ∧
    b.label ∉ (code.flatMap Instr.targets).map some ∧
    ∀ p ∈ fresh, b.label ∈ p.targets.map some ↔ p.label ∈ i.sources.map some

section Grow

variable {closed fresh : List Block} {cur p old b : Block} {code : List Instr} {labels : List Label}
  {bound bound' : Nat} {l : Label} {i : Instr}

/-- The blocks of a continued chart are those that were there, the last one perhaps with more
instructions, and the new ones. -/
theorem mem_grown (hp : p ∈ closed ++ cur.extend code :: fresh) :
    (∃ old ∈ closed ++ [cur], p.label = old.label ∧
      (p.code = old.code ∨ p.code = old.code ++ code)) ∨ p ∈ fresh := by
  rw [mem_append, mem_cons] at hp
  obtain hp | rfl | hp := hp
  · exact .inl ⟨p, mem_append_left _ hp, rfl, .inl rfl⟩
  · exact .inl ⟨cur, mem_append_right _ (mem_singleton_self _), rfl, .inr rfl⟩
  · exact .inr hp

theorem map_label_grown (closed : List Block) (cur : Block) (code : List Instr)
    (hfresh : fresh.map label = labels.map some) :
    (closed ++ cur.extend code :: fresh).map label =
      (closed ++ [cur]).map label ++ labels.map some := by
  rw [← hfresh]
  simp [extend]

variable (h : IsChart (closed ++ [cur]) bound) (hgrowth : Growth bound bound' code fresh labels)

include h hgrowth

/-- Labels that were there are different from new ones, which have greater numbers. -/
theorem IsChart.label_ne (hold : old ∈ closed ++ [cur]) (hl : l ∈ labels) : old.label ≠ some l := by
  intro heq
  have hlt := h.below l (heq ▸ mem_map_of_mem hold)
  have hle := (hgrowth.bounds l hl).1
  omega

/-- Blocks that were there do not name new ones. -/
theorem IsChart.notMem_targets (hold : old ∈ closed ++ [cur]) (hi : i ∈ old.code)
    (hl : l ∈ labels) : l ∉ i.targets ++ i.sources := by
  intro hmem
  obtain ⟨b, hb, heq⟩ := mem_map.1 (h.named old hold i hi l hmem)
  exact h.label_ne hgrowth hb hl heq

omit h in
/-- New blocks have new labels. -/
theorem Growth.label_mem (hb : b ∈ fresh) : ∃ l ∈ labels, b.label = some l := by
  have hlabel := mem_map_of_mem (f := label) hb
  rw [hgrowth.label_eq] at hlabel
  obtain ⟨l, hl, heq⟩ := mem_map.1 hlabel
  exact ⟨l, hl, heq.symm⟩

omit h in
/-- New blocks name only new ones. -/
theorem Growth.mem_labels (hb : b ∈ fresh) (hi : i ∈ b.code) (hl : l ∈ i.targets ++ i.sources) :
    l ∈ labels :=
  hgrowth.named i (mem_append_right _ (mem_flatMap.2 ⟨b, hb, hi⟩)) l hl

/-- Where a value depends on the block that control came from, nothing changes for the blocks that
were there. -/
theorem IsChart.joins_old (hold : old ∈ closed ++ [cur]) (hi : i ∈ old.code) (hne : i.sources ≠ [])
    (hp : p ∈ closed ++ cur.extend code :: fresh) :
    old.label ∈ p.targets.map some ↔ p.label ∈ i.sources.map some := by
  have hiff := (h.joins old hold i hi hne).2
  obtain ⟨before, hbefore, hlabel, hcode⟩ | hp := mem_grown hp
  · rw [hlabel, ← hiff before hbefore, targets]
    obtain hcode | hcode := hcode
    · rw [hcode]
      rfl
    · rw [hcode, flatMap_append, map_append, mem_append]
      refine or_iff_left fun hmem => ?_
      obtain ⟨l, hl, heq⟩ := mem_map.1 hmem
      obtain ⟨own, hown, hl⟩ := mem_flatMap.1 hl
      have hnew := hgrowth.named own (mem_append_left _ hown) l (mem_append_left _ hl)
      exact h.label_ne hgrowth hold hnew heq.symm
  · refine iff_of_false (fun hmem => ?_) (fun hmem => ?_)
    · obtain ⟨l, hl, heq⟩ := mem_map.1 hmem
      obtain ⟨own, hown, hl⟩ := mem_flatMap.1 hl
      have hnew := hgrowth.mem_labels hp hown (mem_append_left _ hl)
      exact h.label_ne hgrowth hold hnew heq.symm
    · obtain ⟨l, hl, heq⟩ := hgrowth.label_mem hp
      rw [heq, mem_map_of_injective fun _ _ => Option.some.inj] at hmem
      exact h.notMem_targets hgrowth hold hi hl (mem_append_right _ hmem)

/-- Control comes to a new block from new blocks only. -/
theorem IsChart.joins_new (hb : b ∈ fresh) (hi : i ∈ b.code) (hne : i.sources ≠ [])
    (hp : p ∈ closed ++ cur.extend code :: fresh) :
    b.label ∈ p.targets.map some ↔ p.label ∈ i.sources.map some := by
  obtain ⟨-, hcode, hiff⟩ := hgrowth.joins b hb i hi hne
  obtain ⟨before, hbefore, hlabel, hp⟩ | hp := mem_grown hp
  · refine iff_of_false (fun hmem => ?_) (fun hmem => ?_)
    · obtain ⟨l, hl, heq⟩ := mem_map.1 hmem
      obtain ⟨own, hown, hl⟩ := mem_flatMap.1 hl
      have hown : own ∈ before.code ∨ own ∈ code := by
        obtain hp | hp := hp
        · exact .inl (hp ▸ hown)
        · rwa [hp, mem_append] at hown
      obtain hown | hown := hown
      · obtain ⟨l', hl', hb⟩ := hgrowth.label_mem hb
        cases heq.trans hb
        exact h.notMem_targets hgrowth hbefore hown hl' (mem_append_left _ hl)
      · exact hcode (mem_map.2 ⟨l, mem_flatMap.2 ⟨own, hown, hl⟩, heq⟩)
    · obtain ⟨l, hl, heq⟩ := mem_map.1 hmem
      have hnew := hgrowth.mem_labels hb hi (mem_append_right _ hl)
      exact h.label_ne hgrowth hbefore hnew (hlabel.symm.trans heq.symm)
  · exact hiff p hp

theorem IsChart.grow (hbound : bound ≤ bound') :
    IsChart (closed ++ cur.extend code :: fresh) bound' := by
  have hmap := map_label_grown closed cur code hgrowth.label_eq
  refine ⟨?_, ?_, ?_, ?_, ?_⟩
  · obtain ⟨ls, hls⟩ := h.labels
    exact ⟨ls ++ labels, by rw [hmap, hls, map_append, cons_append]⟩
  · rw [hmap]
    refine nodup_append.2 ⟨h.nodup, hgrowth.nodup.map fun _ _ => Option.some.inj, ?_⟩
    intro o ho o' ho' heq
    obtain ⟨old, hmem, rfl⟩ := mem_map.1 ho
    obtain ⟨l, hl, rfl⟩ := mem_map.1 ho'
    exact h.label_ne hgrowth hmem hl heq
  · intro l hl
    rw [hmap, mem_append] at hl
    obtain hl | hl := hl
    · exact Nat.lt_of_lt_of_le (h.below l hl) hbound
    · obtain ⟨l, hl, ⟨⟩⟩ := mem_map.1 hl
      exact (hgrowth.bounds l hl).2
  · intro b hb i hi l hl
    rw [hmap, mem_append]
    obtain ⟨old, hmem, -, hcode⟩ | hb := mem_grown hb
    · obtain hcode | hcode := hcode
      · exact .inl (h.named old hmem i (hcode ▸ hi) l hl)
      · rw [hcode, mem_append] at hi
        obtain hi | hi := hi
        · exact .inl (h.named old hmem i hi l hl)
        · exact .inr (mem_map_of_mem (hgrowth.named i (mem_append_left _ hi) l hl))
    · exact .inr (mem_map_of_mem (hgrowth.mem_labels hb hi hl))
  · intro b hb i hi hne
    obtain ⟨old, hmem, hlabel, hcode⟩ | hb := mem_grown hb
    · have hi : i ∈ old.code := by
        obtain hcode | hcode := hcode
        · exact hcode ▸ hi
        · rw [hcode, mem_append] at hi
          exact hi.resolve_right fun hi => hne (hgrowth.plain i hi)
      rw [hlabel]
      exact ⟨(h.joins old hmem i hi hne).1, fun p hp => h.joins_old hgrowth hmem hi hne hp⟩
    · exact ⟨(hgrowth.joins b hb i hi hne).1, fun p hp => h.joins_new hgrowth hb hi hne hp⟩

end Grow

end Block

/-- The labels of a function, in order. -/
def Function.labels (f : Function) : List Label := f.lines.toList.filterMap fun
  | .label l => some l
  | _ => none

end Monomorph.IR
