import Monomorph.Instance.Worklist
import Monomorph.Proofs.Text.Firsts
import Monomorph.Proofs.Text.Sorted

/-!
# What a worklist keeps of its requests

Whatever was requested, the items that were handed out and those still queued are together the
requests that were first for their kind and symbol, in order. Each operation keeps this: a request
adds itself exactly if its kind and symbol are new, and a round only moves the queue over to the
items handed out.
-/

namespace Monomorph

/-- The kind and the symbol under which an item is known. -/
def WorkItem.key (item : WorkItem) : InstanceKind × String := (item.kind, item.symbol)

namespace Worklist

/-- A worklist that holds exactly the given requests: handed out or queued are those that were
first for their kind and symbol. -/
abbrev Tracks (w : Worklist) (requests : List WorkItem) : Prop :=
  Recorded WorkItem.key w.generated (w.processed ++ w.queue) requests

theorem isGenerated_iff (w : Worklist) (kind : InstanceKind) (symbol : String) :
    w.isGenerated kind symbol = true ↔ (kind, symbol) ∈ w.generated := by
  rw [isGenerated, List.contains_iff_mem]

/-! ### Requests -/

theorem require_of_mem {w : Worklist} {item : WorkItem} (h : item.key ∈ w.generated) :
    (w.require item).2 = w :=
  if_pos ((isGenerated_iff w item.kind item.symbol).2 h)

theorem require_of_notMem {w : Worklist} {item : WorkItem} (h : item.key ∉ w.generated) :
    (w.require item).2 =
      { w with generated := item.key :: w.generated, queue := w.queue ++ [item] } :=
  if_neg fun hitem => h ((isGenerated_iff w item.kind item.symbol).1 hitem)

theorem tracks_nil (maxRounds : Nat) : Tracks { maxRounds } [] :=
  ⟨rfl, fun _ => Iff.rfl⟩

namespace Tracks

variable {w : Worklist} {requests : List WorkItem}

/-- A request is held from then on. -/
theorem require (h : w.Tracks requests) (item : WorkItem) :
    (w.require item).2.Tracks (requests ++ [item]) := by
  by_cases hitem : item.key ∈ w.generated
  · rw [require_of_mem hitem]
    exact h.old hitem
  · rw [require_of_notMem hitem, Tracks, ← List.append_assoc]
    exact h.new hitem

theorem defer (h : w.Tracks requests) (kind : InstanceKind) (base : String) (args : List Ty) :
    (w.defer kind base args).2.Tracks requests := by
  rw [Worklist.defer]
  split <;> exact h

end Tracks

/-! ### Rounds -/

/-- Two worklists between which no round was handed out. -/
structure SameRounds (w w' : Worklist) : Prop where
  limit : w'.maxRounds = w.maxRounds
  processed : w'.processed = w.processed
  rounds : w'.rounds = w.rounds

theorem SameRounds.refl (w : Worklist) : w.SameRounds w := ⟨rfl, rfl, rfl⟩

theorem sameRounds_require (w : Worklist) (item : WorkItem) :
    w.SameRounds (w.require item).2 := by
  rw [require]
  split
  · exact .refl w
  · exact ⟨rfl, rfl, rfl⟩

theorem sameRounds_defer (w : Worklist) (kind : InstanceKind) (base : String) (args : List Ty) :
    w.SameRounds (w.defer kind base args).2 := by
  rw [defer]
  split
  · exact .refl w
  · exact ⟨rfl, rfl, rfl⟩

/-- The worklist after its queue was handed out. -/
def handOut (w : Worklist) : Worklist :=
  { w with queue := [], processed := w.processed ++ w.queue, rounds := w.rounds + 1 }

/-- Everything that asking for a round can do. -/
theorem nextRound_cases (w : Worklist) : (w.queue = [] ∧ w.nextRound = (.ok none, w)) ∨
      (w.queue ≠ [] ∧ w.maxRounds ≤ w.rounds ∧
        w.nextRound = (.error ⟨w.rounds, Sorted.distinct (w.queue.map WorkItem.symbol)⟩, w)) ∨
      (w.queue ≠ [] ∧ w.rounds < w.maxRounds ∧
        w.nextRound = (.ok (some w.queue), w.handOut)) := by
  rw [nextRound]
  by_cases hqueue : w.queue = []
  · exact .inl ⟨hqueue, if_pos (by rw [hqueue]; rfl)⟩
  · have hne : ¬ w.queue.isEmpty = true := by rwa [List.isEmpty_iff]
    rw [if_neg hne]
    by_cases hrounds : w.maxRounds ≤ w.rounds
    · exact .inr (.inl ⟨hqueue, hrounds, if_pos hrounds⟩)
    · exact .inr (.inr ⟨hqueue, Nat.lt_of_not_le hrounds, if_neg hrounds⟩)

/-- Handing out the queue changes nothing of what is held. -/
theorem Tracks.handOut {w : Worklist} {requests : List WorkItem} (h : w.Tracks requests) :
    w.handOut.Tracks requests := by
  rw [Tracks, Worklist.handOut, List.append_nil]
  exact h

end Worklist

end Monomorph
