import Mathlib.Data.List.Basic
import Monomorph.Diagnostic.Queue

/-!
# What a queue of diagnostics keeps

Whatever is pushed and flushed, a queue holds what was pushed since the last flush, less the errors
beyond the limit and the repetitions of what it holds. The queue decides this by a counter and by a
list of keys, which every request keeps in step with what the queue holds. So what is dropped leaves
no trace: it neither uses up the limit nor makes a later diagnostic a repetition.

## Main results

* `DiagnosticQueue.InStep.push`, `DiagnosticQueue.filter_sortByPlace`,
  `DiagnosticQueue.queue_accounts`.
-/

namespace Monomorph

open List

/-- A diagnostic is not kept along with those kept before it: it is an error and as many errors as
allowed are kept, or it says what one of them says, at the same place. -/
def Diagnostic.Dropped (errorLimit : Nat) (deduplicate : Bool) (kept : List Diagnostic)
    (d : Diagnostic) : Prop :=
  (d.severity = .error ∧ 0 < errorLimit ∧
    (kept.filter fun other => other.severity = .error).length = errorLimit) ∨
  (deduplicate = true ∧ ∃ other ∈ kept, other.code = d.code ∧
    other.primarySpan = d.primarySpan ∧ other.message = d.message)

namespace DiagnosticQueue

/-- What is done to a queue. -/
inductive Request
  | push (d : Diagnostic)
  | flush

/-- The queue after a request. -/
def serve (q : DiagnosticQueue) : Request → DiagnosticQueue
  | .push d => (q.push d).2
  | .flush => q.flush.2

/-- What was pushed since the last flush, after a request. -/
def extend (pushed : List Diagnostic) : Request → List Diagnostic
  | .push d => pushed ++ [d]
  | .flush => []

/-- What is left of diagnostics that are pushed one after the other. -/
inductive Keeps (errorLimit : Nat) (deduplicate : Bool) : List Diagnostic → List Diagnostic → Prop
  | nil : Keeps errorLimit deduplicate [] []
  | keep {pushed kept d} (h : Keeps errorLimit deduplicate pushed kept)
      (hd : ¬ d.Dropped errorLimit deduplicate kept) :
      Keeps errorLimit deduplicate (pushed ++ [d]) (kept ++ [d])
  | drop {pushed kept d} (h : Keeps errorLimit deduplicate pushed kept)
      (hd : d.Dropped errorLimit deduplicate kept) :
      Keeps errorLimit deduplicate (pushed ++ [d]) kept

variable {errorLimit : Nat} {deduplicate : Bool} {pushed kept : List Diagnostic}
  {q : DiagnosticQueue} {d : Diagnostic}

theorem Keeps.subset (h : Keeps errorLimit deduplicate pushed kept) : kept ⊆ pushed := by
  induction h with
  | nil => exact nil_subset _
  | keep _ _ ih =>
    exact append_subset.2 ⟨List.Subset.trans ih (subset_append_left _ _), subset_append_right _ _⟩
  | drop _ _ ih => exact List.Subset.trans ih (subset_append_left _ _)

/-- Only errors and what says the same are kept in place of an error. -/
theorem Keeps.exists_error (h : Keeps errorLimit deduplicate pushed kept) (hd : d ∈ pushed)
    (herror : d.isError = true) : ∃ own ∈ kept, own.isError = true ∨ own.code = d.code := by
  induction h with
  | nil => cases hd
  | keep _ _ ih =>
    obtain hd | hd := mem_append.1 hd
    · obtain ⟨own, hown, hor⟩ := ih hd
      exact ⟨own, mem_append_left _ hown, hor⟩
    · obtain rfl := mem_singleton.1 hd
      exact ⟨d, mem_append_right _ mem_cons_self, .inl herror⟩
  | drop _ hdropped ih =>
    obtain hd | hd := mem_append.1 hd
    · exact ih hd
    · obtain rfl := mem_singleton.1 hd
      obtain ⟨-, hpos, hcount⟩ | ⟨-, own, hown, hcode, -⟩ := hdropped
      · obtain ⟨own, hown⟩ := exists_mem_of_length_pos (hcount ▸ hpos)
        exact ⟨own, mem_of_mem_filter hown, .inl (of_mem_filter hown)⟩
      · exact ⟨own, hown, .inr hcode⟩

/-! ### The counter and the keys -/

/-- The counter and the keys of a queue stand for what it holds. -/
structure InStep (q : DiagnosticQueue) : Prop where
  errorCount : q.errorCount = (q.kept.filter fun other => other.severity = .error).length
  seen : q.deduplicate = true → ∀ key, key ∈ q.seen ↔ ∃ other ∈ q.kept, other.key = key

/-- Everything that a push can do. -/
theorem push_cases (q : DiagnosticQueue) (d : Diagnostic) :
    (q.push d = (false, q) ∧
        (d.isError = true ∧ q.limitReached = true ∨ q.deduplicate = true ∧ d.key ∈ q.seen)) ∨
      (q.push d = (true, q.keep d) ∧ (d.isError = true → q.limitReached = false) ∧
        (q.deduplicate = true → d.key ∉ q.seen)) := by
  rw [push]
  split
  next hlimit => exact .inl ⟨rfl, .inl (by simpa using hlimit)⟩
  next hlimit =>
    split
    next hseen => exact .inl ⟨rfl, .inr (by simpa using hseen)⟩
    next hseen => exact .inr ⟨rfl, by simpa using hlimit, by simpa using hseen⟩

theorem InStep.keep (h : q.InStep) (d : Diagnostic) : (q.keep d).InStep where
  errorCount := by
    simp only [DiagnosticQueue.keep, filter_append, length_append, ← h.errorCount]
    by_cases herror : d.severity = .error <;> simp [Diagnostic.isError, herror]
  seen hdeduplicate key := by
    have hdeduplicate : q.deduplicate = true := hdeduplicate
    simp only [DiagnosticQueue.keep, hdeduplicate, if_true, mem_cons, mem_append, not_mem_nil,
      or_false, h.seen hdeduplicate]
    grind

/-- A push keeps the counter and the keys in step, whether the diagnostic is kept or not. -/
theorem InStep.push (h : q.InStep) (d : Diagnostic) : (q.push d).2.InStep := by
  obtain ⟨hpush, -⟩ | ⟨hpush, -⟩ := q.push_cases d
  · rwa [hpush]
  · rw [hpush]
    exact h.keep d

/-! ### What is kept -/

/-- A queue with the given settings holds what it should of what was pushed, and so keeps to the
limit. -/
structure Accounts (errorLimit : Nat) (deduplicate : Bool) (pushed : List Diagnostic)
    (q : DiagnosticQueue) : Prop where
  settings : q.errorLimit = errorLimit ∧ q.deduplicate = deduplicate
  inStep : q.InStep
  keeps : Keeps errorLimit deduplicate pushed q.kept
  limit : 0 < errorLimit → q.errorCount ≤ errorLimit

theorem accounts_empty (errorLimit : Nat) (deduplicate : Bool) :
    Accounts errorLimit deduplicate [] { errorLimit, deduplicate } :=
  ⟨⟨rfl, rfl⟩, ⟨rfl, fun _ key => by simp⟩, .nil, fun _ => Nat.zero_le _⟩

theorem Accounts.push_iff (h : Accounts errorLimit deduplicate pushed q) (d : Diagnostic) :
    (q.push d).1 = true ↔ ¬ d.Dropped errorLimit deduplicate q.kept := by
  obtain ⟨⟨rfl, rfl⟩, hinStep, -, hlimit⟩ := h
  have hreached : q.limitReached = true ↔ 0 < q.errorLimit ∧ q.errorCount = q.errorLimit := by
    rw [limitReached, Bool.and_eq_true, decide_eq_true_eq, decide_eq_true_eq]
    exact and_congr_right fun hpos =>
      ⟨fun hle => Nat.le_antisymm (hlimit hpos) hle, fun heq => Nat.le_of_eq heq.symm⟩
  have hdropped : d.Dropped q.errorLimit q.deduplicate q.kept ↔
      d.isError = true ∧ q.limitReached = true ∨ q.deduplicate = true ∧ d.key ∈ q.seen := by
    rw [Diagnostic.Dropped, ← hinStep.errorCount, hreached]
    refine or_congr (by simp [Diagnostic.isError]) (and_congr_right fun hdeduplicate => ?_)
    simp [hinStep.seen hdeduplicate, Diagnostic.key]
  rw [hdropped]
  obtain ⟨hpush, hdrops⟩ | ⟨hpush, herror, hkey⟩ := q.push_cases d
  · simp [hpush, hdrops]
  · simp only [hpush, true_iff, not_or, not_and, Bool.not_eq_true]
    exact ⟨herror, hkey⟩

theorem Accounts.push (h : Accounts errorLimit deduplicate pushed q) (d : Diagnostic) :
    Accounts errorLimit deduplicate (pushed ++ [d]) (q.push d).2 := by
  have hiff := h.push_iff d
  have hinStep := h.inStep.push d
  obtain ⟨hpush, -⟩ | ⟨hpush, herror, -⟩ := q.push_cases d
  · rw [hpush] at hiff ⊢
    exact ⟨h.settings, h.inStep, .drop h.keeps (not_not.1 (mt hiff.2 Bool.false_ne_true)), h.limit⟩
  · rw [hpush] at hiff hinStep ⊢
    refine ⟨h.settings, hinStep, .keep h.keeps (hiff.1 rfl), fun hpos => ?_⟩
    obtain ⟨hsettings, -⟩ := h.settings
    have hle := h.limit hpos
    by_cases hd : d.isError = true
    · have hreached := herror hd
      simp only [limitReached, hsettings, hpos, decide_true, Bool.true_and,
        decide_eq_false_iff_not] at hreached
      simpa [keep, hd] using Nat.succ_le_of_lt (Nat.lt_of_not_le hreached)
    · simpa [keep, hd] using hle

theorem Accounts.foldl_push (h : Accounts errorLimit deduplicate pushed q) (ds : List Diagnostic) :
    Accounts errorLimit deduplicate (pushed ++ ds) (ds.foldl (fun q d => (q.push d).2) q) := by
  induction ds generalizing pushed q with
  | nil => rwa [append_nil]
  | cons d ds ih =>
    rw [append_cons]
    exact ih (h.push d)

/-- A request leaves a queue that holds what it should. -/
theorem Accounts.serve (h : Accounts errorLimit deduplicate pushed q) (request : Request) :
    Accounts errorLimit deduplicate (extend pushed request) (q.serve request) := by
  cases request with
  | flush => exact ⟨h.settings, ⟨rfl, fun _ key => by simp [DiagnosticQueue.serve, flush]⟩, .nil,
      fun _ => Nat.zero_le _⟩
  | push d => exact h.push d

theorem Accounts.foldl (h : Accounts errorLimit deduplicate pushed q) (requests : List Request) :
    Accounts errorLimit deduplicate (requests.foldl extend pushed) (requests.foldl .serve q) := by
  induction requests generalizing pushed q with
  | nil => exact h
  | cons request requests ih => exact ih (h.serve request)

/-! ### Flushing -/

private theorem place_trans (a b c : Diagnostic)
    (hab : decide (a.primarySpan.start ≤ b.primarySpan.start) = true)
    (hbc : decide (b.primarySpan.start ≤ c.primarySpan.start) = true) :
    decide (a.primarySpan.start ≤ c.primarySpan.start) = true :=
  decide_eq_true (Nat.le_trans (of_decide_eq_true hab) (of_decide_eq_true hbc))

private theorem place_total (a b : Diagnostic) :
    (decide (a.primarySpan.start ≤ b.primarySpan.start) ||
      decide (b.primarySpan.start ≤ a.primarySpan.start)) = true := by
  simpa using Nat.le_total _ _

/-- Diagnostics that start at one place stay in the order in which they came. -/
theorem filter_sortByPlace (ds : List Diagnostic) (start : Nat) :
    (sortByPlace ds).filter (fun d => d.primarySpan.start = start) =
      ds.filter fun d => d.primarySpan.start = start := by
  have hsublist : ds.filter (fun d => d.primarySpan.start = start) <+ sortByPlace ds := by
    refine sublist_mergeSort place_trans place_total ?_ filter_sublist
    refine pairwise_of_forall_mem_list fun a ha b hb => decide_eq_true (Nat.le_of_eq ?_)
    rw [of_decide_eq_true (mem_filter.1 ha).2, of_decide_eq_true (mem_filter.1 hb).2]
  have hfilter := hsublist.filter fun d => d.primarySpan.start = start
  simp only [filter_filter, Bool.and_self] at hfilter
  exact (hfilter.eq_of_length ((mergeSort_perm _ _).filter _).length_eq.symm).symm

/-- Whatever is pushed to a queue and flushed from it, the queue holds what was pushed since the
last flush, less what is dropped. A push answers whether the diagnostic is kept, and changes nothing
if it is not. The counter is the number of errors held, up to the limit, and the keys are those of
what is held. Flushing sorts by place, keeps the order of arrival at each place, and leaves the
queue as it was at first. -/
theorem queue_accounts (errorLimit : Nat) (deduplicate : Bool) (requests : List Request)
    (d : Diagnostic) :
    let q := requests.foldl serve { errorLimit, deduplicate }
    Keeps errorLimit deduplicate (requests.foldl extend []) q.kept ∧
    ((q.push d).1 = true ↔ ¬ d.Dropped errorLimit deduplicate q.kept) ∧
    ((q.push d).1 = true → (q.push d).2.kept = q.kept ++ [d]) ∧
    ((q.push d).1 = false → (q.push d).2 = q) ∧
    q.errorCount = (q.kept.filter fun other => other.severity = .error).length ∧
    (deduplicate = true → ∀ key, key ∈ q.seen ↔ ∃ other ∈ q.kept, other.key = key) ∧
    (0 < errorLimit → q.errorCount ≤ errorLimit) ∧
    q.flush.1.Perm q.kept ∧
    q.flush.1.Pairwise (fun a b => a.primarySpan.start ≤ b.primarySpan.start) ∧
    (∀ start, q.flush.1.filter (fun d => d.primarySpan.start = start) =
      q.kept.filter fun d => d.primarySpan.start = start) ∧
    q.flush.2 = { errorLimit, deduplicate } := by
  intro q
  have h : Accounts errorLimit deduplicate (requests.foldl extend []) q :=
    (accounts_empty errorLimit deduplicate).foldl requests
  obtain ⟨hlimit, hdeduplicate⟩ := h.settings
  refine ⟨h.keeps, h.push_iff d, fun hkept => ?_, fun hdropped => ?_, h.inStep.errorCount,
    fun hseen => h.inStep.seen (hdeduplicate.trans hseen), h.limit, mergeSort_perm _ _,
    (pairwise_mergeSort place_trans place_total _).imp of_decide_eq_true,
    filter_sortByPlace q.kept, ?_⟩
  · obtain ⟨hpush, -⟩ | ⟨hpush, -⟩ := q.push_cases d
    · rw [hpush] at hkept
      cases hkept
    · rw [hpush]
      rfl
  · obtain ⟨hpush, -⟩ | ⟨hpush, -⟩ := q.push_cases d
    · rw [hpush]
    · rw [hpush] at hdropped
      cases hdropped
  · rw [flush, hlimit, hdeduplicate]

end DiagnosticQueue

end Monomorph
