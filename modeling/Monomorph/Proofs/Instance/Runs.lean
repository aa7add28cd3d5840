import Monomorph.Proofs.Instance.Tracks

/-!
# Runs of a worklist

A run applies requests, deferrals and rounds in any order, and keeps what each of them answered.
Everything a worklist holds after a run can be read off those answers.

## Main results

* `Worklist.Follows.perform`, `Worklist.run_accounts`.
-/

namespace Monomorph

open List

namespace Worklist

/-- What can be asked of a worklist. -/
inductive Operation
  /-- Request a struct, enum, class or function. -/
  | plain (kind : InstanceKind) (base : String) (args : List Ty)
  /-- Request a method. -/
  | method (owner : String) (ownerArgs : List Ty) (name : String) (args : List Ty)
  /-- Put a request aside. -/
  | defer (kind : InstanceKind) (base : String) (args : List Ty)
  /-- Ask for the next round. -/
  | round

/-- What an operation answers. -/
inductive Answer
  /-- The symbol to use for the instance. -/
  | symbol (text : String)
  /-- The items of a round. -/
  | batch (items : List WorkItem)
  /-- Nothing is queued. -/
  | done
  /-- The rounds are used up. -/
  | failed (failure : NonConvergence)

/-- An operation with its answer. -/
abbrev Event := Operation × Answer

/-- The item that an operation requests. -/
def Operation.item? : Operation → Option WorkItem
  | plain kind base args => some (.plain kind base args)
  | method owner ownerArgs name args => some (.ofMethod owner ownerArgs name args)
  | defer .. | round => none

/-- The items of a round that was handed out. -/
def Answer.batch? : Answer → Option (List WorkItem)
  | batch items => some items
  | symbol _ | done | failed _ => none

/-- The items requested in a history, in order. -/
def requests (history : List Event) : List WorkItem :=
  history.filterMap fun event => event.1.item?

/-- The rounds handed out in a history, in order. -/
def batches (history : List Event) : List (List WorkItem) :=
  history.filterMap fun event => event.2.batch?

/-- The answer to an operation and the worklist after it. -/
def perform (w : Worklist) : Operation → Answer × Worklist
  | .plain kind base args => (w.require (.plain kind base args)).map .symbol id
  | .method owner ownerArgs name args =>
    (w.require (.ofMethod owner ownerArgs name args)).map .symbol id
  | .defer kind base args => (w.defer kind base args).map .symbol id
  | .round =>
    match w.nextRound with
    | (.ok none, rest) => (.done, rest)
    | (.ok (some batch), rest) => (.batch batch, rest)
    | (.error failure, rest) => (.failed failure, rest)

/-- The history of a sequence of operations and the worklist after them. -/
def run (w : Worklist) : List Operation → List Event × Worklist
  | [] => ([], w)
  | op :: ops =>
    let (answer, next) := w.perform op
    let (history, last) := next.run ops
    ((op, answer) :: history, last)

theorem requests_concat (history : List Event) (event : Event) :
    requests (history ++ [event]) = requests history ++ event.1.item?.toList := by
  rw [requests, filterMap_append, filterMap_cons]
  cases event.1.item? <;> rfl

theorem batches_concat (history : List Event) (event : Event) :
    batches (history ++ [event]) = batches history ++ event.2.batch?.toList := by
  rw [batches, filterMap_append, filterMap_cons]
  cases event.2.batch? <;> rfl

/-! ### Deferred requests -/

/-- Two requests that differ in kind, item or arguments. -/
def Distinguished (a b : WorkItem) : Prop :=
  ¬ (a.kind = b.kind ∧ a.base = b.base ∧ a.args = b.args)

theorem deferred_require (w : Worklist) (item : WorkItem) :
    (w.require item).2.deferred = w.deferred := by
  rw [require]
  split <;> rfl

/-- Putting a request aside keeps the requests put aside distinguished. -/
theorem pairwise_deferred_defer {w : Worklist} (h : w.deferred.Pairwise Distinguished)
    (kind : InstanceKind) (base : String) (args : List Ty) :
    (w.defer kind base args).2.deferred.Pairwise Distinguished := by
  rw [defer]
  split
  · exact h
  next hnew =>
    refine pairwise_append.2 ⟨h, pairwise_singleton _ _, ?_⟩
    intro d hd item hitem heq
    rw [mem_singleton.1 hitem] at heq
    refine hnew (any_eq_true.2 ⟨d, hd, ?_⟩)
    simpa [WorkItem.unresolved, and_assoc] using heq

/-! ### Histories -/

/-- A worklist that agrees with a history. -/
structure Follows (maxRounds : Nat) (history : List Event) (w : Worklist) : Prop where
  limit : w.maxRounds = maxRounds
  /-- A request was answered with the item's symbol. -/
  answered : ∀ op answer item, (op, answer) ∈ history → op.item? = some item →
    answer = .symbol item.symbol
  held : w.Tracks (requests history)
  handedOut : (batches history).flatten = w.processed
  nonempty : ∀ batch ∈ batches history, batch ≠ []
  counted : w.rounds = (batches history).length
  bounded : w.rounds ≤ maxRounds
  apart : w.deferred.Pairwise Distinguished

theorem follows_nil (maxRounds : Nat) : Follows maxRounds [] { maxRounds } where
  limit := rfl
  answered _ _ _ h := nomatch h
  held := tracks_nil maxRounds
  handedOut := rfl
  nonempty _ h := nomatch h
  counted := rfl
  bounded := Nat.zero_le _
  apart := .nil

namespace Follows

variable {maxRounds : Nat} {history : List Event} {w : Worklist} {event : Event}
  (h : Follows maxRounds history w)

include h

/-- One more event keeps the answers to requests in order. -/
theorem answered_concat
    (hevent : ∀ item, event.1.item? = some item → event.2 = .symbol item.symbol) :
    ∀ op answer item, (op, answer) ∈ history ++ [event] → op.item? = some item →
      answer = .symbol item.symbol := by
  intro op answer item hmem hitem
  rcases mem_append.1 hmem with hold | hnew
  · exact h.answered op answer item hold hitem
  · cases mem_singleton.1 hnew
    exact hevent item hitem

/-- An event that hands out no round leaves the rounds as they were. -/
theorem quiet {w' : Worklist}
    (hevent : ∀ item, event.1.item? = some item → event.2 = .symbol item.symbol)
    (hbatch : event.2.batch? = none) (hrounds : w.SameRounds w')
    (hheld : w'.Tracks (requests history ++ event.1.item?.toList))
    (hapart : w'.deferred.Pairwise Distinguished) : Follows maxRounds (history ++ [event]) w' := by
  have hbatches : batches (history ++ [event]) = batches history := by
    rw [batches_concat, hbatch, Option.toList_none, append_nil]
  exact {
    limit := hrounds.limit.trans h.limit
    answered := h.answered_concat hevent
    held := requests_concat history event ▸ hheld
    handedOut := by rw [hbatches, hrounds.processed, h.handedOut]
    nonempty := hbatches ▸ h.nonempty
    counted := by rw [hbatches, hrounds.rounds, h.counted]
    bounded := hrounds.rounds ▸ h.bounded
    apart := hapart }

theorem request {op : Operation} {item : WorkItem} (hitem : op.item? = some item) :
    Follows maxRounds (history ++ [(op, .symbol item.symbol)]) (w.require item).2 := by
  have hheld : (w.require item).2.Tracks (requests history ++ op.item?.toList) :=
    hitem ▸ h.held.require item
  have hanswer (item' : WorkItem) (hitem' : op.item? = some item') :
      Answer.symbol item.symbol = .symbol item'.symbol := by
    rw [Option.some.inj (hitem.symm.trans hitem')]
  exact h.quiet hanswer rfl (w.sameRounds_require item) hheld (w.deferred_require item ▸ h.apart)

theorem defer (kind : InstanceKind) (base : String) (args : List Ty) :
    Follows maxRounds (history ++ [(.defer kind base args, .symbol (Symbol.placeholder base))])
      (w.defer kind base args).2 := by
  have hheld := h.held.defer kind base args
  rw [← append_nil (requests history)] at hheld
  exact h.quiet (fun _ hitem => nomatch hitem) rfl (w.sameRounds_defer kind base args) hheld
    (pairwise_deferred_defer h.apart kind base args)

/-- A round that is handed out. -/
theorem handOut (hqueue : w.queue ≠ []) (hrounds : w.rounds < w.maxRounds) :
    Follows maxRounds (history ++ [(.round, .batch w.queue)]) w.handOut := by
  have hbatches := batches_concat history (.round, .batch w.queue)
  have hrequests := requests_concat history (.round, .batch w.queue)
  simp only [Answer.batch?, Option.toList_some] at hbatches
  simp only [Operation.item?, Option.toList_none, append_nil] at hrequests
  exact {
    limit := h.limit
    answered := h.answered_concat fun _ hitem => nomatch hitem
    held := hrequests ▸ h.held.handOut
    handedOut := by
      rw [hbatches, flatten_append, h.handedOut, flatten_singleton]; rfl
    nonempty := by
      rw [hbatches, forall_mem_append]
      exact ⟨h.nonempty, forall_mem_singleton.2 hqueue⟩
    counted := by rw [hbatches, length_append, ← h.counted]; rfl
    bounded := h.limit ▸ hrounds
    apart := h.apart }

/-- An operation and its answer extend the history. -/
theorem perform (op : Operation) :
    Follows maxRounds (history ++ [(op, (w.perform op).1)]) (w.perform op).2 := by
  cases op with
  | plain | method => exact h.request rfl
  | defer kind base args => exact h.defer kind base args
  | round =>
    have hheld : w.Tracks (requests history ++ Operation.round.item?.toList) :=
      (append_nil (requests history)).symm ▸ h.held
    obtain ⟨-, hround⟩ | ⟨-, -, hround⟩ | ⟨hqueue, hrounds, hround⟩ := w.nextRound_cases
    · simp only [Worklist.perform, hround]
      exact h.quiet (fun _ hitem => nomatch hitem) rfl (.refl w) hheld h.apart
    · simp only [Worklist.perform, hround]
      exact h.quiet (fun _ hitem => nomatch hitem) rfl (.refl w) hheld h.apart
    · simp only [Worklist.perform, hround]
      exact h.handOut hqueue hrounds

/-- A run extends the history by its own. -/
theorem run (ops : List Operation) :
    Follows maxRounds (history ++ (w.run ops).1) (w.run ops).2 := by
  induction ops generalizing history w with
  | nil => rw [Worklist.run, append_nil]; exact h
  | cons op ops ih =>
    have hrest := ih (h.perform op)
    rw [append_assoc] at hrest
    exact hrest

/-- A kind and symbol are known exactly if a request of that kind was answered with the symbol. -/
theorem isGenerated_iff (kind : InstanceKind) (symbol : String) :
    w.isGenerated kind symbol = true ↔ ∃ op item,
      (op, .symbol symbol) ∈ history ∧ op.item? = some item ∧ item.kind = kind := by
  rw [Worklist.isGenerated_iff, h.held.known, mem_map]
  constructor
  · rintro ⟨item, hmem, hkey⟩
    obtain ⟨⟨op, answer⟩, hevent, hitem⟩ := mem_filterMap.1 hmem
    have hanswer := h.answered op answer item hevent hitem
    rw [WorkItem.key, Prod.mk.injEq] at hkey
    rw [hkey.2] at hanswer
    exact ⟨op, item, hanswer ▸ hevent, hitem, hkey.1⟩
  · rintro ⟨op, item, hevent, hitem, hkind⟩
    refine ⟨item, mem_filterMap.2 ⟨_, hevent, hitem⟩, ?_⟩
    rw [WorkItem.key, hkind, Answer.symbol.inj (h.answered op _ item hevent hitem)]

/-- Asking for a round fails exactly if items are left and no round is. -/
theorem nextRound_fails_iff :
    (∃ failure, w.nextRound.1 = .error failure) ↔ w.queue ≠ [] ∧ w.rounds = maxRounds := by
  have hbounded := h.bounded
  have hlimit := h.limit
  obtain ⟨hqueue, hround⟩ | ⟨hqueue, hrounds, hround⟩ | ⟨hqueue, hrounds, hround⟩ :=
    w.nextRound_cases
  · simp [hround, hqueue]
  · simp only [hround, Except.error.injEq, exists_eq', true_iff]
    exact ⟨hqueue, by omega⟩
  · simp only [hround, reduceCtorEq, exists_false, false_iff, not_and]
    exact fun _ => by omega

end Follows

/-- The failure of a round names the symbols left, in increasing order. -/
theorem pending_of_nextRound {w : Worklist} {failure : NonConvergence}
    (h : w.nextRound.1 = .error failure) :
    w.nextRound = (.error failure, w) ∧ failure.rounds = w.rounds ∧
      failure.pending.Pairwise (· < ·) ∧
      ∀ symbol, symbol ∈ failure.pending ↔ symbol ∈ w.queue.map WorkItem.symbol := by
  obtain ⟨-, hround⟩ | ⟨-, -, hround⟩ | ⟨-, -, hround⟩ := w.nextRound_cases
  · cases (congrArg Prod.fst hround).symm.trans h
  · cases (congrArg Prod.fst hround).symm.trans h
    exact ⟨hround, rfl, Sorted.pairwise_distinct _, fun symbol => Sorted.mem_distinct symbol _⟩
  · cases (congrArg Prod.fst hround).symm.trans h

/-- After any run: the rounds handed out are the items processed, and those with the queue are the
requests that were first for their kind and symbol, none twice; what is known is what was requested;
the rounds are counted and keep the limit; a round fails exactly if items are left and no round is,
which changes nothing and names the symbols left; and putting a request aside touches nothing else
and never does so twice. -/
theorem run_accounts (maxRounds : Nat) (ops : List Operation) :
    let (history, w) := run { maxRounds } ops
    ((batches history).flatten = w.processed ∧
      w.processed ++ w.queue = firsts WorkItem.key (requests history) ∧
      ((w.processed ++ w.queue).map WorkItem.key).Nodup) ∧
    (∀ kind symbol, w.isGenerated kind symbol = true ↔ ∃ op item,
      (op, .symbol symbol) ∈ history ∧ op.item? = some item ∧ item.kind = kind) ∧
    (w.rounds = ((batches history).filter (· ≠ [])).length ∧ w.rounds ≤ maxRounds) ∧
    ((∃ failure, w.nextRound.1 = .error failure) ↔ w.queue ≠ [] ∧ w.rounds = maxRounds) ∧
    (∀ failure, w.nextRound.1 = .error failure →
      w.nextRound = (.error failure, w) ∧ failure.rounds = w.rounds ∧
      failure.pending.Pairwise (· < ·) ∧
      ∀ symbol, symbol ∈ failure.pending ↔ symbol ∈ w.queue.map WorkItem.symbol) ∧
    (∀ kind base args, (w.defer kind base args).2.queue = w.queue ∧
      (w.defer kind base args).2.generated = w.generated ∧
      (w.defer kind base args).2.processed = w.processed) ∧
    w.deferred.Pairwise Distinguished := by
  have h := (follows_nil maxRounds).run ops
  rw [List.nil_append] at h
  refine ⟨⟨h.handedOut, h.held.items, h.held.nodup⟩, h.isGenerated_iff, ⟨?_, h.bounded⟩,
    h.nextRound_fails_iff, fun failure => pending_of_nextRound,
    fun kind base args => ?_, h.apart⟩
  · have hall : ∀ batch ∈ batches (run { maxRounds } ops).1, decide (batch ≠ []) = true :=
      fun batch hbatch => decide_eq_true (h.nonempty batch hbatch)
    rw [List.filter_eq_self.2 hall]
    exact h.counted
  · rw [defer]
    split <;> exact ⟨rfl, rfl, rfl⟩

end Worklist

end Monomorph
