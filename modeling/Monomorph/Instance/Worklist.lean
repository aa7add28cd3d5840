import Monomorph.Diagnostic.Basic
import Monomorph.Symbol.Encode
import Monomorph.Text.Sorted

/-!
# The worklist of instances

Every request that a concrete version of a generic item exist goes through the worklist. The
first request for a kind and symbol is queued, later ones are answered with the same symbol.
Queued items are handed out in rounds, since generating one may request more. A request whose
arguments are still open is put aside and answered with a placeholder.
-/

namespace Monomorph

/-- The kind of an instance. -/
inductive InstanceKind
  | struct
  | enum
  | cls
  | func
  | method
  deriving DecidableEq, Inhabited

/-- The word for a kind. -/
def InstanceKind.text : InstanceKind → String
  | struct => "struct"
  | enum => "enum"
  | cls => "class"
  | func => "func"
  | method => "method"

/-- The method of a method instance. -/
structure MethodKey where
  name : String
  /-- The method's own arguments. -/
  args : List Ty
  deriving DecidableEq, Inhabited

/-- One requested instance. -/
structure WorkItem where
  kind : InstanceKind
  /-- The generic item; the owner for a method. -/
  base : String
  /-- The arguments; those of the owner for a method. -/
  args : List Ty
  /-- The method, for a method instance. -/
  method : Option MethodKey := none
  symbol : String
  deriving DecidableEq, Inhabited

namespace WorkItem

/-- The instance of a struct, enum, class or function. -/
def plain (kind : InstanceKind) (base : String) (args : List Ty) : WorkItem :=
  { kind, base, args, symbol := Symbol.ofInstance base args }

/-- The instance of a method. -/
def ofMethod (owner : String) (ownerArgs : List Ty) (method : String) (methodArgs : List Ty) :
    WorkItem where
  kind := .method
  base := owner
  args := ownerArgs
  method := some ⟨method, methodArgs⟩
  symbol := Symbol.ofMethod owner ownerArgs method methodArgs

/-- An instance that cannot be named yet. -/
def unresolved (kind : InstanceKind) (base : String) (args : List Ty) : WorkItem :=
  { kind, base, args, symbol := Symbol.placeholder base }

end WorkItem

/-- A worklist that still had items after the last round. -/
structure NonConvergence where
  rounds : Nat
  /-- The symbols of the items left, in increasing order, each once. -/
  pending : List String
  deriving DecidableEq, Inhabited

namespace NonConvergence

/-- The failure in words. -/
def message (e : NonConvergence) : String :=
  "instantiation worklist did not converge after " ++ toString e.rounds ++
    " rounds; pending: " ++ String.intercalate ", " e.pending

/-- The failure as a diagnostic. -/
def diagnostic (e : NonConvergence) : Diagnostic where
  code := .nonConvergent
  message := e.message
  notes :=
    [toString e.pending.length ++ " instantiation(s) still pending; look for a generic item " ++
      "that calls itself with a larger type"]

end NonConvergence

/-- The requests so far. -/
structure Worklist where
  /-- The greatest number of rounds. -/
  maxRounds : Nat
  /-- Kind and symbol of everything requested. -/
  generated : List (InstanceKind × String) := []
  /-- Items that wait for the next round. -/
  queue : List WorkItem := []
  /-- Items that were handed out, in order. -/
  processed : List WorkItem := []
  /-- Requests with open arguments. -/
  deferred : List WorkItem := []
  /-- The number of rounds handed out. -/
  rounds : Nat := 0
  deriving DecidableEq, Inhabited

namespace Worklist

/-- Whether an instance was requested. -/
def isGenerated (w : Worklist) (kind : InstanceKind) (symbol : String) : Bool :=
  w.generated.contains (kind, symbol)

/-- Request an item, and answer its symbol. Only the first request for its kind and symbol is
queued. -/
def require (w : Worklist) (item : WorkItem) : String × Worklist :=
  (item.symbol,
    if w.isGenerated item.kind item.symbol then w
    else
      { w with
        generated := (item.kind, item.symbol) :: w.generated
        queue := w.queue ++ [item] })

/-- Put aside a request with open arguments, unless it was put aside before, and answer a
placeholder. -/
def defer (w : Worklist) (kind : InstanceKind) (base : String) (args : List Ty) :
    String × Worklist :=
  (Symbol.placeholder base,
    if w.deferred.any fun d => d.kind = kind && d.base = base && d.args = args then w
    else { w with deferred := w.deferred ++ [.unresolved kind base args] })

/-- Hand out the whole queue as the next round: nothing when it is empty, and a failure when the
rounds are used up, which leaves the worklist as it is. -/
def nextRound (w : Worklist) : Except NonConvergence (Option (List WorkItem)) × Worklist :=
  if w.queue.isEmpty then (.ok none, w)
  else if w.maxRounds ≤ w.rounds then
    (.error ⟨w.rounds, Sorted.distinct (w.queue.map WorkItem.symbol)⟩, w)
  else
    (.ok (some w.queue),
      { w with
        queue := []
        processed := w.processed ++ w.queue
        rounds := w.rounds + 1 })

end Worklist

end Monomorph
