import Monomorph.Dispatch.Requests
import Monomorph.Proofs.Text.Firsts

/-!
# What the requests for dispatch tables keep

The tables that were handed out and those still to be written are together the requests that were
first for their name, in order.
-/

namespace Monomorph.Dispatch

open List

/-- How the names of dispatch tables start. -/
theorem Request.table_starts (request : Request) : "@vtable.".toList <+: request.table.toList := by
  cases request with
  | behavior selfTy name args =>
    rw [table, behaviorTable, String.append_assoc, String.append_assoc, String.toList_append]
    exact prefix_append _ _
  | cls name args =>
    rw [table, classTable, String.toList_append]
    exact prefix_append _ _

namespace Requests

/-- Requests that hold exactly the given ones: handed out or to be written are those that were
first for their name. -/
abbrev Tracks (r : Requests) (taken requests : List Request) : Prop :=
  Recorded Request.table r.requested (taken ++ r.pending) requests

theorem tracks_nil : Tracks {} [] [] := ⟨rfl, fun _ => Iff.rfl⟩

namespace Tracks

variable {r : Requests} {taken requests : List Request}

/-- A request is held from then on. -/
theorem require (h : r.Tracks taken requests) (request : Request) :
    (r.require request).2.Tracks taken (requests ++ [request]) := by
  rw [Requests.require]
  split
  next hseen => exact h.old (contains_iff_mem.1 hseen)
  next hnew =>
    rw [Tracks, ← append_assoc]
    exact h.new fun hseen => hnew (contains_iff_mem.2 hseen)

/-- Handing out the tables changes nothing of what is held. -/
theorem take (h : r.Tracks taken requests) : (r.take.2).Tracks (taken ++ r.take.1) requests := by
  rw [Tracks, Requests.take, append_nil]
  exact h

end Tracks

end Requests

end Monomorph.Dispatch
