import Monomorph.Symbol.Encode

/-!
# Requests for dispatch tables

A dispatch table is a global constant. Whoever needs one learns its name at once; the table itself
is written later, once for each name.
-/

namespace Monomorph.Dispatch

/-- The table of a type for a behavior. -/
def behaviorTable (selfTy : Ty) (behavior : String) (args : List Ty) : String :=
  "@vtable." ++ selfTy.symbol ++ "." ++ Symbol.ofInstance behavior args

/-- The table of a class instance. -/
def classTable (name : String) (args : List Ty) : String :=
  "@vtable." ++ Symbol.ofInstance name args

/-- A table to be written. -/
inductive Request
  | behavior (selfTy : Ty) (name : String) (args : List Ty)
  | cls (name : String) (args : List Ty)
  deriving DecidableEq, Inhabited

/-- The name of the requested table. -/
def Request.table : Request → String
  | .behavior selfTy name args => behaviorTable selfTy name args
  | .cls name args => classTable name args

/-- The requests so far. -/
structure Requests where
  /-- The names of all requested tables. -/
  requested : List String := []
  /-- The tables that are still to be written. -/
  pending : List Request := []
  deriving DecidableEq, Inhabited

namespace Requests

/-- Request a table, and answer its name. Only the first request for a name is kept. -/
def require (r : Requests) (request : Request) : String × Requests :=
  (request.table,
    if r.requested.contains request.table then r
    else { requested := request.table :: r.requested, pending := r.pending ++ [request] })

/-- Whether a table is still to be written. -/
def hasPending (r : Requests) : Bool := !r.pending.isEmpty

/-- Hand out the tables to be written. -/
def take (r : Requests) : List Request × Requests :=
  (r.pending, { r with pending := [] })

end Requests

end Monomorph.Dispatch
