import Monomorph.Proofs.Ty.Occurrence

/-!
# Precedence of the sources of an argument

The parameters of one use of a generic item are bound by calls of three kinds, in any order: what is
written at the use, what its arguments show, and what the context expects. Calls of one kind leave
the other two sources alone, so only the order among the calls of a kind matters. What is written
replaces what was written before, while the other two sources keep what they found first. A name may
stand for several parameters, and there may be fewer or more written arguments than parameters.

## Main results

* `Binder.foldl_perform_eq`, `Binder.find?_run`, `Binder.resolve_run`.
-/

namespace Monomorph

open List

namespace Bindings

/-- Of several bindings of a name the last counts, and any counts before what was bound. -/
theorem find?_foldl_insert (b : Bindings) (entries : List (String × Ty)) (name : String) :
    (entries.foldl (fun acc entry => acc.insert entry.1 entry.2) b).find? name =
      (entries.reverse.lookup name).or (b.find? name) := by
  induction entries generalizing b with
  | nil => rfl
  | cons entry entries ih =>
    obtain ⟨own, t⟩ := entry
    rw [foldl_cons, ih, find?_insert, reverse_cons, lookup_append, Option.or_assoc,
      lookup_cons, lookup_nil]
    by_cases hname : name = own
    · simp [hname]
    · simp [hname, beq_false_of_ne hname]

end Bindings

namespace Binder

/-- A call that adds to the sources of a binder. -/
inductive Call
  /-- Arguments written at the use. -/
  | explicit (args : List Ty)
  /-- A declared parameter type against the type of its argument. -/
  | infer (pattern concrete : Ty)
  /-- The result type of the item against the type that the context expects. -/
  | expect (pattern expected : Ty)

namespace Call

/-- The binder after a call. -/
def perform (binder : Binder) : Call → Binder
  | explicit args => binder.explicitly args
  | infer pattern concrete => binder.infer pattern concrete
  | expect pattern expected => binder.expect pattern expected

/-- The arguments of a call that writes them. -/
def explicit? : Call → Option (List Ty)
  | explicit args => some args
  | _ => none

/-- The two types of a call that infers. -/
def infer? : Call → Option (Ty × Ty)
  | infer pattern concrete => some (pattern, concrete)
  | _ => none

/-- The two types of a call that expects. -/
def expect? : Call → Option (Ty × Ty)
  | expect pattern expected => some (pattern, expected)
  | _ => none

end Call

/-- The binder that some calls make for the given parameters. -/
def run (params : List String) (calls : List Call) : Binder :=
  calls.foldl Call.perform { params }

section

variable (params : List String) (calls : List Call)

/-- What the calls write, in order: parameters paired with arguments by position. -/
def written : List (String × Ty) := (calls.filterMap Call.explicit?).flatMap params.zip

/-- What the calls that infer meet, in order. -/
def shown : List (String × Ty) :=
  (calls.filterMap Call.infer?).flatMap fun types => types.1.pairs params types.2

/-- What the calls that expect meet, in order. -/
def awaited : List (String × Ty) :=
  (calls.filterMap Call.expect?).flatMap fun types => types.1.pairs params types.2

/-- The argument of a parameter: what was written for it last, else what an argument shows first,
else what the context expects first. -/
def chosen? (name : String) : Option Ty :=
  (((written params calls).reverse.lookup name).or ((shown params calls).lookup name)).or
    ((awaited params calls).lookup name)

end

/-- The sources after a run: each has what the calls of its kind add to it. -/
theorem foldl_perform_eq (binder : Binder) (calls : List Call) : calls.foldl Call.perform binder =
      { params := binder.params
        explicit := (written binder.params calls).foldl
          (fun acc entry => acc.insert entry.1 entry.2) binder.explicit
        inferred := binder.inferred.insertAllNew (shown binder.params calls)
        contextual := binder.contextual.insertAllNew (awaited binder.params calls) } := by
  induction calls generalizing binder with
  | nil => rfl
  | cons call calls ih =>
    rw [foldl_cons, ih]
    cases call with
    | explicit args =>
      simp only [Call.perform, explicitly, written, shown, awaited, filterMap_cons,
        Call.explicit?, Call.infer?, Call.expect?, flatMap_cons, foldl_append]
    | infer pattern concrete | expect pattern concrete =>
      simp only [Call.perform, infer, expect, written, shown, awaited, filterMap_cons,
        Call.explicit?, Call.infer?, Call.expect?, flatMap_cons,
        Ty.matchInto_eq_insertAllNew, Bindings.insertAllNew_append]

theorem find?_run (params : List String) (calls : List Call) (name : String) :
    (run params calls).find? name = chosen? params calls name := by
  simp only [run, foldl_perform_eq, find?, chosen?, Bindings.find?_foldl_insert,
    Bindings.find?_insertAllNew, Bindings.find?_empty, Option.or_none, Option.none_or]

/-- The order of the sources does not matter: calls with the same subsequences of each kind make the
same of the parameters. Each argument is what was written for its parameter last, else what was
inferred first, else what was expected first, else the fallback; the defaulted parameters are those
with none of the three, in declaration order; and a binder is complete if there are none. -/
theorem resolve_run (params : List String) (calls : List Call) :
    (∀ calls', calls'.filterMap Call.explicit? = calls.filterMap Call.explicit? →
        calls'.filterMap Call.infer? = calls.filterMap Call.infer? →
        calls'.filterMap Call.expect? = calls.filterMap Call.expect? →
          (run params calls').isComplete = (run params calls).isComplete ∧
            ∀ fallback, (run params calls').resolve fallback =
              (run params calls).resolve fallback) ∧
      ∀ fallback,
        ((run params calls).resolve fallback).args =
            params.map (fun name => (chosen? params calls name).getD fallback) ∧
          ((run params calls).resolve fallback).defaulted =
            params.filter (fun name => (chosen? params calls name).isNone) ∧
          ((run params calls).isComplete = true ↔
            ((run params calls).resolve fallback).defaulted = []) := by
  have hparams : (run params calls).params = params := by rw [run, foldl_perform_eq]
  refine ⟨fun calls' hexplicit hinfer hexpect => ?_, fun fallback => ⟨?_, ?_, ?_⟩⟩
  · have hsame : run params calls' = run params calls := by
      simp only [run, foldl_perform_eq, written, shown, awaited, hexplicit, hinfer, hexpect]
    exact ⟨by rw [hsame], fun fallback => by rw [hsame]⟩
  · simp only [resolve, find?_run, hparams]
  · simp only [resolve, find?_run, hparams]
  · exact isComplete_iff _ fallback

end Binder

end Monomorph
