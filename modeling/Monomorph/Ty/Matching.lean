import Monomorph.Ty.Bindings

/-!
# Matching a pattern against a type, and resolving parameters

Matching reads the parameters of a pattern off a concrete type of the same shape. The first
binding of a name wins, and shapes that do not line up bind nothing, so matching never fails.

The parameters of one use of a generic item are bound from three sources. Explicit arguments
come first, then what the arguments show, then what the context expects; a parameter that no
source binds takes a fallback type and is reported as defaulted.
-/

namespace Monomorph

namespace Ty

mutual

/-- Bind the parameters of a pattern to the matching parts of a concrete type. A reference
pattern also accepts a plain value, which it matches through the reference. -/
def matchInto (params : List String) : Ty → Ty → Bindings → Bindings
  | .named _ name args, concrete, b =>
      if args.isEmpty && params.contains name then b.insertNew name concrete
      else
        match concrete with
        | .named _ other actual =>
            if name = other && args.length = actual.length then matchList params args actual b
            else b
        | _ => b
  | .dyn behavior args, .dyn other actual, b =>
      if behavior = other && args.length = actual.length then matchList params args actual b
      else b
  | .ref _ inner, .ref _ actual, b => matchInto params inner actual b
  | .ref _ inner, concrete, b => matchInto params inner concrete b
  | .ptr inner, .ptr actual, b => matchInto params inner actual b
  | .slice inner, .slice actual, b => matchInto params inner actual b
  | .array inner _, .array actual _, b => matchInto params inner actual b
  | .func ps r, .func as a, b
  | .func ps r, .closure as a, b
  | .closure ps r, .func as a, b
  | .closure ps r, .closure as a, b =>
      matchInto params r a (if ps.length = as.length then matchList params ps as b else b)
  | .tuple ps, .tuple as, b =>
      if ps.length = as.length then matchList params ps as b else b
  | _, _, b => b

/-- Match two lists of one length, from the left. -/
def matchList (params : List String) : List Ty → List Ty → Bindings → Bindings
  | p :: ps, c :: cs, b => matchList params ps cs (matchInto params p c b)
  | _, _, b => b

end

end Ty

/-- The arguments chosen for the parameters of one use of a generic item. -/
structure Resolution where
  /-- One argument for each parameter, in declaration order. -/
  args : List Ty
  /-- The parameters that only the fallback could bind. -/
  defaulted : List String
  deriving Inhabited, DecidableEq

/-- The sources from which the parameters of one use of a generic item are bound. -/
structure Binder where
  /-- The parameters, in declaration order. -/
  params : List String
  /-- Bindings written at the use. -/
  explicit : Bindings := .empty
  /-- Bindings read off the arguments. -/
  inferred : Bindings := .empty
  /-- Bindings read off the type that the context expects. -/
  contextual : Bindings := .empty
  deriving Inhabited

namespace Binder

/-- Bind parameters to explicit arguments by position; surplus arguments are ignored. -/
def explicitly (binder : Binder) (args : List Ty) : Binder :=
  { binder with
    explicit := (binder.params.zip args).foldl
      (fun acc entry => acc.insert entry.1 entry.2) binder.explicit }

/-- Match a declared parameter type against the type of its argument. -/
def infer (binder : Binder) (pattern concrete : Ty) : Binder :=
  { binder with inferred := pattern.matchInto binder.params concrete binder.inferred }

/-- Match the result type of the item against the type that the context expects. -/
def expect (binder : Binder) (pattern expected : Ty) : Binder :=
  { binder with contextual := pattern.matchInto binder.params expected binder.contextual }

/-- The binding of a name by the first source that has one. -/
def find? (binder : Binder) (name : String) : Option Ty :=
  ((binder.explicit.find? name).or (binder.inferred.find? name)).or
    (binder.contextual.find? name)

/-- Whether every parameter is bound without the fallback. -/
def isComplete (binder : Binder) : Bool :=
  binder.params.all fun name => (binder.find? name).isSome

/-- The argument of every parameter, `fallback` where no source has one. -/
def resolve (binder : Binder) (fallback : Ty) : Resolution where
  args := binder.params.map fun name => (binder.find? name).getD fallback
  defaulted := binder.params.filter fun name => (binder.find? name).isNone

theorem length_args_resolve (binder : Binder) (fallback : Ty) :
    (binder.resolve fallback).args.length = binder.params.length := by
  simp [resolve]

theorem isComplete_iff (binder : Binder) (fallback : Ty) :
    binder.isComplete = true ↔ (binder.resolve fallback).defaulted = [] := by
  simp [isComplete, resolve, List.filter_eq_nil_iff, Option.isSome_iff_ne_none]

end Binder

end Monomorph
