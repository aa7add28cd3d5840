import Monomorph.Primitive

/-!
# Semantic types

Types are plain trees. A generic parameter is a nominal type without arguments; whether a name is
a parameter depends on the scope in which it is read, so every question about parameters takes
the parameter names.
-/

namespace Monomorph

/-- A resolved semantic type. -/
inductive Ty
  /-- A built-in kind. -/
  | prim (kind : Primitive)
  /-- A nominal type; the qualifier is empty for the module at hand. -/
  | named (qualifier name : String) (args : List Ty)
  /-- A shared or mutable reference. -/
  | ref (mutable : Bool) (inner : Ty)
  /-- A raw pointer. -/
  | ptr (inner : Ty)
  /-- A plain function type. -/
  | func (params : List Ty) (ret : Ty)
  /-- The type of values that may carry a captured environment. -/
  | closure (params : List Ty) (ret : Ty)
  | tuple (elems : List Ty)
  /-- An array of fixed length. -/
  | array (elem : Ty) (length : UInt64)
  /-- A slice: a pointer and a length. -/
  | slice (elem : Ty)
  /-- A value known only through a behavior. -/
  | dyn (behavior : String) (args : List Ty)
  /-- A class known by its name alone. -/
  | classRef (name : String)
  deriving Inhabited

namespace Ty

/-! ### Equality -/

mutual

/-- Whether two types are the same tree. -/
def same : Ty → Ty → Bool
  | .prim a, .prim b => a = b
  | .named q a as, .named r b bs => q = r && a = b && sameList as bs
  | .ref m a, .ref n b => m = n && same a b
  | .ptr a, .ptr b => same a b
  | .func as a, .func bs b => sameList as bs && same a b
  | .closure as a, .closure bs b => sameList as bs && same a b
  | .tuple as, .tuple bs => sameList as bs
  | .array a m, .array b n => same a b && m = n
  | .slice a, .slice b => same a b
  | .dyn a as, .dyn b bs => a = b && sameList as bs
  | .classRef a, .classRef b => a = b
  | _, _ => false

/-- Whether two lists of types are the same. -/
def sameList : List Ty → List Ty → Bool
  | [], [] => true
  | a :: as, b :: bs => same a b && sameList as bs
  | _, _ => false

end

mutual

theorem same_iff : (a b : Ty) → (same a b = true ↔ a = b)
  | .prim _, b => by cases b <;> simp [same]
  | .named _ _ as, b => by cases b <;> simp [same, sameList_iff as, and_assoc]
  | .ref _ a, b => by cases b <;> simp [same, same_iff a]
  | .ptr a, b => by cases b <;> simp [same, same_iff a]
  | .func as a, b => by cases b <;> simp [same, sameList_iff as, same_iff a]
  | .closure as a, b => by cases b <;> simp [same, sameList_iff as, same_iff a]
  | .tuple as, b => by cases b <;> simp [same, sameList_iff as]
  | .array a _, b => by cases b <;> simp [same, same_iff a]
  | .slice a, b => by cases b <;> simp [same, same_iff a]
  | .dyn _ as, b => by cases b <;> simp [same, sameList_iff as]
  | .classRef _, b => by cases b <;> simp [same]

theorem sameList_iff : (as bs : List Ty) → (sameList as bs = true ↔ as = bs)
  | [], bs => by cases bs <;> simp [sameList]
  | a :: as, bs => by cases bs <;> simp [sameList, same_iff a, sameList_iff as]

end

instance : DecidableEq Ty := fun a b => decidable_of_iff _ (same_iff a b)

/-! ### Common types and views -/

/-- A local nominal type. -/
def ofName (name : String) (args : List Ty) : Ty :=
  .named "" name args

/-- A nominal type without arguments, which is also how a generic parameter is spelled. -/
def param (name : String) : Ty :=
  .named "" name []

/-- The kind of a built-in type. -/
def asPrimitive? : Ty → Option Primitive
  | .prim kind => some kind
  | _ => none

/-- Name and arguments of a nominal type. -/
def asNamed? : Ty → Option (String × List Ty)
  | .named _ name args => some (name, args)
  | _ => none

/-- Parameters and result of a function-like type. -/
def signature? : Ty → Option (List Ty × Ty)
  | .func params ret | .closure params ret => some (params, ret)
  | _ => none

/-- Name and arguments of a type that a definition can declare. -/
def declared? : Ty → Option (String × List Ty)
  | .named _ name args => some (name, args)
  | .classRef name => some (name, [])
  | _ => none

/-- Name and arguments under which the methods of a type are found. -/
def nominal? : Ty → Option (String × List Ty)
  | .prim kind => some (kind.name, [])
  | t => t.declared?

/-- The unit type in either spelling. -/
def isUnit : Ty → Bool
  | .prim .unit => true
  | .tuple elems => elems.isEmpty
  | _ => false

/-- Types that produce no value when the program runs. -/
def isVoidLike (t : Ty) : Bool :=
  t.isUnit || t = .prim .never

/-! ### Text -/

mutual

/-- A type as it is shown in messages. -/
def text : Ty → String
  | .prim kind => kind.name
  | .named qualifier name args =>
      (if qualifier.isEmpty then "" else qualifier ++ "::") ++ name ++ bracketed args
  | .ref mutable inner => (if mutable then "mut ref " else "ref ") ++ inner.text
  | .ptr inner => "Ptr[" ++ inner.text ++ "]"
  | .func params ret => "func(" ++ String.intercalate ", " (texts params) ++ ") -> " ++ ret.text
  | .closure params ret => "do(" ++ String.intercalate ", " (texts params) ++ ") -> " ++ ret.text
  | .tuple elems => "(" ++ String.intercalate ", " (texts elems) ++ ")"
  | .array elem length => "[" ++ elem.text ++ "; " ++ toString length.toNat ++ "]"
  | .slice elem => "[" ++ elem.text ++ "]"
  | .dyn behavior args => "dyn " ++ behavior ++ bracketed args
  | .classRef name => "class " ++ name

/-- The texts of a list of types. -/
def texts : List Ty → List String
  | [] => []
  | t :: ts => t.text :: texts ts

/-- Type arguments in brackets; nothing where there are none. -/
def bracketed : List Ty → String
  | [] => ""
  | t :: ts => "[" ++ String.intercalate ", " (t.text :: texts ts) ++ "]"

end

theorem texts_eq_map (ts : List Ty) : texts ts = ts.map text := by
  induction ts with
  | nil => rfl
  | cons t ts ih => simp [texts, ih]

/-! ### Agreement up to qualifiers -/

mutual

/-- Equality that ignores the module qualifiers of nominal types. -/
def agrees : Ty → Ty → Bool
  | .prim a, .prim b => a = b
  | .named _ a as, .named _ b bs => a = b && agreesList as bs
  | .ref m a, .ref n b => m = n && agrees a b
  | .ptr a, .ptr b => agrees a b
  | .func as a, .func bs b => agreesList as bs && agrees a b
  | .closure as a, .closure bs b => agreesList as bs && agrees a b
  | .tuple as, .tuple bs => agreesList as bs
  | .array a m, .array b n => m = n && agrees a b
  | .slice a, .slice b => agrees a b
  | .dyn a as, .dyn b bs => a = b && agreesList as bs
  | .classRef a, .classRef b => a = b
  | _, _ => false

/-- Pairwise agreement of two lists of one length. -/
def agreesList : List Ty → List Ty → Bool
  | [], [] => true
  | a :: as, b :: bs => agrees a b && agreesList as bs
  | _, _ => false

end

/-! ### Parameters -/

mutual

/-- Whether a nominal leaf of the type is one of `names`. -/
def mentions (names : List String) : Ty → Bool
  | .prim _ | .classRef _ => false
  | .named _ name args => (args.isEmpty && names.contains name) || mentionsList names args
  | .dyn _ args | .tuple args => mentionsList names args
  | .ref _ inner | .ptr inner | .slice inner | .array inner _ => inner.mentions names
  | .func params ret | .closure params ret => mentionsList names params || ret.mentions names

/-- Whether a nominal leaf of one of the types is one of `names`. -/
def mentionsList (names : List String) : List Ty → Bool
  | [] => false
  | t :: ts => t.mentions names || mentionsList names ts

end

theorem mentionsList_eq_any (names : List String) (ts : List Ty) :
    mentionsList names ts = ts.any (mentions names) := by
  induction ts with
  | nil => rfl
  | cons t ts ih => simp [mentionsList, ih]

end Ty

end Monomorph
