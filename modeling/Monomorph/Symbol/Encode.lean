import Monomorph.Ty.Basic

/-!
# Symbols of types and instances

A symbol is a sequence of words joined by two underscores. Pointers, references, slices and
arrays put a mark in front of the first word of their element; every other composite type starts
with a head word. A type with arguments is followed by their count and then by the arguments;
only at the outermost position is the count of a nominal type left out, because there the
arguments run to the end.
-/

namespace Monomorph

namespace Symbol

/-- The separator of words. -/
def separator : String := "__"

/-- Words joined by the separator. -/
def joinWords : List String → String
  | [] => ""
  | [word] => word
  | word :: words => word ++ separator ++ joinWords words

/-- Put a mark in front of the first word. -/
def markFirst (mark : String) : List String → List String
  | [] => [mark]
  | word :: words => (mark ++ word) :: words

/-- The mark of a pointer. -/
def ptrMark : String := "ptr_"

/-- The mark of a reference. -/
def refMark (mutable : Bool) : String := if mutable then "mutref_" else "ref_"

/-- The mark of a slice. -/
def sliceMark : String := "slice_"

/-- The mark of an array of a given length. -/
def arrayMark (length : UInt64) : String := "arr" ++ toString length.toNat ++ "_"

/-- The mark of a behavior name. -/
def dynMark : String := "dyn_"

/-- The mark of a class name. -/
def classMark : String := "class_"

/-- The head word of a tuple. -/
def tupleHead : String := "tuple"

/-- The head word of a function type. -/
def funcHead : String := "fn"

/-- The head word of a closure type. -/
def closureHead : String := "closure"

end Symbol

open Monomorph.Symbol

namespace Ty

mutual

/-- The words of a type in nested position. -/
def words : Ty → List String
  | .prim kind => [kind.name]
  | .named _ name args => name :: countedWords args
  | .dyn behavior args => (dynMark ++ behavior) :: countedWords args
  | .ref mutable inner => markFirst (refMark mutable) inner.words
  | .ptr inner => markFirst ptrMark inner.words
  | .slice elem => markFirst sliceMark elem.words
  | .array elem length => markFirst (arrayMark length) elem.words
  | .tuple elems => tupleHead :: toString elems.length :: wordsList elems
  | .func params ret => funcHead :: toString params.length :: (wordsList params ++ ret.words)
  | .closure params ret =>
      closureHead :: toString params.length :: (wordsList params ++ ret.words)
  | .classRef name => [classMark ++ name]

/-- The words of several types, one after the other. -/
def wordsList : List Ty → List String
  | [] => []
  | t :: ts => t.words ++ wordsList ts

/-- The count of the arguments and their words; nothing where there are none. -/
def countedWords : List Ty → List String
  | [] => []
  | t :: ts => toString (ts.length + 1) :: (t.words ++ wordsList ts)

end

theorem wordsList_eq_flatMap (ts : List Ty) : wordsList ts = ts.flatMap words := by
  induction ts with
  | nil => rfl
  | cons t ts ih => simp [wordsList, ih]

theorem countedWords_cons (t : Ty) (ts : List Ty) :
    countedWords (t :: ts) = toString (t :: ts).length :: wordsList (t :: ts) := by
  simp [countedWords, wordsList]

end Ty

namespace Symbol

/-- The symbol of a generic item with its arguments. -/
def ofInstance (base : String) (args : List Ty) : String :=
  joinWords (base :: Ty.wordsList args)

/-- The symbol of a method: the owner's instance and the method's, joined by one underscore. -/
def ofMethod (owner : String) (ownerArgs : List Ty) (method : String) (methodArgs : List Ty) :
    String :=
  ofInstance owner ownerArgs ++ "_" ++ ofInstance method methodArgs

/-- The word that marks an instance whose arguments are not all known. -/
def unresolvedWord : String := "UNRESOLVED"

/-- The symbol that stands for an instance of `base` that cannot be named yet. -/
def placeholder (base : String) : String :=
  base ++ separator ++ unresolvedWord

/-- Whether a symbol ends as placeholders do. -/
def isPlaceholder (symbol : String) : Bool :=
  (separator ++ unresolvedWord).toList.isSuffixOf symbol.toList

end Symbol

/-- The symbol of a whole type. -/
def Ty.symbol : Ty → String
  | .named _ name args => ofInstance name args
  | t => joinWords t.words

end Monomorph
