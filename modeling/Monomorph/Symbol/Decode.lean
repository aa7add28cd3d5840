import Monomorph.Symbol.Encode
import Monomorph.Text.Decimal

/-!
# Reading symbols

A symbol is cut into words at every separator, from the left. Each word carries marks and a head;
the head decides whether a count and that many types follow. Reading a symbol is therefore a walk
over its words, and every type that is read uses up at least one of them.
-/

namespace Monomorph.Symbol

/-- The characters of one word. -/
abbrev Word := List Char

/-- Cut a text at every separator, from the left. -/
def splitWords : List Char → List Word
  | [] => [[]]
  | '_' :: '_' :: rest => [] :: splitWords rest
  | c :: rest =>
      match splitWords rest with
      | [] => [[c]]
      | word :: words => (c :: word) :: words

/-! ### Marks -/

/-- A mark in front of a word. -/
inductive Mark
  | ptr
  | ref (mutable : Bool)
  | slice
  | array (length : UInt64)
  deriving DecidableEq, Inhabited

/-- The type that a mark makes of its element. -/
def Mark.apply : Mark → Ty → Ty
  | .ptr, t => .ptr t
  | .ref mutable, t => .ref mutable t
  | .slice, t => .slice t
  | .array length, t => .array t length

/-- The marks that are fixed texts. -/
def fixedMarks : List (String × Mark) :=
  [(ptrMark, .ptr), (refMark true, .ref true), (refMark false, .ref false), (sliceMark, .slice)]

/-- The length and the rest of a word that starts with an array mark. -/
def readArrayMark? (word : Word) : Option (UInt64 × Word) := do
  let rest ← "arr".toList.isPrefixOf? word
  let length ← Decimal.read64? (rest.takeWhile Char.isDigit)
  match rest.dropWhile Char.isDigit with
  | '_' :: inner => some (UInt64.ofNat length, inner)
  | _ => none

/-- The first mark of a word and the rest of the word. -/
def readMark? (word : Word) : Option (Mark × Word) :=
  (fixedMarks.findSome? fun entry =>
      (entry.1.toList.isPrefixOf? word).map fun rest => (entry.2, rest)).or
    ((readArrayMark? word).map fun entry => (.array entry.1, entry.2))

/-- All marks of a word, and what is left; `limit` bounds their number. -/
def readMarksWithin : Nat → Word → List Mark × Word
  | 0, word => ([], word)
  | limit + 1, word =>
      match readMark? word with
      | none => ([], word)
      | some (mark, rest) =>
          let (marks, core) := readMarksWithin limit rest
          (mark :: marks, core)

/-- All marks of a word, and what is left. A mark has at least one character, so the length of
the word bounds their number. -/
def readMarks (word : Word) : List Mark × Word :=
  readMarksWithin word.length word

/-! ### Heads -/

/-- What a word says after its marks. -/
inductive Head
  | dyn (behavior : String)
  | classRef (name : String)
  | tuple
  | func
  | closure
  | prim (kind : Primitive)
  | plain (name : String)
  deriving DecidableEq, Inhabited

/-- Letters of identifiers. -/
def isNameStart (c : Char) : Bool := c.isAlpha || c = '_'

/-- Letters and digits of identifiers. -/
def isNamePart (c : Char) : Bool := c.isAlphanum || c = '_'

/-- Whether a word is an ASCII identifier. -/
def isIdentifier : Word → Bool
  | [] => false
  | c :: rest => isNameStart c && rest.all isNamePart

/-- The head of a word without marks. -/
def readHead? (core : Word) : Option Head :=
  let name := String.ofList core
  match dynMark.toList.isPrefixOf? core with
  | some rest => some (.dyn (String.ofList rest))
  | none =>
    match classMark.toList.isPrefixOf? core with
    | some rest => some (.classRef (String.ofList rest))
    | none =>
      if name = tupleHead then some .tuple
      else if name = funcHead then some .func
      else if name = closureHead then some .closure
      else
        match Primitive.ofName? name with
        | some kind => some (.prim kind)
        | none => if isIdentifier core then some (.plain name) else none

/-- A word that is a count. -/
def readCount? (word : Word) : Option Nat :=
  Decimal.read64? word

/-! ### Types -/

/-- Read `count` types, one after the other. -/
def readMany (readOne : List Word → Option (Ty × List Word)) :
    Nat → List Word → Option (List Ty × List Word)
  | 0, words => some ([], words)
  | count + 1, words => do
      let (t, rest) ← readOne words
      let (ts, rest) ← readMany readOne count rest
      return (t :: ts, rest)

/-- Read a count and that many types; no types where no count follows. -/
def readCounted (readOne : List Word → Option (Ty × List Word)) :
    List Word → Option (List Ty × List Word)
  | [] => some ([], [])
  | word :: words =>
      match readCount? word with
      | some count => readMany readOne count words
      | none => some ([], word :: words)

/-- Read what follows a head and build its type. -/
def readAfterHead (readOne : List Word → Option (Ty × List Word)) (head : Head)
    (words : List Word) : Option (Ty × List Word) :=
  match head with
  | .dyn behavior => do
      let (args, rest) ← readCounted readOne words
      return (.dyn behavior args, rest)
  | .classRef name => some (.classRef name, words)
  | .prim kind => some (.prim kind, words)
  | .plain name => do
      let (args, rest) ← readCounted readOne words
      return (.ofName name args, rest)
  | .tuple => do
      let (elems, rest) ← readSized words
      return (.tuple elems, rest)
  | .func => do
      let (params, rest) ← readSized words
      let (ret, rest) ← readOne rest
      return (.func params ret, rest)
  | .closure => do
      let (params, rest) ← readSized words
      let (ret, rest) ← readOne rest
      return (.closure params ret, rest)
where
  /-- Read a count, which must be there, and that many types. -/
  readSized : List Word → Option (List Ty × List Word)
    | [] => none
    | word :: words => do
        let count ← readCount? word
        readMany readOne count words

/-- Read one nested type; `limit` bounds the depth of the types that are read. -/
def readTyWithin : Nat → List Word → Option (Ty × List Word)
  | 0, _ => none
  | _ + 1, [] => none
  | limit + 1, word :: words => do
      let (marks, core) := readMarks word
      let head ← readHead? core
      let (t, rest) ← readAfterHead (readTyWithin limit) head words
      return (marks.foldr Mark.apply t, rest)

/-- Read one nested type. Each type uses up a word, so the number of words bounds the depth. -/
def readTy (words : List Word) : Option (Ty × List Word) :=
  readTyWithin words.length words

/-- Read types until no word is left; `limit` bounds their number. -/
def readAllWithin : Nat → List Word → Option (List Ty)
  | _, [] => some []
  | 0, _ :: _ => none
  | limit + 1, word :: words => do
      let (t, rest) ← readTy (word :: words)
      let ts ← readAllWithin limit rest
      return t :: ts

/-- Read types until no word is left. -/
def readAll (words : List Word) : Option (List Ty) :=
  readAllWithin words.length words

/-- The type that a symbol writes. A plain name in front takes all further words as its
arguments. -/
def decode? (symbol : String) : Option Ty :=
  match splitWords symbol.toList with
  | [] => none
  | word :: words =>
      match readMarks word, readHead? word with
      | ([], _), some (.plain name) => (readAll words).map (.ofName name)
      | _, _ =>
          match readTy (word :: words) with
          | some (t, []) => some t
          | _ => none

/-- The base and the arguments of an instance symbol. -/
def decodeInstance? (symbol : String) : Option (String × List Ty) :=
  match splitWords symbol.toList with
  | [] => none
  | word :: words => (readAll words).map fun args => (String.ofList word, args)

end Monomorph.Symbol
