import Monomorph.IR.Instr

/-!
# Assembly of a module

An assembly collects type definitions, globals, declarations and finished functions, and drafts
one function at a time. Types and declarations are kept once for each name, and equal strings
share one global.
-/

namespace Monomorph.IR

/-- A named type and its body. -/
structure TypeDef where
  /-- The name, with its sigil. -/
  name : String
  body : Ty
  deriving DecidableEq, Inhabited

/-- A type definition as it is written. -/
def TypeDef.text (d : TypeDef) : String := d.name ++ " = type " ++ d.body.text

/-- A function that is provided elsewhere. -/
structure Declaration where
  /-- The symbol, with its sigil. -/
  symbol : String
  ret : Ty
  params : List Ty
  deriving DecidableEq, Inhabited

/-- A declaration as it is written. -/
def Declaration.text (d : Declaration) : String :=
  "declare " ++ d.ret.text ++ " " ++ d.symbol ++ "(" ++
    String.intercalate ", " (d.params.map Ty.text) ++ ")"

/-- A constant of the module. -/
inductive Global
  /-- The bytes of a string and a final zero. -/
  | bytes (name value : String)
  /-- A dispatch table; an entry is absent where the slot is null. -/
  | table (name : String) (entries : List (Option String))
  /-- A constant given by its text. -/
  | verbatim (line : String)
  deriving DecidableEq, Inhabited

namespace Global

/-- The bytes of a string, as an array that ends with a zero. -/
def bytesText (value : String) : String :=
  let bytes := value.toUTF8.toList
  "[" ++ toString (bytes.length + 1) ++ " x i8] c\"" ++ String.ofList (Hex.escape bytes) ++
    "\\00\""

/-- The entries of a dispatch table. -/
def entriesText (entries : List (Option String)) : String :=
  if entries.isEmpty then "zeroinitializer"
  else "[" ++ String.intercalate ", " (entries.map fun e => "ptr " ++ e.getD "null") ++ "]"

/-- A constant as it is written. -/
def text : Global → String
  | bytes name value => name ++ " = private unnamed_addr constant " ++ bytesText value
  | table name entries =>
      name ++ " = internal constant [" ++ toString entries.length ++ " x ptr] " ++
        entriesText entries
  | verbatim line => line

end Global

/-- How a function starts. -/
inductive Header
  /-- Result type, symbol and parameters. -/
  | define (ret : Ty) (symbol : String) (params : List Typed)
  /-- A header given by its text. -/
  | verbatim (line : String)
  deriving DecidableEq, Inhabited

/-- A header as it is written. -/
def Header.text : Header → String
  | define ret symbol params =>
      "define " ++ ret.text ++ " " ++ symbol ++ "(" ++
        String.intercalate ", " (params.map Typed.text) ++ ") \x7b"
  | verbatim line => line

/-- A line of a function. -/
inductive Line
  | instr (i : Instr)
  | label (l : Label)
  /-- An instruction given by its text. -/
  | verbatim (line : String)
  /-- A label given by its text. -/
  | verbatimLabel (name : String)
  deriving DecidableEq, Inhabited

/-- A line as it is written. -/
def Line.text : Line → String
  | instr i => "  " ++ i.text ++ "\n"
  | label l => l.text ++ ":\n"
  | verbatim line => "  " ++ line ++ "\n"
  | verbatimLabel name => name ++ ":\n"

/-- A function, possibly unfinished. -/
structure Function where
  /-- How it starts; absent before it was begun. -/
  header : Option Header := none
  lines : Array Line := #[]
  deriving DecidableEq, Inhabited

namespace Function

/-- The function up to its last line, as it is written. -/
def openText (f : Function) : String :=
  (match f.header with
    | some header => header.text ++ "\nentry:\n"
    | none => "") ++
    String.join (f.lines.toList.map Line.text)

/-- A finished function as it is written. -/
def text (f : Function) : String := f.openText ++ "\x7d\n"

end Function

/-- What was collected so far. -/
structure Assembly where
  /-- Whether functions record that they were entered. -/
  coverage : Bool := false
  /-- The number of temporaries used. Unlike a counter of 32 bits it does not overflow. -/
  temps : Nat := 0
  /-- The number of label numbers used, which does not overflow either. -/
  labels : Nat := 0
  types : Array TypeDef := #[]
  /-- Constants, in order. -/
  globals : Array Global := #[]
  declarations : Array Declaration := #[]
  /-- Strings with a global, in the order of their numbers. -/
  strings : List String := []
  /-- Function names with a global for coverage, in the order of their numbers. -/
  markers : List String := []
  /-- Finished functions, in order. -/
  functions : Array Function := #[]
  /-- The function that is being drafted. -/
  draft : Function := {}
  deriving DecidableEq, Inhabited

namespace Assembly

/-! ### Numbers -/

/-- A temporary that was not used before. -/
def freshTemp (a : Assembly) : Nat × Assembly := (a.temps, { a with temps := a.temps + 1 })

/-- A label number that was not used before. -/
def freshLabel (a : Assembly) : Nat × Assembly := (a.labels, { a with labels := a.labels + 1 })

/-- A label that was not used before: the given stem with a new number. -/
def freshLabelNamed (a : Assembly) (stem : String) : String × Assembly :=
  (stem ++ toString a.labels, a.freshLabel.2)

/-! ### Types, declarations and constants -/

/-- Whether a type of that name is defined. -/
def definesType (a : Assembly) (name : String) : Bool :=
  a.types.any fun d => d.name = name

/-- Define a type, unless its name is defined already. -/
def defineType (a : Assembly) (name : String) (body : Ty) : Assembly :=
  if a.definesType name then a else { a with types := a.types.push ⟨name, body⟩ }

/-- Whether a symbol is declared. -/
def declares (a : Assembly) (symbol : String) : Bool :=
  a.declarations.any fun d => d.symbol = symbol

/-- Declare a function, unless its symbol is declared already. -/
def declare (a : Assembly) (symbol : String) (ret : Ty) (params : List Ty) : Assembly :=
  if a.declares symbol then a
  else { a with declarations := a.declarations.push ⟨symbol, ret, params⟩ }

/-- Add a constant. -/
def addGlobal (a : Assembly) (g : Global) : Assembly := { a with globals := a.globals.push g }

/-- The global of the string with the given number. -/
def stringName (index : Nat) : String := "@.str." ++ toString index

/-- The global of the coverage marker with the given number. -/
def markerName (index : Nat) : String := "@.cov." ++ toString index

/-- The global that holds a string. -/
def stringGlobal (a : Assembly) (value : String) : String × Assembly :=
  match a.strings.findIdx? fun s => s = value with
  | some index => (stringName index, a)
  | none =>
      let name := stringName a.strings.length
      (name, { a.addGlobal (.bytes name value) with strings := a.strings ++ [value] })

/-- The global that holds the name of a function for coverage. -/
def markerGlobal (a : Assembly) (name : String) : String × Assembly :=
  match a.markers.findIdx? fun s => s = name with
  | some index => (markerName index, a)
  | none =>
      let globalName := markerName a.markers.length
      (globalName, { a.addGlobal (.bytes globalName name) with markers := a.markers ++ [name] })

/-! ### Functions -/

/-- Start a function, dropping what was drafted before. -/
def begin (a : Assembly) (header : Header) : Assembly :=
  { a with draft := { header := some header } }

/-- Append a line to the draft. -/
def append (a : Assembly) (line : Line) : Assembly :=
  { a with draft := { a.draft with lines := a.draft.lines.push line } }

/-- Append an instruction to the draft. -/
def emit (a : Assembly) (i : Instr) : Assembly := a.append (.instr i)

/-- Start a block in the draft. -/
def place (a : Assembly) (l : Label) : Assembly := a.append (.label l)

/-- Finish the draft. -/
def finish (a : Assembly) : Assembly :=
  { a with functions := a.functions.push a.draft, draft := {} }

/-- The function that records an entry. -/
def coverSymbol : String := "@tml_cover_func"

/-- Record that the function called `name` was entered, if coverage is on. -/
def cover (a : Assembly) (name : String) : Assembly :=
  if a.coverage then
    let declared := a.declare coverSymbol .void [.ptr]
    let (globalName, marked) := declared.markerGlobal name
    marked.emit (.call none .void (.global coverSymbol) [⟨.ptr, .global globalName⟩])
  else a

/-! ### Text -/

/-- Lines that end with a blank line; nothing where there are none. -/
def sectionText (lines : List String) : String :=
  if lines.isEmpty then "" else String.join (lines.map fun line => line ++ "\n") ++ "\n"

/-- The module as it is written: types, constants, declarations, functions. -/
def text (a : Assembly) : String :=
  sectionText (a.types.toList.map TypeDef.text) ++
    sectionText (a.globals.toList.map Global.text) ++
    sectionText (a.declarations.toList.map Declaration.text) ++
    String.join (a.functions.toList.map fun f => f.text ++ "\n")

end Assembly

end Monomorph.IR
