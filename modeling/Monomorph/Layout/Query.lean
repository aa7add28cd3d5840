import Monomorph.Layout.Extent
import Monomorph.Layout.Wrapper
import Monomorph.Source.Program

/-!
# Layout of concrete types

Sizes follow the usual rules for records in declaration order. An enum is a 32-bit tag, followed,
if some variant carries data, by as many 64-bit words as the largest payload needs. A class
instance is the pointer to its dispatch table, or the block of its base, followed by its own
fields; instances of a reference class are pointers when they are stored elsewhere.

The extent of a nominal type is remembered under its symbol. While a type is being unfolded, it
counts as a pointer inside itself, because by-value containment of itself is impossible. Unfolding
goes through at most `depth` nested definitions.
-/

namespace Monomorph

namespace Layout

/-- What earlier queries found, and the types that are being unfolded. -/
structure Memo where
  /-- Extents by symbol. -/
  known : List (String × Extent) := []
  /-- Symbols of the types being unfolded. -/
  unfolding : List String := []
  deriving DecidableEq, Inhabited

/-- Queries read and extend the memo, and may fail. -/
abbrev Query := StateT Memo (Except Fault)

/-- Arithmetic inside a query. -/
def checked {α : Type} : Except Overflow α → Query α
  | .ok a => pure a
  | .error e => throw (.overflow e)

end Layout

open Layout

namespace Ty

mutual

/-- The extent of a type, with the extents of nominal types given by `nominal`. -/
def extentWith (nominal : Ty → String → List Ty → Query Extent) : Ty → Query Extent
  | .prim kind => pure kind.extent
  | .ref .. | .ptr _ => pure .pointer
  | .func .. | .closure .. | .dyn .. | .slice _ => pure .fatPointer
  | .tuple elems => do checked (Extent.record (← extentsWith nominal elems))
  | .array elem length => do checked (Extent.array (← extentWith nominal elem) length)
  | .classRef name => nominal (.classRef name) name []
  | .named qualifier name args => nominal (.named qualifier name args) name args

/-- The extents of several types, from left to right. -/
def extentsWith (nominal : Ty → String → List Ty → Query Extent) : List Ty → Query (List Extent)
  | [] => pure []
  | t :: ts => do
      let e ← extentWith nominal t
      let es ← extentsWith nominal ts
      return e :: es

end

end Ty

namespace Layout

variable (p : Program)

/-- The number of 64-bit words that the largest of some payloads needs. -/
def wordsFor (sizes : List UInt64) : UInt64 :=
  Word.ceilDiv (sizes.foldl max 0) 8

/-- The number of payload words of an enum instance. -/
def payloadWordsWith (extent : Ty → Query Extent) (d : EnumDef) (args : List Ty) :
    Query UInt64 := do
  let payloads := d.variants.filterMap fun variant => d.payload? variant args
  let extents ← payloads.mapM extent
  return wordsFor (extents.map Extent.size)

/-- The extent of an enum with the given number of payload words. -/
def enumExtent (words : UInt64) : Except Overflow Extent :=
  if words = 0 then .ok ⟨4, 4⟩
  else do
    let payload ← Word.mul words 8
    Extent.record [⟨4, 4⟩, ⟨payload, 8⟩]

/-- The extent of a struct or union instance. -/
def structExtentWith (extent : Ty → Query Extent) (d : StructDef) (args : List Ty) :
    Query Extent := do
  let fields ← (d.fieldTypes args).mapM extent
  checked (if d.isUnion then Extent.overlay fields else Extent.record fields)

/-- The classes whose blocks make up an instance, nearest first. A definition that the program
does not find under its own name stands alone. -/
def blocksOf (d : ClassDef) : List ClassDef :=
  match p.classChain d.name with
  | [] => [d]
  | first :: rest => if first.name = d.name then first :: rest else [d]

/-- The extent of the block of one class, which starts with the block of its base or, in the root,
with the pointer to the dispatch table. -/
def blockExtentWith (extent : Ty → Query Extent) (base : Extent) (d : ClassDef) (args : List Ty) :
    Query Extent := do
  let fields ← (d.fieldTypes args).mapM extent
  checked (Extent.record (base :: fields))

/-- The extent of a class instance in memory, with all ancestor blocks, root first. Arguments are
those of the class itself; ancestors have none. -/
def classExtentWith (extent : Ty → Query Extent) (d : ClassDef) (args : List Ty) :
    Query Extent := do
  match blocksOf p d with
  | [] => pure .pointer
  | own :: ancestors =>
      let base ← ancestors.reverse.foldlM
        (fun base ancestor => blockExtentWith extent base ancestor []) .pointer
      blockExtentWith extent base own args

/-- The extent of a nominal type that is not a wrapper and not known yet. -/
def definitionExtentWith (extent : Ty → Query Extent) (name : String) (args : List Ty) :
    Query Extent := do
  match p.struct? name with
  | some d => structExtentWith extent d args
  | none =>
    match p.enum? name with
    | some d => do checked (enumExtent (← payloadWordsWith extent d args))
    | none =>
      match p.class? name with
      | some d => if d.isValue then classExtentWith p extent d args else pure .pointer
      | none => pure .pointer

/-- The extent of a nominal type, unfolding at most `depth` nested definitions. -/
def nominal : Nat → Ty → String → List Ty → Query Extent
  | depth, t, name, args => do
      if (Wrapper.ofName? name).isSome && args.length = 1 then return .pointer
      let key := t.symbol
      match (← get).known.lookup key with
      | some extent => return extent
      | none =>
          if (← get).unfolding.contains key then return .pointer
          match depth with
          | 0 => throw .tooDeep
          | depth + 1 =>
              modify fun memo => { memo with unfolding := key :: memo.unfolding }
              let extent ← definitionExtentWith p (Ty.extentWith (nominal depth)) name args
              modify fun memo =>
                { known := (key, extent) :: memo.known, unfolding := memo.unfolding.erase key }
              return extent

/-- The extent of a type. -/
def extentOf (depth : Nat) (t : Ty) : Query Extent :=
  t.extentWith (nominal p depth)

/-- The number of payload words of an enum instance. -/
def payloadWords (depth : Nat) (d : EnumDef) (args : List Ty) : Query UInt64 :=
  payloadWordsWith (extentOf p depth) d args

/-- The extent of a class instance in memory. -/
def classExtent (depth : Nat) (d : ClassDef) (args : List Ty) : Query Extent :=
  classExtentWith p (extentOf p depth) d args

end Layout

end Monomorph
