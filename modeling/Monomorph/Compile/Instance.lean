import Monomorph.Lowering.Function

/-!
# Instances

An item of the worklist becomes a type definition or the code of a function. An item whose
definition is missing is reported and left out.
-/

namespace Monomorph

namespace Gen

/-! ### Types -/

/-- Define an instance of a struct, or of a union, which is an array of bytes. -/
def defineStruct (d : StructDef) (args : List Ty) (symbol : String) : Gen Unit := do
  if d.isUnion then
    let size ← sizeOf (.ofName d.name args)
    discard <| irTypes (d.fieldTypes args)
    defineType ("%union." ++ symbol) (.anon [.array size .i8])
  else
    defineType ("%struct." ++ symbol) (.anon (← irTypes (d.fieldTypes args)))

/-- Define an instance of an enum: a tag and, if some variant carries values, words for them. -/
def defineEnum (d : EnumDef) (args : List Ty) (symbol : String) : Gen Unit := do
  discard <| irTypes (d.variants.filterMap fun v => d.payload? v args)
  let words ← perform (.payloadWords d args)
  defineType ("%struct." ++ symbol)
    (.anon (if words = 0 then [.i32] else [.i32, .array words .i64]))

/-- Define an instance of a class: the block of its base, or the pointer to its dispatch table,
and then its own fields. -/
def defineClass (d : ClassDef) (args : List Ty) (symbol : String) : Gen Unit := do
  let first ←
    match d.base with
    | some base => classStruct base []
    | none => pure .ptr
  let rest ← irTypes (d.fieldTypes args)
  defineType ("%class." ++ symbol) (.anon (first :: rest))

/-! ### Code -/

/-- The code of an instance of a function. The code of a closure takes the parameters of the
function around it. -/
def generateFunction (f : FunctionDef) (args : List Ty) (symbol : String) : Gen Unit := do
  let p ← program
  let params := if f.isClosureBody && !f.isGeneric then p.closureParams f else f.generics
  lowerFunction f (← functionSymbol symbol) (.ofArgs params args) none

/-- The code of a method instance of a class; false if the class has no such method. -/
def generateClassMethod (d : ClassDef) (item : WorkItem) (key : MethodKey) : Gen Bool := do
  let symbol ← functionSymbol item.symbol
  let b := Bindings.ofArgs d.generics item.args
  match (if key.name = "new" then d.constructors.head? else none), d.method? key.name with
  | some f, _ =>
      lowerConstructor d item.args f symbol (b.extend (.ofArgs f.generics key.args))
      return true
  | none, some f =>
      lowerFunction f symbol (b.extend (.ofArgs f.generics key.args))
        (if f.hasSelf then some (.ofClass d item.args) else none)
      return true
  | none, none => return false

/-- The code of a method instance that an implementation provides; false if none does. -/
def generateImplMethod (item : WorkItem) (key : MethodKey) : Gen Bool := do
  let p ← program
  match p.implMethod? item.base key.name with
  | none => return false
  | some (_, impl, f) =>
      let owner := Ty.ofName item.base item.args
      let b := Ty.matchInto impl.generics impl.selfTy owner .empty
      lowerFunction f (← functionSymbol item.symbol) (b.extend (.ofArgs f.generics key.args))
        (if f.hasSelf then some ⟨owner, p.isReferenceClass item.base⟩ else none)
      return true

/-- The code of a method instance; false if there is no such method. -/
def generateMethod (item : WorkItem) : Gen Bool := do
  match item.method with
  | none => return false
  | some key =>
      match (← program).class? item.base with
      | some d => generateClassMethod d item key
      | none => generateImplMethod item key

/-! ### Items -/

/-- Generate from the definition, if there is one. -/
def generateFrom {α : Type} (definition : Option α) (f : α → List Ty → String → Gen Unit)
    (item : WorkItem) : Gen Bool := do
  match definition with
  | none => return false
  | some d =>
      f d item.args item.symbol
      return true

/-- Generate an item; false if its definition is missing. -/
def generateFound (item : WorkItem) : Gen Bool := do
  let p ← program
  match item.kind with
  | .struct => generateFrom (p.struct? item.base) defineStruct item
  | .enum => generateFrom (p.enum? item.base) defineEnum item
  | .cls => generateFrom (p.class? item.base) defineClass item
  | .func => generateFrom (p.function? item.base) generateFunction item
  | .method => generateMethod item

/-- Generate an item, and report a missing definition. -/
def generate (item : WorkItem) : Gen Unit := do
  if !(← generateFound item) then
    report {
      code := .missingDefinition
      message := "no definition for instantiation `" ++ item.symbol ++ "`"
      notes := ["requested as a " ++ item.kind.text ++ " instantiation of `" ++ item.base ++
        "`"] }

end Gen

end Monomorph
