import Monomorph.Source.Table

/-!
# Modules and programs

A program is the module at hand and the modules that it imports. A bare name is looked up in the
module at hand first and then in the imports, in order. A qualified name is looked up in the
modules that its qualifier names, in the same order; a qualifier names a module by its whole path
or by the last segments of it.
-/

namespace Monomorph

/-- The definitions of one module. -/
structure Module where
  /-- The path of the module; empty for the root. -/
  path : String := ""
  functions : Table FunctionDef := .empty
  /-- The structs and unions. -/
  structs : Table StructDef := .empty
  enums : Table EnumDef := .empty
  classes : Table ClassDef := .empty
  behaviors : Table BehaviorDef := .empty
  /-- The implementations, in order. -/
  impls : List ImplDef := []
  deriving Inhabited

/-- Whether a qualifier names the module, by its whole path or by the last segments of it. -/
def Module.isNamedBy (m : Module) (qualifier : String) : Bool :=
  m.path = qualifier || ("::" ++ qualifier).toList.isSuffixOf m.path.toList

/-- The module at hand and its imports. -/
structure Program where
  /-- The module at hand. -/
  home : Module := {}
  /-- The imported modules, in order. -/
  imports : List Module := []
  deriving Inhabited

/-- Where a definition was found. -/
inductive Origin
  | home
  | imported
  deriving DecidableEq, Inhabited

/-- A name with the qualifier in front of it. -/
structure QualifiedName where
  /-- The qualifier; none for a bare name. -/
  qualifier : Option String
  /-- The name itself. -/
  name : String
  deriving DecidableEq, Inhabited

namespace QualifiedName

/-- Cut reversed text at its first double colon. -/
def cutReversed : List Char → Option (List Char × List Char)
  | ':' :: ':' :: rest => some ([], rest)
  | c :: rest => (cutReversed rest).map fun parts => (c :: parts.1, parts.2)
  | [] => none

/-- A name cut at its last double colon. -/
def ofString (s : String) : QualifiedName :=
  match cutReversed s.toList.reverse with
  | some (name, qualifier) =>
      ⟨some (String.ofList qualifier.reverse), String.ofList name.reverse⟩
  | none => ⟨none, s⟩

end QualifiedName

namespace Program

/-- The module at hand and then the imports. -/
def modules (p : Program) : List Module := p.home :: p.imports

/-- Look up a bare or qualified name in one kind of table. -/
def lookup {α : Type} [HasName α] (p : Program) (table : Module → Table α) (name : String) :
    Option α :=
  match QualifiedName.ofString name with
  | ⟨none, bare⟩ => p.modules.findSome? fun m => (table m).get? bare
  | ⟨some qualifier, bare⟩ =>
      (p.modules.filter fun m => m.isNamedBy qualifier).findSome? fun m => (table m).get? bare

/-- The function called `name`. -/
def function? (p : Program) (name : String) : Option FunctionDef := p.lookup Module.functions name

/-- The struct or union called `name`. -/
def struct? (p : Program) (name : String) : Option StructDef := p.lookup Module.structs name

/-- The enum called `name`. -/
def enum? (p : Program) (name : String) : Option EnumDef := p.lookup Module.enums name

/-- The class called `name`. -/
def class? (p : Program) (name : String) : Option ClassDef := p.lookup Module.classes name

/-- The behavior called `name`. -/
def behavior? (p : Program) (name : String) : Option BehaviorDef :=
  p.lookup Module.behaviors name

/-- The first enum with a variant called `variant`, and the tag of that variant. -/
def enumWithVariant? (p : Program) (variant : String) : Option (EnumDef × Nat) :=
  p.modules.findSome? fun m =>
    m.enums.items.findSome? fun d => (d.variantIndex? variant).map fun tag => (d, tag)

/-- Whether a name is the name of a type or behavior that the program knows. -/
def knowsType (p : Program) (name : String) : Bool :=
  (Primitive.ofName? name).isSome || (p.struct? name).isSome || (p.enum? name).isSome ||
    (p.class? name).isSome || (p.behavior? name).isSome

/-! ### Implementations -/

/-- Every implementation with its origin, those of the module at hand first. -/
def impls (p : Program) : List (Origin × ImplDef) :=
  p.home.impls.map (fun d => (.home, d)) ++
    p.imports.flatMap fun m => m.impls.map fun d => (.imported, d)

/-- The implementation of a behavior by a type. -/
def implOf? (p : Program) (typeName behavior : String) : Option (Origin × ImplDef) :=
  p.impls.find? fun entry =>
    entry.2.typeName? = some typeName && entry.2.behavior = some behavior

/-- The first method of that name in the inherent implementations of a type, or in those of
behaviors. -/
def implMethodAmong? (p : Program) (inherent : Bool) (typeName method : String) :
    Option (Origin × ImplDef × FunctionDef) :=
  (p.impls.filter fun entry =>
      entry.2.typeName? = some typeName && entry.2.behavior.isNone = inherent).findSome?
    fun entry => (entry.2.method? method).map fun f => (entry.1, entry.2, f)

/-- A method of a type: inherent methods come before those of behaviors. -/
def implMethod? (p : Program) (typeName method : String) :
    Option (Origin × ImplDef × FunctionDef) :=
  (p.implMethodAmong? true typeName method).or (p.implMethodAmong? false typeName method)

/-! ### Classes -/

/-- The number of classes in all modules. -/
def classCount (p : Program) : Nat :=
  (p.modules.flatMap fun m => m.classes.items).length

/-- Follow base classes from `current`, stopping at a name in `seen`; `limit` bounds the length
of the result. -/
def chainFrom (p : Program) : Nat → List String → Option ClassDef → List ClassDef
  | 0, _, _ => []
  | _ + 1, _, none => []
  | limit + 1, seen, some d =>
      if seen.contains d.name then []
      else d :: p.chainFrom limit (d.name :: seen) (d.base.bind p.class?)

/-- A class and its ancestors, nearest first. The walk stops at an unknown base and at a class
name that it has met, so the number of classes bounds its length. -/
def classChain (p : Program) (name : String) : List ClassDef :=
  p.chainFrom p.classCount [] (p.class? name)

/-- Whether a name is the name of a class whose instances are referred to by pointer. -/
def isReferenceClass (p : Program) (name : String) : Bool :=
  match p.class? name with
  | some d => !d.isValue
  | none => false

/-- Whether the values of a type are instances of a reference class. -/
def isReference (p : Program) (t : Ty) : Bool :=
  match t.nominal? with
  | some (name, _) => p.isReferenceClass name
  | none => false

end Program

end Monomorph
