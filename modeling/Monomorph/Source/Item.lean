import Monomorph.Source.Expr
import Monomorph.Ty.Bindings

/-!
# Definitions

The items that a module declares: functions, structs and unions, enums, classes, behaviors and
implementations, with the questions about one definition that need no other.
-/

namespace Monomorph

/-- Items that are found by name. -/
class HasName (α : Type) where
  /-- The name of an item. -/
  nameOf : α → String

/-- A named and typed parameter. -/
structure Param where
  name : String
  /-- The declared type. -/
  ty : Ty
  deriving DecidableEq, Inhabited

/-! ### Functions -/

/-- A function, method, constructor or closure body. -/
structure FunctionDef where
  name : String
  generics : List String := []
  /-- The parameters, without the receiver. -/
  params : List Param := []
  ret : Ty := .prim .unit
  /-- The code; none where it is provided elsewhere. -/
  body : Option Block := none
  /-- The captured names of a closure body, in the order of its environment record. -/
  captures : List Param := []
  /-- Whether the function takes a receiver. -/
  hasSelf : Bool := false
  /-- Whether calls go through the dispatch table of a class. -/
  isVirtual : Bool := false
  /-- Whether the runtime provides the code. -/
  isExtern : Bool := false
  deriving Inhabited

namespace FunctionDef

instance : HasName FunctionDef := ⟨name⟩

/-- Whether the function has generic parameters. -/
def isGeneric (f : FunctionDef) : Bool := !f.generics.isEmpty

/-- Whether the function is the code of a closure. -/
def isClosureBody (f : FunctionDef) : Bool := !f.captures.isEmpty

/-- The types of the parameters. -/
def paramTypes (f : FunctionDef) : List Ty := f.params.map Param.ty

/-- The type of the function as a value. -/
def fnType (f : FunctionDef) : Ty := .func f.paramTypes f.ret

end FunctionDef

/-! ### Fields -/

/-- A field of a struct, union or class. -/
structure FieldDef where
  name : String
  /-- The declared type. -/
  ty : Ty
  /-- The value of a field that a literal leaves out. -/
  default : Option Expr := none
  deriving Inhabited

namespace FieldDef

/-- The position of the first field called `name`. -/
def indexOf? (fields : List FieldDef) (name : String) : Option Nat :=
  fields.findIdx? fun field => field.name = name

/-- The field types of an instance with the given arguments. -/
def typesUnder (generics : List String) (fields : List FieldDef) (args : List Ty) : List Ty :=
  fields.map fun field => field.ty.subst (.ofArgs generics args)

end FieldDef

/-! ### Structs and enums -/

/-- A struct, or a union, whose fields all start at the same place. -/
structure StructDef where
  name : String
  generics : List String := []
  /-- The fields, in declaration order. -/
  fields : List FieldDef := []
  /-- Whether the fields overlap. -/
  isUnion : Bool := false
  deriving Inhabited

namespace StructDef

instance : HasName StructDef := ⟨name⟩

/-- The position of a field. -/
def fieldIndex? (d : StructDef) (field : String) : Option Nat :=
  FieldDef.indexOf? d.fields field

/-- The field types of an instance. -/
def fieldTypes (d : StructDef) (args : List Ty) : List Ty :=
  FieldDef.typesUnder d.generics d.fields args

end StructDef

/-- A variant of an enum. -/
structure VariantDef where
  name : String
  /-- The types of the values that the variant carries. -/
  payload : List Ty := []
  deriving Inhabited

/-- A tagged union; the tag of a variant is its position. -/
structure EnumDef where
  name : String
  generics : List String := []
  /-- The variants, in declaration order. -/
  variants : List VariantDef := []
  deriving Inhabited

namespace EnumDef

instance : HasName EnumDef := ⟨name⟩

/-- The tag of a variant. -/
def variantIndex? (d : EnumDef) (variant : String) : Option Nat :=
  d.variants.findIdx? fun v => v.name = variant

/-- The enum with its parameters as arguments. -/
def selfType (d : EnumDef) : Ty := .ofName d.name (d.generics.map .param)

/-- The stored payload type of a variant of an instance. Several values are stored as one tuple,
and a variant without values stores nothing. -/
def payload? (d : EnumDef) (variant : VariantDef) (args : List Ty) : Option Ty :=
  match Ty.substList (.ofArgs d.generics args) variant.payload with
  | [] => none
  | [t] => some t
  | ts => some (.tuple ts)

end EnumDef

/-! ### Classes -/

/-- A class with single inheritance. -/
structure ClassDef where
  name : String
  generics : List String := []
  base : Option String := none
  /-- The own fields; inherited ones live in the block of the base. -/
  fields : List FieldDef := []
  constructors : List FunctionDef := []
  methods : List FunctionDef := []
  /-- Whether the class has no subclasses. -/
  isSealed : Bool := false
  isAbstract : Bool := false
  /-- Whether the class is declared to be copied by value. -/
  isDeclaredValue : Bool := false
  deriving Inhabited

namespace ClassDef

instance : HasName ClassDef := ⟨name⟩

/-- The position of an own field. -/
def fieldIndex? (d : ClassDef) (field : String) : Option Nat :=
  FieldDef.indexOf? d.fields field

/-- The own field types of an instance. -/
def fieldTypes (d : ClassDef) (args : List Ty) : List Ty :=
  FieldDef.typesUnder d.generics d.fields args

/-- The first method called `name`. -/
def method? (d : ClassDef) (name : String) : Option FunctionDef :=
  d.methods.find? fun m => m.name = name

/-- Whether instances are copied by value: declared so, or sealed without a base and without
virtual methods. -/
def isValue (d : ClassDef) : Bool :=
  d.isDeclaredValue || (d.isSealed && d.base.isNone && !d.methods.any FunctionDef.isVirtual)

/-- The class with its parameters as arguments. -/
def selfType (d : ClassDef) : Ty := .ofName d.name (d.generics.map .param)

end ClassDef

/-! ### Behaviors and implementations -/

/-- The signature of a method that a behavior declares; the receiver is implicit. -/
structure MethodSig where
  name : String
  params : List Ty
  ret : Ty
  deriving DecidableEq, Inhabited

/-- A behavior; the order of its methods is the order of slots. -/
structure BehaviorDef where
  name : String
  generics : List String := []
  /-- The methods, in declaration order. -/
  methods : List MethodSig := []
  deriving Inhabited

instance : HasName BehaviorDef := ⟨BehaviorDef.name⟩

/-- Methods for a type, inherent or of a behavior. -/
structure ImplDef where
  generics : List String := []
  /-- The implementing type. -/
  selfTy : Ty
  /-- The behavior; none for inherent methods. -/
  behavior : Option String := none
  methods : List FunctionDef := []
  deriving Inhabited

namespace ImplDef

/-- The name of the implementing nominal type. -/
def typeName? (d : ImplDef) : Option String :=
  match d.selfTy with
  | .named _ name _ | .classRef name => some name
  | _ => none

/-- The first method called `name`. -/
def method? (d : ImplDef) (name : String) : Option FunctionDef :=
  d.methods.find? fun m => m.name = name

end ImplDef

end Monomorph
