import Monomorph.IR.Assembly

/-!
# The parts of instructions

What an instruction refers to: the temporaries and other operands that it uses, the types that it
mentions and the blocks that it names.
-/

namespace Monomorph.IR

namespace Ty

mutual

/-- The names of defined types that occur in a type. -/
def names : Ty → List String
  | .named name => [name]
  | .anon fields => namesList fields
  | .array _ elem => elem.names
  | _ => []

/-- The names of defined types that occur in several types. -/
def namesList : List Ty → List String
  | [] => []
  | t :: ts => t.names ++ namesList ts

end

theorem mem_namesList {name : String} {ts : List Ty} :
    name ∈ namesList ts ↔ ∃ t ∈ ts, name ∈ t.names := by
  induction ts with
  | nil => simp [namesList]
  | cons t ts ih => simp [namesList, ih]

end Ty

namespace Instr

/-- The operands that an instruction uses. -/
def operands : Instr → List Operand
  | alloca .. | fence | jump _ | ret none | unreachable => []
  | load _ _ addr | member _ _ addr _ | slot _ addr _ | atomicLoad _ _ addr _ => [addr]
  | store value addr | atomicStore value addr _ | atomicUpdate _ _ addr value _ =>
      [value.operand, addr]
  | call _ _ callee args => callee :: args.map Typed.operand
  | insertValue _ whole part _ => [whole.operand, part.operand]
  | extractValue _ whole _ => [whole.operand]
  | cast _ _ value _ => [value.operand]
  | intEq _ left right | floatEq _ left right => [left.operand, right]
  | negate _ value => [value]
  | phi _ _ first _ second _ => [first, second]
  | branch condition _ _ => [condition]
  | ret (some value) => [value.operand]

/-- The types that an instruction mentions. -/
def types : Instr → List Ty
  | alloca _ ty | load _ ty _ | member _ ty _ _ | phi _ ty _ _ _ _ | atomicLoad _ ty _ _ => [ty]
  | store value _ | atomicStore value _ _ | atomicUpdate _ _ _ value _ => [value.ty]
  | call _ ty _ args => ty :: args.map Typed.ty
  | insertValue _ whole part _ => [whole.ty, part.ty]
  | extractValue _ whole _ => [whole.ty]
  | cast _ _ value target => [value.ty, target]
  | intEq _ left _ | floatEq _ left _ => [left.ty]
  | ret (some value) => [value.ty]
  | slot .. | negate .. | fence | jump _ | branch .. | ret none | unreachable => []

/-- The blocks that control goes to after an instruction. -/
def targets : Instr → List Label
  | jump target => [target]
  | branch _ yes no => [yes, no]
  | _ => []

/-- The blocks from which an instruction takes a value. -/
def sources : Instr → List Label
  | phi _ _ _ firstFrom _ secondFrom => [firstFrom, secondFrom]
  | _ => []

/-- Whether an instruction neither ends its block nor depends on where control came from. -/
def isPlain : Instr → Bool
  | phi .. => false
  | i => !i.isTerminator

theorem isTerminator_of_isPlain {i : Instr} (h : i.isPlain) : i.isTerminator = false := by
  cases i <;> first | rfl | cases h

theorem targets_of_isPlain {i : Instr} (h : i.isPlain) : i.targets = [] := by
  cases i <;> first | rfl | cases h

theorem sources_of_isPlain {i : Instr} (h : i.isPlain) : i.sources = [] := by
  cases i <;> first | rfl | cases h

theorem sources_of_isTerminator {i : Instr} (h : i.isTerminator) : i.sources = [] := by
  cases i <;> first | rfl | cases h

variable {r : Nat} {ty : Ty} {condition first second : Operand} {l l' : Label}

@[simp] theorem targets_jump : (jump l).targets = [l] := rfl

@[simp] theorem targets_branch : (branch condition l l').targets = [l, l'] := rfl

@[simp] theorem targets_unreachable : unreachable.targets = [] := rfl

@[simp] theorem targets_phi : (phi r ty first l second l').targets = [] := rfl

@[simp] theorem sources_jump : (jump l).sources = [] := rfl

@[simp] theorem sources_branch : (branch condition l l').sources = [] := rfl

@[simp] theorem sources_unreachable : unreachable.sources = [] := rfl

@[simp] theorem sources_phi : (phi r ty first l second l').sources = [l, l'] := rfl

end Instr

namespace Line

/-- The call that records the entry of a function. -/
def covers (name : String) : Line :=
  .instr (.call none .void (.global Assembly.coverSymbol) [⟨.ptr, .global name⟩])

/-- Whether a line is an instruction or a label, and not given by its text. -/
def isStructured : Line → Bool
  | instr _ | label _ => true
  | verbatim _ | verbatimLabel _ => false

/-- The temporary that a line defines. -/
def result? : Line → Option Nat
  | instr i => i.result?
  | _ => none

/-- The operands that a line uses. -/
def operands : Line → List Operand
  | instr i => i.operands
  | _ => []

/-- The types that a line mentions. -/
def types : Line → List Ty
  | instr i => i.types
  | _ => []

/-- Whether a line defines or uses a temporary. -/
def Mentions (line : Line) (id : Nat) : Prop :=
  line.result? = some id ∨ .temp id ∈ line.operands

end Line

/-- The types that a header mentions. -/
def Header.types : Header → List Ty
  | define ret _ params => ret :: params.map Typed.ty
  | verbatim _ => []

/-- The types that a function mentions. -/
def Function.types (f : Function) : List Ty :=
  f.header.toList.flatMap Header.types ++ f.lines.toList.flatMap Line.types

/-- A function of which no line is given by its text. -/
def Function.IsStructured (f : Function) : Prop :=
  (∃ ret symbol params, f.header = some (.define ret symbol params)) ∧
    ∀ line ∈ f.lines.toList, line.isStructured

/-- The types that a declaration mentions. -/
def Declaration.types (d : Declaration) : List Ty := d.ret :: d.params

/-- The types that a module mentions in type bodies, declarations and functions. -/
def Assembly.mentioned (a : Assembly) : List Ty :=
  a.types.toList.map TypeDef.body ++ a.declarations.toList.flatMap Declaration.types ++
    a.functions.toList.flatMap Function.types

/-- The temporaries that a function defines, in order. -/
def Function.results (f : Function) : List Nat := f.lines.toList.filterMap Line.result?

/-- The temporaries that the functions of a module define, in order. -/
def Assembly.results (a : Assembly) : List Nat := a.functions.toList.flatMap Function.results

end Monomorph.IR
