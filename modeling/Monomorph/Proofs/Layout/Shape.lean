import Mathlib.Data.List.Forall2
import Monomorph.Layout.Query
import Monomorph.Proofs.Source.Lineage
import Monomorph.Proofs.Ty.Substitution

/-!
# Shapes of types

The shape of a type says which types lie inside its values and how their extents make up its own.
Tuples and structs are records, unions are overlays, an enum is a tag with words for its largest
payload, and an instance of a value class is one block inside another. All other types, among them
wrappers, references to classes and unknown names, have an extent of their own.

Queries follow shapes: the extent of a type is computed from those of its parts.
-/

namespace Monomorph

open List

variable {args : List Ty} {t : Ty}

namespace Layout

variable {args' : List Ty} {name : String}

/-- How the extent of a type comes from the extents of its parts. -/
inductive Shape
  /-- The extent depends on no other type. -/
  | leaf (e : Extent)
  /-- Fields one after the other. -/
  | record (fields : List Ty)
  /-- Fields that all start at the same place. -/
  | overlay (fields : List Ty)
  /-- Elements one after the other. -/
  | array (elem : Ty) (length : UInt64)
  /-- A tag and words for the largest payload. -/
  | tagged (payloads : List Ty)
  /-- The fields of a class and of its ancestors, nearest first. -/
  | blocks (fields : List (List Ty))

namespace Shape

/-- The types inside values of the shape. -/
def parts : Shape → List Ty
  | .leaf _ => []
  | .record fields | .overlay fields | .tagged fields => fields
  | .array elem _ => [elem]
  | .blocks fields => fields.flatten

/-- The shape with its parts changed. -/
def map (f : Ty → Ty) : Shape → Shape
  | .leaf e => .leaf e
  | .record fields => .record (fields.map f)
  | .overlay fields => .overlay (fields.map f)
  | .array elem length => .array (f elem) length
  | .tagged payloads => .tagged (payloads.map f)
  | .blocks fields => .blocks (fields.map (List.map f))

theorem parts_map (f : Ty → Ty) (s : Shape) : (s.map f).parts = s.parts.map f := by
  cases s with
  | blocks fields => exact (map_flatten ..).symm
  | leaf | record | overlay | array | tagged => rfl

/-- The query for the extent of a shape, given the queries for its parts. -/
def extentWith (extent : Ty → Query Extent) : Shape → Query Extent
  | .leaf e => pure e
  | .record fields => do checked (Extent.record (← fields.mapM extent))
  | .overlay fields => do checked (Extent.overlay (← fields.mapM extent))
  | .array elem length => do checked (Extent.array (← extent elem) length)
  | .tagged payloads => do
      checked (enumExtent (wordsFor ((← payloads.mapM extent).map Extent.size)))
  | .blocks fields =>
      fields.foldrM (fun own base => do checked (Extent.record (base :: (← own.mapM extent))))
        .pointer

end Shape

/-! ### The shapes of types -/

section

variable (p : Program)

/-- The shape of a class instance in memory. -/
def classShape (d : ClassDef) (args : List Ty) : Shape :=
  match blocksOf p d with
  | [] => .leaf .pointer
  | own :: ancestors =>
      .blocks (own.fieldTypes args :: ancestors.map fun ancestor => ancestor.fieldTypes [])

/-- The types of the payloads of an enum instance. -/
def payloads (d : EnumDef) (args : List Ty) : List Ty :=
  d.variants.filterMap fun variant => d.payload? variant args

/-- The shape of a nominal type that is not a wrapper. -/
def definitionShape (name : String) (args : List Ty) : Shape :=
  match p.struct? name with
  | some d =>
      if d.isUnion then .overlay (d.fieldTypes args) else .record (d.fieldTypes args)
  | none =>
    match p.enum? name with
    | some d => .tagged (payloads d args)
    | none =>
      match p.class? name with
      | some d => if d.isValue then classShape p d args else .leaf .pointer
      | none => .leaf .pointer

/-- Whether a name and arguments are those of a wrapper. -/
def isWrapped (name : String) (args : List Ty) : Bool :=
  (Wrapper.ofName? name).isSome && args.length = 1

/-- The shape of a nominal type. -/
def nominalShape (name : String) (args : List Ty) : Shape :=
  if isWrapped name args then .leaf .pointer else definitionShape p name args

/-- The shape of a type. -/
def shape : Ty → Shape
  | .prim kind => .leaf kind.extent
  | .ref .. | .ptr _ => .leaf .pointer
  | .func .. | .closure .. | .dyn .. | .slice _ => .leaf .fatPointer
  | .tuple elems => .record elems
  | .array elem length => .array elem length
  | .classRef name => nominalShape p name []
  | .named _ name args => nominalShape p name args

end

variable {p : Program} {extent : Ty → Query Extent}

theorem exists_of_isWrapped (h : isWrapped name args = true) :
    ∃ wrapper arg, Wrapper.ofName? name = some wrapper ∧ args = [arg] := by
  rw [isWrapped, Bool.and_eq_true, decide_eq_true_eq] at h
  obtain ⟨wrapper, hwrapper⟩ := Option.isSome_iff_exists.1 h.1
  obtain ⟨arg, rfl⟩ := length_eq_one_iff.1 h.2
  exact ⟨wrapper, arg, hwrapper, rfl⟩

theorem nominalShape_of_not_isWrapped (h : isWrapped name args = false) :
    nominalShape p name args = definitionShape p name args := by
  rw [nominalShape, h, if_neg nofun]

theorem shape_of_declared? (h : t.declared? = some (name, args)) :
    shape p t = nominalShape p name args := by
  cases t <;> cases h <;> rfl

/-- The blocks of a class with a lineage are those of the lineage. -/
theorem classShape_of_lineage (hname : IsBare name) {d : ClassDef} (hd : p.class? name = some d)
    {ancestors : List ClassDef} (h : p.Lineage name (d :: ancestors)) (args : List Ty) :
    classShape p d args =
      .blocks (d.fieldTypes args :: ancestors.map fun ancestor => ancestor.fieldTypes []) := by
  have hchain := h.classChain_eq hname
  rw [← Program.name_of_class? hname hd] at hchain
  rw [classShape, blocksOf, hchain]
  dsimp only
  rw [if_pos rfl]

/-! ### Queries follow shapes -/

theorem classExtentWith_eq (d : ClassDef) (args : List Ty) :
    classExtentWith p extent d args = (classShape p d args).extentWith extent := by
  rw [classExtentWith, classShape]
  cases blocksOf p d with
  | nil => rfl
  | cons own ancestors =>
    simp only [Shape.extentWith, foldrM_cons, foldrM_map, foldlM_reverse]
    rfl

theorem definitionExtentWith_eq (name : String) (args : List Ty) :
    definitionExtentWith p extent name args = (definitionShape p name args).extentWith extent := by
  rw [definitionExtentWith, definitionShape]
  cases p.struct? name with
  | some d =>
    dsimp only
    rw [structExtentWith]
    cases d.isUnion <;> rfl
  | none =>
    cases p.enum? name with
    | some d =>
      dsimp only
      rw [payloadWordsWith, Shape.extentWith, bind_assoc]
      rfl
    | none =>
      cases p.class? name with
      | none => rfl
      | some d =>
        dsimp only
        cases d.isValue with
        | false => rfl
        | true => exact classExtentWith_eq d args

theorem extentsWith_eq_mapM (nominal : Ty → String → List Ty → Query Extent) (ts : List Ty) :
    Ty.extentsWith nominal ts = ts.mapM (Ty.extentWith nominal) := by
  induction ts with
  | nil => rw [Ty.extentsWith, mapM_nil]
  | cons t ts ih => rw [Ty.extentsWith, mapM_cons, ih]

/-- A type that no definition declares follows its shape. -/
theorem extentWith_eq (nominal : Ty → String → List Ty → Query Extent) (h : t.declared? = none) :
    t.extentWith nominal = (shape p t).extentWith (Ty.extentWith nominal) := by
  cases t with
  | named | classRef => cases h
  | tuple elems =>
    rw [Ty.extentWith, extentsWith_eq_mapM]
    rfl
  | prim | ref | ptr | func | closure | array | slice | dyn => rw [Ty.extentWith]; rfl

/-! ### Erased shapes -/

section

variable (h : Ty.unqualifiedList args = Ty.unqualifiedList args')

include h

theorem map_typesUnder (generics : List String) (fields : List FieldDef) :
    (FieldDef.typesUnder generics fields args).map Ty.unqualified =
      (FieldDef.typesUnder generics fields args').map Ty.unqualified := by
  simp only [FieldDef.typesUnder, map_map]
  refine map_congr_left fun field _ => ?_
  simp only [Function.comp_apply, Ty.unqualified_subst, Bindings.unqualified_ofArgs, h]

theorem map_payload? (d : EnumDef) (variant : VariantDef) :
    (d.payload? variant args).map Ty.unqualified =
      (d.payload? variant args').map Ty.unqualified := by
  have hsubst : Ty.unqualifiedList (Ty.substList (.ofArgs d.generics args) variant.payload) =
      Ty.unqualifiedList (Ty.substList (.ofArgs d.generics args') variant.payload) := by
    simp only [Ty.unqualifiedList_substList, Bindings.unqualified_ofArgs, h]
  rw [EnumDef.payload?, EnumDef.payload?]
  generalize Ty.substList (.ofArgs d.generics args) variant.payload = ts at hsubst
  generalize Ty.substList (.ofArgs d.generics args') variant.payload = ts' at hsubst
  obtain - | ⟨t, - | ⟨u, ts⟩⟩ := ts <;> obtain - | ⟨t', - | ⟨u', ts'⟩⟩ := ts'
  case nil.nil => rfl
  case cons.nil.cons.nil => exact congrArg some (List.cons.inj hsubst).1
  case cons.cons.cons.cons => exact congrArg (fun elems => some (Ty.tuple elems)) hsubst
  -- the lists have the same length
  all_goals simp [Ty.unqualifiedList] at hsubst

theorem map_payloads (d : EnumDef) :
    (payloads d args).map Ty.unqualified = (payloads d args').map Ty.unqualified := by
  simp only [payloads, map_filterMap, map_payload? h]

/-- Qualifiers do not matter for the shape of a definition. -/
theorem map_definitionShape (name : String) : (definitionShape p name args).map Ty.unqualified =
      (definitionShape p name args').map Ty.unqualified := by
  rw [definitionShape, definitionShape]
  cases p.struct? name with
  | some d =>
    have hfields := map_typesUnder h d.generics d.fields
    dsimp only
    cases d.isUnion
    · exact congrArg Shape.record hfields
    · exact congrArg Shape.overlay hfields
  | none =>
    cases p.enum? name with
    | some d => exact congrArg Shape.tagged (map_payloads h d)
    | none =>
      cases p.class? name with
      | none => rfl
      | some d =>
        dsimp only
        cases d.isValue with
        | false => rfl
        | true =>
          rw [if_pos rfl, if_pos rfl, classShape, classShape]
          cases blocksOf p d with
          | nil => rfl
          | cons own ancestors =>
            exact congrArg (fun fields => Shape.blocks (fields :: _))
              (map_typesUnder h own.generics own.fields)

theorem isWrapped_congr (name : String) : isWrapped name args = isWrapped name args' := by
  have hlength := congrArg List.length h
  rw [Ty.length_unqualifiedList, Ty.length_unqualifiedList] at hlength
  rw [isWrapped, isWrapped, hlength]

end

/-- Qualifiers do not matter for the shape of a type. -/
theorem map_unqualified_shape {t' : Ty} (h : t.unqualified = t'.unqualified) :
    (shape p t).map Ty.unqualified = (shape p t').map Ty.unqualified := by
  cases t <;> cases t' <;> simp only [Ty.unqualified, Ty.prim.injEq, Ty.named.injEq,
    Ty.tuple.injEq, Ty.array.injEq, Ty.classRef.injEq, reduceCtorEq, true_and] at h <;>
    try rfl
  case prim => rw [h]
  case named name args _ _ args' =>
    obtain ⟨rfl, hargs⟩ := h
    rw [shape, shape, nominalShape, nominalShape, isWrapped_congr hargs]
    split
    · rfl
    · exact map_definitionShape hargs name
  case tuple =>
    rw [Ty.unqualifiedList_eq_map, Ty.unqualifiedList_eq_map] at h
    exact congrArg Shape.record h
  case array => exact congrArg₂ Shape.array h.1 h.2
  case classRef => rw [h]

/-! ### Extents of lists of types -/

variable {F G : Ty → Extent → Prop} {ts : List Ty}

theorem eq_of_forall₂ {es es' : List Extent} (hunique : ∀ t ∈ ts, ∀ e e', F t e → G t e' → e = e')
    (h : List.Forall₂ F ts es) (h' : List.Forall₂ G ts es') : es = es' := by
  induction h generalizing es' with
  | nil =>
    cases h'
    rfl
  | cons he _ ih =>
    cases h' with
    | cons he' hes' =>
      obtain ⟨hunique, hrest⟩ := forall_mem_cons.1 hunique
      rw [hunique _ _ he he', ih hrest hes']

theorem exists_of_forall₂ {es : List Extent} (h : List.Forall₂ F ts es) :
    ∀ t ∈ ts, ∃ e ∈ es, F t e := by
  induction h with
  | nil => exact forall_mem_nil _
  | cons he _ ih =>
    refine forall_mem_cons.2 ⟨⟨_, mem_cons_self, he⟩, fun t ht => ?_⟩
    obtain ⟨e, hmem, he⟩ := ih t ht
    exact ⟨e, mem_cons_of_mem _ hmem, he⟩

end Layout

/-! ### Clean programs -/

open Layout

/-- No two types of the program have the same name, and all type names are clean: those of the
types and those in the types of fields and payloads. -/
structure Program.HasCleanTypes (p : Program) : Prop where
  nodup : p.typeNames.Nodup
  names : ∀ name ∈ p.typeNames, Symbol.IsClean name
  structs : ∀ m ∈ p.modules, ∀ d ∈ m.structs.items, ∀ field ∈ d.fields, field.ty.Writable
  enums : ∀ m ∈ p.modules, ∀ d ∈ m.enums.items, ∀ variant ∈ d.variants,
    (Ty.tuple variant.payload).Writable
  classes : ∀ m ∈ p.modules, ∀ d ∈ m.classes.items, ∀ field ∈ d.fields, field.ty.Writable

theorem Program.hasCleanTypes_iff (p : Program) :
    p.HasCleanTypes ↔ p.typeNames.Nodup ∧ (∀ name ∈ p.typeNames, Symbol.IsClean name) ∧
      (∀ m ∈ p.modules, ∀ d ∈ m.structs.items, ∀ field ∈ d.fields, field.ty.Writable) ∧
      (∀ m ∈ p.modules, ∀ d ∈ m.enums.items, ∀ variant ∈ d.variants,
        (Ty.tuple variant.payload).Writable) ∧
      ∀ m ∈ p.modules, ∀ d ∈ m.classes.items, ∀ field ∈ d.fields, field.ty.Writable :=
  ⟨fun h => ⟨h.1, h.2, h.3, h.4, h.5⟩, fun ⟨h₁, h₂, h₃, h₄, h₅⟩ => ⟨h₁, h₂, h₃, h₄, h₅⟩⟩

instance : DecidablePred Program.HasCleanTypes := fun p =>
  decidable_of_iff _ p.hasCleanTypes_iff.symm

theorem FieldDef.writable_typesUnder {fields : List FieldDef}
    (hfields : ∀ field ∈ fields, field.ty.Writable) (hargs : ∀ t ∈ args, t.Writable)
    (generics : List String) : ∀ t ∈ FieldDef.typesUnder generics fields args, t.Writable :=
  forall_mem_map.2 fun field hfield =>
    Ty.Writable.subst (fun _ t ht => hargs t (Bindings.mem_of_find?_ofArgs ht)) _
    (hfields field hfield)

theorem EnumDef.writable_payloads {d : EnumDef}
    (hd : ∀ variant ∈ d.variants, (Ty.tuple variant.payload).Writable)
    (hargs : ∀ t ∈ args, t.Writable) : ∀ t ∈ payloads d args, t.Writable := by
  intro t ht
  obtain ⟨variant, hvariant, hpayload⟩ := mem_filterMap.1 ht
  have htuple : (Ty.tuple (Ty.substList (.ofArgs d.generics args) variant.payload)).Writable :=
    Ty.Writable.subst (fun _ t ht => hargs t (Bindings.mem_of_find?_ofArgs ht))
      (.tuple variant.payload) (hd variant hvariant)
  rw [EnumDef.payload?] at hpayload
  split at hpayload
  · cases hpayload
  next heq =>
    cases hpayload
    rw [heq, Ty.writable_tuple] at htuple
    exact htuple.2 t mem_cons_self
  next heq =>
    cases hpayload
    exact htuple

namespace Program.HasCleanTypes

variable {p : Program}

theorem writable_classParts (hp : p.HasCleanTypes) {d : ClassDef}
    (hd : ∀ field ∈ d.fields, field.ty.Writable) (hargs : ∀ t ∈ args, t.Writable) :
    ∀ t ∈ (classShape p d args).parts, t.Writable := by
  have hblocks : ∀ c ∈ blocksOf p d, ∀ field ∈ c.fields, field.ty.Writable := by
    intro c hc
    rw [blocksOf] at hc
    split at hc
    · cases mem_singleton.1 hc
      exact hd
    next first rest hchain =>
      split at hc
      · rw [← hchain] at hc
        obtain ⟨m, hm, hitem⟩ := mem_of_mem_classChain hc
        exact hp.classes m hm c hitem
      · cases mem_singleton.1 hc
        exact hd
  rw [classShape]
  cases hchain : blocksOf p d with
  | nil => exact forall_mem_nil _
  | cons own ancestors =>
    rw [hchain] at hblocks
    obtain ⟨hown, hancestors⟩ := forall_mem_cons.1 hblocks
    refine forall_mem_append.2 ⟨FieldDef.writable_typesUnder hown hargs _, ?_⟩
    intro t ht
    obtain ⟨fields, hfields, ht⟩ := mem_flatten.1 ht
    obtain ⟨ancestor, hancestor, rfl⟩ := mem_map.1 hfields
    exact FieldDef.writable_typesUnder (hancestors ancestor hancestor) (forall_mem_nil _) _ t ht

theorem writable_definitionParts (hp : p.HasCleanTypes) (name : String)
    (hargs : ∀ t ∈ args, t.Writable) : ∀ t ∈ (definitionShape p name args).parts, t.Writable := by
  rw [definitionShape]
  cases hstruct : p.struct? name with
  | some d =>
    obtain ⟨m, hm, hitem⟩ := mem_of_lookup hstruct
    have hfields := FieldDef.writable_typesUnder (hp.structs m hm d hitem) hargs d.generics
    dsimp only
    cases d.isUnion <;> exact hfields
  | none =>
    cases henum : p.enum? name with
    | some d =>
      obtain ⟨m, hm, hitem⟩ := mem_of_lookup henum
      exact EnumDef.writable_payloads (hp.enums m hm d hitem) hargs
    | none =>
      cases hclass : p.class? name with
      | none => exact forall_mem_nil _
      | some d =>
        obtain ⟨m, hm, hitem⟩ := mem_of_lookup hclass
        dsimp only
        cases d.isValue with
        | false => exact forall_mem_nil _
        | true => exact hp.writable_classParts (hp.classes m hm d hitem) hargs

/-- The parts of a type that symbols can write are such types. -/
theorem writable_parts (hp : p.HasCleanTypes) {t : Ty} (ht : t.Writable) :
    ∀ u ∈ (shape p t).parts, u.Writable := by
  have hnominal : ∀ (name : String) (args : List Ty), (∀ t ∈ args, t.Writable) →
      ∀ u ∈ (nominalShape p name args).parts, u.Writable := by
    intro name args hargs
    rw [nominalShape]
    split
    · exact forall_mem_nil _
    · exact hp.writable_definitionParts name hargs
  cases t with
  | named _ name args => exact hnominal name args ((Ty.writable_named ..).1 ht).2.2
  | classRef name => exact hnominal name [] (forall_mem_nil _)
  | tuple elems => exact ((Ty.writable_tuple elems).1 ht).2
  | array elem length =>
    exact forall_mem_singleton.2 ((Symbol.writable_apply (.array length) elem).1 ht)
  | prim | ref | ptr | func | closure | slice | dyn => exact forall_mem_nil _

end Program.HasCleanTypes

end Monomorph
