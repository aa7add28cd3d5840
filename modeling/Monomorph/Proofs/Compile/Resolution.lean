import Monomorph.Proofs.Compile.FieldAddress
import Monomorph.Proofs.Compile.Headers

/-!
# What names resolve to

A name is looked up where it is used, under the qualifier that it has there. The instance that is
requested keeps only the bare name of the definition that was found, and that name is looked up
again when the instance is generated. Both give the same definition if it is the one that its bare
name resolves to, and then the fields of its instances are reached through the type that is defined
from it. A definition that an earlier module hides is lost: the qualified name finds it, and the
instance is generated from the other one.

## Main results

* `Compile.Performs.generatedFrom`, `Compile.Performs.definesFrom`,
  `Compile.generatedFrom_of_resolves`.
-/

namespace Monomorph

open List Script Monomorph.Symbol

variable {own : StructDef} {item : WorkItem}

/-! ### Definitions -/

namespace Definition

/-- The script that generates an instance. -/
def generate : Definition → List Ty → String → Gen Unit
  | struct d => Gen.defineStruct d
  | enum d => Gen.defineEnum d
  | cls d => Gen.defineClass d
  | func f => Gen.generateFunction f

/-- The type through which the fields of an instance are reached. -/
def typeDef? (p : Program) : Definition → List Ty → Option IR.TypeDef
  | struct d, args => some ⟨"%struct." ++ ofInstance d.name args, .anon (p.irs (d.fieldTypes args))⟩
  | cls d, args => some ⟨d.block args, .anon (d.firstIr :: p.irs (d.fieldTypes args))⟩
  | enum _, _ | func _, _ => none

/-- Instances with one symbol have types of one name. -/
theorem typeDef?_name_eq {p : Program} {d : Definition} {args args' : List Ty}
    (h : ofInstance d.name args = ofInstance d.name args') {block block' : IR.TypeDef}
    (hblock : d.typeDef? p args = some block) (hblock' : d.typeDef? p args' = some block') :
    block.name = block'.name := by
  cases d with
  | struct own =>
    cases hblock
    cases hblock'
    exact congrArg ("%struct." ++ ·) h
  | cls own =>
    cases hblock
    cases hblock'
    exact congrArg ("%class." ++ ·) h
  | enum | func => cases hblock

end Definition

namespace Program

/-- The names of the definitions of one kind, in all modules. -/
def namesOf (p : Program) : InstanceKind → List String
  | .struct => p.names Module.structs
  | .enum => p.names Module.enums
  | .cls => p.names Module.classes
  | .func => p.names Module.functions
  | .method => []

/-- A definition is found again under its bare name, and symbols show the names of its kind. -/
structure Identifies (p : Program) (d : Definition) : Prop where
  own : p.definition? d.kind d.name = some d
  separable : ∀ name ∈ p.namesOf d.kind, Separable name.toList

/-- The fields that are accessed through a name are those of the type of a definition, and no other
type has its name. The types of structs share their names with enums, with wrappers and with the
blocks behind them, and the types of classes are named after what they are called at the access. -/
def OwnsBlock (p : Program) (name : String) : Definition → Prop
  | .struct d => d.isUnion = false ∧ Wrapper.ofName? d.name = none ∧ d.name ≠ Wrapper.blockName ∧
      ∀ other ∈ p.names Module.enums, Separable other.toList ∧ other ≠ d.name
  | .cls d => d.name = name
  | .enum _ | .func _ => False

variable {p : Program} {d : Definition} {name : String} {args : List Ty} {t : Ty} {item : WorkItem}

theorem mem_namesOf {kind : InstanceKind} (h : p.definition? kind name = some d) :
    d.name ∈ p.namesOf kind := by
  cases kind with
  | method => cases h
  | _ =>
    obtain ⟨own, hown, rfl⟩ := Option.map_eq_some_iff.1 h
    exact mem_names_of_lookup hown

/-- An instance of anything but a method is that of the name and the arguments that its symbol
shows. -/
theorem Requests.of_definition (h : p.Requests item) (hkind : item.kind = d.kind) :
    item.base ∈ p.namesOf d.kind ∧ item.symbol = ofInstance item.base item.args := by
  rw [← hkind]
  cases h with
  | struct hd | enum hd | cls hd | func hd => exact ⟨mem_names_of_lookup hd, rfl⟩
  | _ => cases d <;> cases hkind

/-- An instance that has the symbol of an instance of a definition has its name, and arguments with
that symbol. -/
theorem Identifies.of_symbol (hd : p.Identifies d) (hrequests : p.Requests item)
    (hkind : item.kind = d.kind) (hsymbol : item.symbol = ofInstance d.name args) :
    item.base = d.name ∧ ofInstance d.name item.args = ofInstance d.name args := by
  obtain ⟨hbase, hshown⟩ := hrequests.of_definition hkind
  rw [hshown] at hsymbol
  have heq := base_eq_of_ofInstance_eq (hd.separable _ hbase)
    (hd.separable _ (mem_namesOf hd.own)) hsymbol
  exact ⟨heq, heq ▸ hsymbol⟩

theorem Identifies.struct? (hd : p.Identifies (.struct own)) : p.struct? own.name = some own := by
  simpa [definition?, Definition.kind, Definition.name] using hd.own

theorem Identifies.class? {own : ClassDef} (hd : p.Identifies (.cls own)) :
    p.class? own.name = some own := by
  simpa [definition?, Definition.kind, Definition.name] using hd.own

end Program

/-! ### Requests -/

namespace Gen

variable {session : Session} {s s' : Build} {events : Gen.Trace} {t : Ty}
  {name : String} {args : List Ty} {d : Definition} {ir : IR.Ty} {field : String} {place : Place}

/-- An instance is generated from the definition that its base has. -/
theorem generateFound_eq (hkind : item.kind = d.kind) : generateFound item = program >>= fun p =>
      generateFrom (p.definition? d.kind item.base) Definition.generate item := by
  have hfrom : ∀ {α : Type} (found : Option α) (wrap : α → Definition),
      generateFrom found (fun own => (wrap own).generate) item =
        generateFrom (found.map wrap) Definition.generate item := by
    intro α found wrap
    cases found <;> rfl
  rw [generateFound]
  refine congrArg (program >>= ·) (funext fun p => ?_)
  cases d with
  | struct =>
    rw [hkind]
    exact hfrom (p.struct? item.base) .struct
  | enum =>
    rw [hkind]
    exact hfrom (p.enum? item.base) .enum
  | cls =>
    rw [hkind]
    exact hfrom (p.class? item.base) .cls
  | func =>
    rw [hkind]
    exact hfrom (p.function? item.base) .func

/-- The scripts that access a field of an instance of a definition: at an address, and in an object
if it is that of a class. -/
inductive Accesses (t : Ty) (name : String) (args : List Ty) (field : String) :
    Definition → Gen (Option Place) → Prop
  | direct (d : Definition) (cursor : Cursor) :
      Accesses t name args field d (directField? cursor t field)
  | ofClass (own : ClassDef) (object : IR.Operand) :
      Accesses t name args field (.cls own) (classField? object name args field)

/-- Where a field of an instance of a definition is found, the instance is requested, and the first
step to the field goes into its type. -/
theorem addresses_of_accesses {m : Gen (Option Place)} (hd : session.program.Denotes t name args d)
    (howns : session.program.OwnsBlock name d) (hm : Accesses t name args field d m)
    (h : session.Runs m s events (some place) s') :
    ⟨.require (.plain d.kind d.name args), ofInstance d.name args⟩ ∈ events ∧
      ∃ r block object index rest, d.typeDef? session.program args = some block ∧
        addresses events = .member r (.named block.name) object index :: rest := by
  have hclass : ∀ {own : ClassDef} {object events s}, d = .cls own → own.name = name →
      session.Runs (classField? object name args field) s events (some place) s' →
        ⟨.require (.plain d.kind d.name args), ofInstance d.name args⟩ ∈ events ∧
          ∃ r block index rest, d.typeDef? session.program args = some block ∧
            addresses events = .member r (.named block.name) object index :: rest := by
    rintro own object events s rfl rfl hruns
    obtain ⟨⟨⟩, -⟩ | ⟨_, below, owner, index, ⟨⟩, -, -, hwalk, hown, -⟩ := runs_classField? hruns
    refine ⟨hown.require hd.ofName, ?_⟩
    cases hcs : (below ++ [owner]).drop 1 with
    | nil | cons =>
      rw [hcs, blockSteps] at hwalk
      generalize addresses events = is at hwalk
      cases hwalk
      exact ⟨_, _, _, _, rfl, rfl⟩
  cases hm with
  | direct d cursor =>
    cases d with
    | struct own =>
      obtain ⟨hmem, index, -, -, hwalk⟩ := runs_directField?_struct hd howns.1 h
      generalize addresses events = is at hwalk
      cases hwalk
      exact ⟨hmem, _, _, cursor.operand, index, _, rfl, rfl⟩
    | cls own =>
      obtain ⟨object, before, _, _, -, hfield, rfl, haddresses⟩ :=
        runs_directField?_class hd.declared (Program.class?_of_typeNamed? hd.found).1 h
      obtain ⟨hmem, r, block, index, rest, hblock, hfirst⟩ := hclass rfl howns hfield
      exact ⟨List.mem_append_right before hmem, r, block, object, index, rest, hblock,
        haddresses.trans hfirst⟩
    | enum | func => exact howns.elim
  | ofClass own object =>
    obtain ⟨hmem, r, block, index, rest, hblock, hfirst⟩ := hclass rfl howns h
    exact ⟨hmem, r, block, object, index, rest, hblock, hfirst⟩

end Gen

/-! ### Instances of the result -/

namespace Naming

variable (session : Session)

/-- Code generation requests instances of the items of the program, whatever their names are. -/
def requesting : Discipline session :=
  discipline (V := .full) session.program.Requests (.none session) (fun _ h => h.requests)
    session.over_full

instance : (requesting session).IsFull := isFull _ _

end Naming

namespace Compile

variable {program : Program} {settings : Settings} {output : Output} {α : Type} {m : Gen α} {a : α}
  {s s' : Build} {during : Gen.Trace} {d : Definition} {args : List Ty}
  {symbol name : String} {body : IR.Ty}

/-- An instance of a definition occurs once in the result, and is generated from the definition. -/
structure GeneratedFrom (program : Program) (settings : Settings) (output : Output)
    (d : Definition) (args : List Ty) : Prop where
  once : (output.instances.map WorkItem.key).count (d.kind, ofInstance d.name args) = 1
  performed : ∀ item ∈ output.instances, item.key = (d.kind, ofInstance d.name args) →
    ∃ t own t', Performs program settings output (Gen.generate item) t own () t'
  /-- To generate the instance is to perform the script of the definition. -/
  own : ∀ item ∈ output.instances, item.key = (d.kind, ofInstance d.name args) →
    ∀ t events t', Runs (Step.perform ⟨program, settings⟩) (Gen.generate item) t events () t' →
      ∃ own, Runs (Step.perform ⟨program, settings⟩) (d.generate item.args item.symbol) t own ()
        t' ∧ events = ⟨.program, program⟩ :: own

/-- What may be requested is an instance of an item of the program. -/
theorem requests_of_admits (h : (Naming.requesting ⟨program, settings⟩).Admits item) :
    program.Requests item :=
  (h (.initial settings)).1

/-- An instance of the result with the symbol of an instance of a definition has its name. -/
theorem base_eq_of_mem_instances (hd : program.Identifies d)
    (h : compile program settings = .ok output) (hitem : item ∈ output.instances)
    (hkey : item.key = (d.kind, ofInstance d.name args)) : item.base = d.name := by
  obtain ⟨hkind, hsymbol⟩ := Prod.mk.inj hkey
  have hadmits : (Naming.requesting ⟨program, settings⟩).Admits item :=
    admits_of_mem_instances trivial (fun _ _ => trivial) h hitem
  exact (hd.of_symbol (requests_of_admits hadmits) hkind hsymbol).1

/-- What is requested of a definition is generated from it. -/
theorem Performs.generatedFrom (hd : program.Identifies d)
    (h : Performs program settings output m s during a s')
    (hevent : ⟨.require (.plain d.kind d.name args), symbol⟩ ∈ during) :
    GeneratedFrom program settings output d args where
  once := h.count_instances hevent
  performed _ hitem _ := performs_generate h.compile_eq_ok hitem
  own item hitem hkey _ _ _ hruns := by
    have hfound : program.definition? d.kind item.base = some d := by
      rw [base_eq_of_mem_instances hd h.compile_eq_ok hitem hkey]
      exact hd.own
    have hkind : item.kind = d.kind := (Prod.mk.inj hkey).1
    exact Gen.runs_generate_of (Gen.generateFound_eq hkind) hfound hruns

/-! ### Types of the result -/

/-- All bodies that are written for the name of the type of an instance are those of instances with
that symbol. -/
theorem exists_args_of_writes (hd : program.Identifies d) (howns : program.OwnsBlock name d)
    {block : IR.TypeDef} (hblock : d.typeDef? program args = some block)
    (h : (Naming.requesting ⟨program, settings⟩).Writes block.name body) :
    ∃ args', ofInstance d.name args' = ofInstance d.name args ∧
      d.typeDef? program args' = some ⟨block.name, body⟩ := by
  cases d with
  | struct own =>
    cases hblock
    obtain ⟨-, hwrapped, hblock, henums⟩ := howns
    have hseparable : Separable own.name.toList := hd.separable _ (Program.mem_namesOf hd.own)
    obtain hwrapper | hinner | ⟨item, found, hitem, hkind, hsymbol, hfound, rfl⟩ |
      ⟨item, -, -, hitem, hkind, hsymbol, -⟩ := h.struct_cases hseparable
    · rw [hwrapped] at hwrapper
      cases hwrapper
    · exact absurd hinner hblock
    · obtain ⟨hbase, hshown⟩ := hd.of_symbol (requests_of_admits hitem) hkind hsymbol
      rw [hbase] at hfound
      cases hd.struct?.symm.trans hfound
      exact ⟨item.args, hshown, congrArg (fun s => some (IR.TypeDef.mk ("%struct." ++ s) _)) hshown⟩
    · obtain ⟨hmem, hshown⟩ := (requests_of_admits hitem).of_definition (d := .enum default) hkind
      obtain ⟨hother, hne⟩ := henums _ hmem
      rw [hshown] at hsymbol
      exact absurd (base_eq_of_ofInstance_eq hother hseparable hsymbol) hne
  | cls own =>
    cases hblock
    obtain ⟨item, found, hitem, hkind, hsymbol, hfound, rfl⟩ := Facts.Writes.class_cases h
    obtain ⟨hbase, hshown⟩ := hd.of_symbol (requests_of_admits hitem) hkind hsymbol
    rw [hbase] at hfound
    cases hd.class?.symm.trans hfound
    exact ⟨item.args, hshown, congrArg (fun s => some (IR.TypeDef.mk ("%class." ++ s) _)) hshown⟩
  | enum | func => exact howns.elim

/-- The type of a requested instance is defined once in the result, from its definition. -/
theorem Performs.definesFrom (hd : program.Identifies d) (howns : program.OwnsBlock name d)
    (h : Performs program settings output m s during a s')
    (hevent : ⟨.require (.plain d.kind d.name args), symbol⟩ ∈ during) :
    ∃ args' block, ofInstance d.name args' = ofInstance d.name args ∧
      d.typeDef? program args' = some block ∧ output.assembly.DefinesAs block.name block.body := by
  have hfrom := h.generatedFrom hd hevent
  obtain ⟨item, hitem, hkey⟩ := mem_map.1 (count_pos_iff.1
    (Nat.lt_of_lt_of_eq Nat.one_pos hfrom.once.symm))
  obtain ⟨hkind, hsymbol⟩ := Prod.mk.inj hkey
  obtain ⟨t, events, t', hgenerate⟩ := hfrom.performed item hitem hkey
  have hbase := base_eq_of_mem_instances hd h.compile_eq_ok hitem hkey
  obtain ⟨used, hused, hname⟩ : ∃ used, d.typeDef? program args = some used ∧
      TypeDefinitions.definedName? program item = some used.name := by
    rw [TypeDefinitions.definedName?, hkind, hbase, hsymbol]
    cases d with
    | struct own => exact ⟨_, rfl, by simp [Definition.kind, Definition.name, hd.struct?, howns.1]⟩
    | cls own => exact ⟨_, rfl, congrArg (Option.map _) hd.class?⟩
    | enum | func => exact howns.elim
  obtain ⟨written, hdefine⟩ :=
    TypeDefinitions.defines_generate hname t events () t' hgenerate.runs
  obtain ⟨body, hwrites, hdefines⟩ := hgenerate.exists_definesAs
    (D := Naming.requesting ⟨program, settings⟩) trivial (fun _ _ => trivial) hdefine
  obtain ⟨args', heq, hblock⟩ := exists_args_of_writes hd howns hused hwrites
  exact ⟨args', _, heq, hblock, hdefines⟩

/-- Names keep their meaning for a definition that its bare name resolves to, if symbols show the
names of its kind. A closed type that resolves to the definition requests an instance of it where it
is represented, and so does a generic call whose arguments are closed. Where a field of such a type
is found, the first step to it goes into a type which the result defines once, with the fields of
the definition for arguments that have the same symbol. All instances that are requested in these
ways occur once in the result and are generated from the definition. -/
theorem generatedFrom_of_resolves (hd : program.Identifies d) :
    (∀ t name args s during ir s', program.Denotes t name args d →
      Performs program settings output (Gen.irType t) s during ir s' →
        ⟨.require (.plain d.kind d.name args), ofInstance d.name args⟩ ∈ during ∧
          GeneratedFrom program settings output d args) ∧
    (∀ l path args span expected s during value s' f, d = .func f →
      program.function? path.joined = some f → f.isGeneric = true →
      Performs program settings output (Lowering.callGeneric l path args span expected) s during
        value s' →
        ∃ first resolution early mid,
          Runs (Step.perform ⟨program, settings⟩) (l.bindItem f.generics path.args f.paramTypes args
            [f.ret] expected (.prim .unit)) s first (resolution, early) mid ∧
          (program.isOpenList resolution.args = false →
            ⟨.require (.plain d.kind d.name resolution.args), ofInstance d.name resolution.args⟩ ∈
                during ∧
              GeneratedFrom program settings output d resolution.args)) ∧
    ∀ t name args field m s during place s', program.Denotes t name args d →
      program.OwnsBlock name d → Gen.Accesses t name args field d m →
      Performs program settings output m s during (some place) s' →
        GeneratedFrom program settings output d args ∧
          ∃ r block object index rest args',
            addresses during = .member r (.named block.name) object index :: rest ∧
            ofInstance d.name args' = ofInstance d.name args ∧
            d.typeDef? program args' = some block ∧
            output.assembly.DefinesAs block.name block.body := by
  refine ⟨?_, ?_, ?_⟩
  · intro t name args s during ir s' hdenotes h
    have hevent := (Gen.runs_irType_of_denotes hdenotes h.runs).1
    exact ⟨hevent, h.generatedFrom hd hevent⟩
  · rintro l path args span expected s during value s' f rfl hf hgeneric h
    obtain ⟨first, resolution, early, mid, hbind, hcalls⟩ :=
      Lowering.runs_callGeneric hf hgeneric h.runs
    refine ⟨first, resolution, early, mid, hbind, fun hclosed => ?_⟩
    obtain ⟨_, _, calling, _, hmem, -, rfl⟩ := hcalls hclosed
    have hevent := List.mem_append_left calling hmem
    exact ⟨hevent, h.generatedFrom hd hevent⟩
  · intro t name args field m s during place s' hdenotes howns hm h
    obtain ⟨hevent, r, used, object, index, rest, hused, haddresses⟩ :=
      Gen.addresses_of_accesses hdenotes howns hm h.runs
    obtain ⟨args', block, heq, hblock, hdefines⟩ := h.definesFrom hd howns hevent
    rw [Definition.typeDef?_name_eq heq.symm hused hblock] at haddresses
    exact ⟨h.generatedFrom hd hevent, r, block, object, index, rest, args', haddresses, heq,
      hblock, hdefines⟩

/-! ### Modules that share names -/

/-- A class of the first import. -/
def firstCell : ClassDef where
  name := "Cell"
  fields := [⟨"v", .prim .i32, none⟩]

/-- A generic function of the first import. -/
def firstTag : FunctionDef where
  name := "tag"
  generics := ["T"]
  body := some (.mk [] none)

/-- Two imports that define a class and a generic function of the same names, and a function that
uses those of the first import under its qualifier. -/
def layered : Program where
  home := {
    functions := .ofList [
      { name := "f"
        body := some (.mk [
          .eval (.record {} ⟨["geo", "Cell"], []⟩ [.mk "v" (.lit {} (.int 1)) .dummy] none),
          .eval (.call {} (.path {} ⟨["geo", "tag"], [.prim .i32]⟩) [])] none) }] }
  imports := [
    { path := "geo", classes := .ofList [firstCell], functions := .ofList [firstTag] },
    { path := "alt"
      classes := .ofList [{ name := "Cell", fields := [⟨"w", .prim .f64, none⟩] }]
      functions := .ofList [
        { name := "tag", generics := ["T"], ret := .prim .i32
          body := some (.mk [] (some (.lit {} (.int 0)))) }] }]

theorem identifies_layered :
    layered.Identifies (.cls firstCell) ∧ layered.Identifies (.func firstTag) :=
  ⟨⟨rfl, by decide⟩, ⟨rfl, by decide⟩⟩

theorem denotes_layered : layered.Denotes (.ofName "Cell" []) "Cell" [] (.cls firstCell) where
  declared := rfl
  found := rfl
  unbuilt _ := by decide
  unwrapped := by decide
  closed := by decide

/-- The explicit argument of the call is what it resolves to. -/
theorem args_of_bindItem_layered {l : Lowering} {events : Gen.Trace}
    {resolution : Resolution} {early : List (Option Value)}
    (h : Session.Runs ⟨layered, { depth := 9 }⟩
      (l.bindItem ["T"] [.prim .i32] [] [] [.prim .unit] none (.prim .unit)) s events
      (resolution, early) s') : resolution.args = [.prim .i32] := by
  obtain ⟨inferring, ⟨binder, values⟩, s₁, rest, hinfer, hrest, -⟩ := h.of_bind
  obtain ⟨-, hbinder, -⟩ := hinfer.of_pure
  obtain ⟨-, hresolution, -⟩ := hrest.of_pure
  obtain ⟨rfl, rfl⟩ := Prod.mk.inj hbinder
  obtain ⟨rfl, rfl⟩ := Prod.mk.inj hresolution
  rfl

theorem generatedFrom_of_resolves_layered :
    layered.Identifies (.cls firstCell) ∧ layered.Identifies (.func firstTag) ∧
      layered.class? "geo::Cell" = some firstCell ∧
      layered.function? "geo::tag" = some firstTag ∧
      ∃ output, compile layered { depth := 9 } = .ok output ∧
        GeneratedFrom layered { depth := 9 } output (.func firstTag) [.prim .i32] ∧
        GeneratedFrom layered { depth := 9 } output (.cls firstCell) [] ∧
        output.assembly.DefinesAs "%class.Cell" (.anon [.ptr, .i32]) ∧
        ∃ object s during place s', Performs layered { depth := 9 } output
          (Gen.classField? object "Cell" [] "v") s during (some place) s' ∧
          ∃ r addr index rest,
            addresses during = .member r (.named "%class.Cell") addr index :: rest := by
  obtain ⟨output, hcompile, -⟩ := exists_of_compile (P := fun _ => True)
    (by decide +kernel : (compile layered { depth := 9 }).toOption.any _)
  obtain ⟨hcell, htag⟩ := identifies_layered
  refine ⟨hcell, htag, rfl, rfl, output, hcompile, ?_⟩
  have hdepth : ({ depth := 9 } : Settings).depth = 8 + 1 := rfl
  have hevals := fun e he => performs_homeEval hcompile
    (f := layered.home.functions.items.headD default) List.mem_cons_self rfl rfl rfl rfl (e := e) he
    hdepth
  refine ⟨?_, ?_⟩
  · obtain ⟨t, own, value, t', hshape⟩ := hevals _ (List.mem_cons_of_mem _ List.mem_cons_self)
    have hpath : Performs layered { depth := 9 } output
        ((Lowering.ofDepth .empty (.prim .unit) 8).callPath ⟨["geo", "tag"], [.prim .i32]⟩ [] {}
          none) t own value t' := hshape
    obtain ⟨t, own, value, t', hcall⟩ := hpath.callGeneric rfl (by decide) (by decide)
    obtain ⟨first, resolution, early, mid, hbind, hgenerated⟩ :=
      (generatedFrom_of_resolves htag).2.1 _ _ _ _ _ _ _ _ _ firstTag rfl rfl rfl hcall
    have hargs := args_of_bindItem_layered hbind
    rw [hargs] at hgenerated
    exact (hgenerated (by decide)).2
  · obtain ⟨t, own, value, t', hshape⟩ := hevals _ List.mem_cons_self
    have hrecord : Performs layered { depth := 9 } output
        ((Lowering.ofDepth .empty (.prim .unit) 8).record ⟨["geo", "Cell"], []⟩
          [.mk "v" (.lit {} (.int 1)) .dummy] none .dummy none) t own value t' := hshape
    obtain ⟨t₁, binding, args, t₁', hargs, object, t₂, looking, found, t₂', hfield⟩ :=
      hrecord.classField_of_record rfl rfl
    obtain ⟨-, rfl, -⟩ := runs_pure_iff.1 hargs.runs
    obtain ⟨place, rfl⟩ := Option.ne_none_iff_exists'.1
      (mt (Gen.classField?_eq_none_iff hfield.runs).1 (by decide))
    obtain ⟨hgenerated, r, block, addr, index, rest, args', haddresses, heq, hblock, hdefines⟩ :=
      (generatedFrom_of_resolves hcell).2.2 _ _ _ _ _ _ _ _ _ denotes_layered rfl
        (.ofClass firstCell object) hfield
    cases hblock
    have hname : firstCell.block args' = "%class.Cell" := congrArg ("%class." ++ ·) heq
    rw [hname] at haddresses hdefines
    exact ⟨hgenerated, hdefines, object, t₂, looking, place, t₂', hfield, r, addr, index, rest,
      haddresses⟩

/-- A struct of an import. -/
def hiddenPoint : StructDef where
  name := "Point"
  fields := [⟨"y", .prim .f64, none⟩]

/-- A module that defines a struct of the same name as an import, and a function that accesses a
field of that of the import, and a field of a class, under the qualifier. -/
def shadowing : Program where
  home := {
    structs := .ofList [{ name := "Point", fields := [⟨"x", .prim .i32, none⟩] }]
    functions := .ofList [
      { name := "f"
        params := [⟨"p", .ofName "geo::Point" []⟩, ⟨"c", .ofName "geo::Cell" []⟩]
        body := some (.mk [.eval (.field {} (.ident {} "p") "y"),
          .eval (.field {} (.ident {} "c") "v")] none) }] }
  imports := [
    { path := "geo", structs := .ofList [hiddenPoint], classes := .ofList [firstCell] }]

/-- Where the module at hand defines a struct of the same name, a qualified name finds the struct of
the import, and its field is read as that struct declares it, but the type that is stepped into is
defined from the struct of the module. A field of a class is reached through a type that is named
after the qualified name, which is not defined at all. -/
theorem misses_of_shadowing :
    shadowing.Denotes (.ofName "geo::Point" []) "geo::Point" [] (.struct hiddenPoint) ∧
      shadowing.Denotes (.ofName "geo::Cell" []) "geo::Cell" [] (.cls firstCell) ∧
      (Definition.struct hiddenPoint).typeDef? shadowing [] =
        some ⟨"%struct.Point", .anon [.double]⟩ ∧
      ∃ output, compile shadowing { depth := 9 } = .ok output ∧
        [.instr (.member 2 (.named "%struct.Point") (.temp 0) 0),
            .instr (.load 3 .double (.temp 2))] <:+:
          output.assembly.functions.toList.flatMap (fun f => f.lines.toList) ∧
        output.assembly.DefinesAs "%struct.Point" (.anon [.i32]) ∧
        [.instr (.member 5 (.named "%class.geo::Cell") (.temp 4) 1),
            .instr (.load 6 .i32 (.temp 5))] <:+:
          output.assembly.functions.toList.flatMap (fun f => f.lines.toList) ∧
        "%class.geo::Cell" ∉ output.assembly.types.toList.map IR.TypeDef.name :=
  ⟨⟨rfl, rfl, fun _ => by decide, by decide, by decide⟩,
    ⟨rfl, rfl, fun _ => by decide, by decide, by decide⟩, rfl,
    exists_of_compile (by decide +kernel)⟩

end Compile

end Monomorph
