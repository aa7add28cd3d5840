import Monomorph.Proofs.Compile.Denotation
import Monomorph.Proofs.Compile.TypeBodies

/-!
# The addresses of fields

The address of a field is found by steps into the members of named types. The steps are chosen from
the definitions when the field is used, while the bodies of the types are written when their
instances are generated. Where the names of blocks tell types apart, the steps fit the bodies: each
goes to a member that the type has, an inherited field is reached through the blocks of the bases,
and the last step arrives at a member that is represented like the field.

## Main results

* `Compile.Performs.classField`, `Compile.reaches_of_looksUp`.
-/

namespace Monomorph

open List Script Monomorph.Symbol

variable {args : List Ty} {steps : List (String × Nat)} {name field : String} {owner d : ClassDef}
  {object : IR.Operand} {between : List ClassDef} {place : Place} {t : Ty} {index : Nat}

/-! ### Steps into members -/

namespace IR

/-- Steps that lead from a type to another through the bodies that an assembly defines. -/
inductive Assembly.Reaches (a : Assembly) : Ty → List (String × Nat) → Ty → Prop
  | refl (t : Ty) : Reaches a t [] t
  | step {name members index next t steps} (hbody : a.DefinesAs name (.anon members))
      (hnext : members[index]? = some next) (h : Reaches a next steps t) :
      Reaches a (.named name) ((name, index) :: steps) t

theorem Assembly.Reaches.trans {a : Assembly} {u v : Ty} {steps' : List (String × Nat)}
    (h : a.Reaches t steps u) (h' : a.Reaches u steps' v) : a.Reaches t (steps ++ steps') v := by
  induction h with
  | refl => exact h'
  | step hbody hnext _ ih => exact .step hbody hnext (ih h')

end IR

/-! ### Paths to fields -/

/-- The steps to a field of an instance, and its type. A field of a base is reached through the
blocks of the bases up to the nearest that declares it, and has the type that is declared there. -/
inductive Program.FieldPath (p : Program) (name : String) (args : List Ty) (field : String) :
    List (String × Nat) → Ty → Prop
  | struct {d index decl} (hd : p.struct? name = some d)
      (hindex : d.fieldIndex? field = some index) (hdecl : d.fields[index]? = some decl) :
      FieldPath p name args field [("%struct." ++ ofInstance d.name args, index)]
        (decl.ty.subst (.ofArgs d.generics args))
  | own {d index decl} (hd : p.class? name = some d)
      (hindex : d.fieldIndex? field = some index) (hdecl : d.fields[index]? = some decl) :
      FieldPath p name args field [(d.block args, index + 1)]
        (decl.ty.subst (.ofArgs d.generics args))
  | inherited {d owner between above index decl}
      (hchain : p.classChain name = d :: between ++ owner :: above)
      (hbelow : ∀ c ∈ d :: between, c.fieldIndex? field = none)
      (hindex : owner.fieldIndex? field = some index) (hdecl : owner.fields[index]? = some decl) :
      FieldPath p name args field
        ((d.block args, 0) :: between.map (fun c => (c.block [], 0)) ++
          [(owner.block [], index + 1)]) decl.ty

/-! ### Chains of classes -/

namespace Program

variable {p : Program} (hp : p.NamesBlocks)

namespace NamesBlocks

include hp

/-- A chain starts with the class of its name, and a class is followed by its base. -/
theorem isChain_classChain (name : String) :
    (p.classChain name).IsChain (fun d c => d.base = some c.name) ∧
      ∀ d ∈ (p.classChain name).head?, p.class? name = some d := by
  have hwalk := p.walk_classChain name
  refine ⟨hwalk.linked.imp_of_mem_imp fun d c hd _ hc => ?_, fun d hd => hwalk.eq_of_mem_head? hd⟩
  obtain ⟨base, hbase, hfound⟩ := Option.bind_eq_some_iff.1 hc
  have hbare := isBare_of_isClean ((hp.clean.classChain hd).base base hbase)
  rw [hbase, name_of_class? hbare hfound]

/-- The ancestors in a chain, up to one of them, are found under their own names. -/
theorem class?_of_classChain {above : List ClassDef}
    (hchain : p.classChain name = d :: between ++ owner :: above) :
    ∀ c ∈ between ++ [owner], p.class? c.name = some c := by
  intro c hc
  have hmem : c ∈ p.classChain name := by
    rw [hchain]
    grind
  obtain ⟨m, hm, hc⟩ := mem_of_mem_classChain hmem
  exact lookup_of_mem (nodup_append.1 hp.nodup).2.1
    (isBare_of_isClean ((hp.clean m hm).classes c hc).name) hm hc

variable (hclosed : p.isOpenList args = false)

include hclosed

/-- A closed type that is called like a type of the program denotes it. -/
theorem denotes (ht : t.declared? = some (name, args)) (hname : name ∈ p.typeNames) {d : Definition}
    (hd : p.typeNamed? name = some d) :
    p.Denotes t name args d where
  declared := ht
  found := hd
  unbuilt _ := (hp.isClean hname).ofName?_eq_none
  unwrapped := by
    rw [Layout.isWrapped, hp.unwrapped _ hname]
    rfl
  closed := hclosed

theorem denotes_struct (ht : t.declared? = some (name, args)) (hname : IsClean name) {d : StructDef}
    (hd : p.struct? name = some d) : p.Denotes t name args (.struct d) := by
  obtain ⟨-, hmem⟩ := name_of_lookup (isBare_of_isClean hname) hd
  exact hp.denotes hclosed ht (mem_append_left _ (mem_append_left _ hmem))
    (by simp [typeNamed?, definition?, hd])

theorem denotes_enum {d : EnumDef} (hd : p.enum? d.name = some d) :
    p.Denotes (.ofName d.name args) d.name args (.enum d) := by
  have hname : d.name ∈ p.typeNames :=
    mem_append_left _ (mem_append_right _ (mem_names_of_lookup hd))
  exact hp.denotes hclosed rfl hname
    (by simp [typeNamed?, definition?, hp.struct?_eq_none hname hd, hd])

theorem denotes_class (hd : p.class? d.name = some d) :
    p.Denotes (.ofName d.name args) d.name args (.cls d) := by
  have hmem : d.name ∈ p.names Module.classes := mem_names_of_lookup hd
  have hname : d.name ∈ p.typeNames := mem_append_right _ hmem
  have hbare := isBare_of_isClean (hp.isClean hname)
  obtain ⟨hstruct, henum⟩ := notMem_of_mem_classes hp.nodup hmem
  have hstruct : p.struct? d.name = none := lookup_eq_none hbare hstruct
  have henum : p.enum? d.name = none := lookup_eq_none hbare henum
  exact hp.denotes hclosed rfl hname (by simp [typeNamed?, definition?, hstruct, henum, hd])

end NamesBlocks

end Program

/-! ### Looking for fields -/

namespace Gen

/-- The scripts that look for a field of a type, at an address or in an object. -/
inductive LooksUp (t : Ty) (name : String) (args : List Ty) (field : String) :
    Gen (Option Place) → Prop
  | direct (cursor : Cursor) : LooksUp t name args field (directField? cursor t field)
  | ofClass (object : IR.Operand) : LooksUp t name args field (classField? object name args field)

end Gen

/-! ### Types and blocks -/

section Members

variable {p : Program} {a : IR.Assembly}

/-- Closed nominal types have closed arguments. -/
theorem Program.isOpenList_of_declared? (ht : t.declared? = some (name, args))
    (hclosed : p.isOpen t = false) : p.isOpenList args = false := by
  obtain ⟨qualifier, rfl⟩ | ⟨rfl, rfl⟩ := Ty.eq_of_declared? ht
  · cases args with
    | nil => rfl
    | cons arg args => exact hclosed
  · rfl

/-- A field has the representation of its type at its index. -/
theorem Program.getElem?_irs {ts : List Ty} (h : ts[index]? = some t) :
    (p.irs ts)[index]? = some (p.ir t) := by
  rw [p.irs_eq_map, getElem?_map, h]
  rfl

/-- The type of a field is the declared one, with the arguments put in. -/
theorem FieldDef.exists_of_typesUnder {generics : List String} {fields : List FieldDef}
    (h : (typesUnder generics fields args)[index]? = some t) :
    ∃ decl, fields[index]? = some decl ∧ t = decl.ty.subst (.ofArgs generics args) := by
  rw [typesUnder, getElem?_map] at h
  obtain ⟨decl, hdecl, rfl⟩ := Option.map_eq_some_iff.1 h
  exact ⟨decl, hdecl, rfl⟩

/-- The block of an ancestor is reached through the first members of the blocks of the bases
between. -/
theorem ClassDef.reaches_bases
    (hlinks : (d :: (between ++ [owner])).IsChain fun d c => d.base = some c.name)
    {rest : List IR.Ty} (hblock : a.DefinesAs (d.block args) (.anon (d.firstIr :: rest)))
    (hblocks : ∀ c ∈ between, ∃ rest, a.DefinesAs (c.block []) (.anon (c.firstIr :: rest))) :
    a.Reaches (.named (d.block args)) ((d.block args, 0) :: between.map fun c => (c.block [], 0))
      (.named (owner.block [])) := by
  induction between generalizing d args rest with
  | nil =>
    obtain ⟨hbase, -⟩ := isChain_cons_cons.1 hlinks
    refine .step hblock ?_ (.refl _)
    rw [ClassDef.firstIr, hbase]
    rfl
  | cons c between ih =>
    obtain ⟨hbase, hlinks⟩ := isChain_cons_cons.1 hlinks
    obtain ⟨⟨rest', hc⟩, hblocks⟩ := forall_mem_cons.1 hblocks
    refine .step hblock ?_ (ih hlinks hc hblocks)
    rw [ClassDef.firstIr, hbase]
    rfl

end Members

/-! ### Fields in results -/

namespace Compile

variable {program : Program} {settings : Settings} {output : Output} {s s' : Build}
  {during : List (Script.Event Step.Answer)}

/-- The steps to a field of a class fit the bodies of the blocks. -/
theorem Performs.classField (hp : program.NamesBlocks) (hname : IsClean name)
    (hclosed : program.isOpenList args = false)
    (h : Performs program settings output (Gen.classField? object name args field) s during
      (some place) s') :
    ∃ block steps, IR.Walk object steps (addresses during) place.addr ∧
      program.FieldPath name args field steps place.ty ∧
      output.assembly.Reaches (.named block) steps (program.ir place.ty) := by
  obtain ⟨⟨⟩, -⟩ | ⟨_, below, owner, index, ⟨⟩, huntil, ht, hwalk, hown, hrepresented⟩ :=
    Gen.runs_classField? h.runs
  obtain ⟨⟨above, hchain⟩, hbelow, hindex⟩ := Gen.untilField?_eq_some huntil
  obtain ⟨decl, hdecl, hty⟩ := FieldDef.exists_of_typesUnder ht
  have hhead := (hp.isChain_classChain name).2
  have hdefines : ∀ {c : ClassDef} {args}, program.class? c.name = some c →
      program.isOpenList args = false →
      Gen.Represented ⟨program, settings⟩ during (.ofName c.name args) →
      output.assembly.DefinesAs (c.block args)
        (.anon (c.firstIr :: program.irs (c.fieldTypes args))) := fun hc hclosed hrepresented => by
    have hmem := hrepresented.require (hp.denotes_class hclosed hc)
    exact h.definesAs_class hp hc hmem
  cases below with
  | nil =>
    have hd : program.class? name = some owner := hhead owner (by rw [hchain]; rfl)
    obtain rfl := Program.name_of_class? (isBare_of_isClean hname) hd
    refine ⟨owner.block args, _, hwalk, hty ▸ .own hd hindex hdecl,
      .step (hdefines hd hclosed hown) ?_ (.refl _)⟩
    exact Program.getElem?_irs ht
  | cons d between =>
    have hd : program.class? name = some d := hhead d (by rw [hchain]; rfl)
    obtain rfl := Program.name_of_class? (isBare_of_isClean hname) hd
    have hblocks : ∀ c ∈ between ++ [owner], output.assembly.DefinesAs (c.block [])
        (.anon (c.firstIr :: program.irs (c.fieldTypes []))) := fun c hc =>
      hdefines (hp.class?_of_classChain hchain c hc) rfl (hrepresented c hc)
    rw [cons_append, drop_one, tail_cons, Gen.blockSteps_append] at hwalk
    rw [isEmpty_cons, if_neg Bool.false_ne_true] at ht hty
    rw [Ty.subst_ofArgs_nil] at hty
    have hlinks := (hp.isChain_classChain d.name).1
    rw [hchain, append_cons, cons_append] at hlinks
    refine ⟨d.block args, _, hwalk, hty ▸ .inherited hchain hbelow hindex hdecl, ?_⟩
    refine .trans
      (ClassDef.reaches_bases ?_ (hdefines hd hclosed hown) fun c hc => ⟨_, hblocks c ?_⟩)
      (.step (hblocks owner ?_) (Program.getElem?_irs ht) (.refl _))
    · exact hlinks.left_of_append
    · exact mem_append_left _ hc
    · exact mem_append_right _ mem_cons_self

/-- A class literal looks for the field of its first initialiser. -/
theorem Performs.classField_of_record {l : Lowering} {path : Path} {init : FieldInit}
    {inits : List FieldInit} {base : Option Expr} {span : Span} {expected : Option Ty}
    {value : Value}
    (h : Performs program settings output (l.record path (init :: inits) base span expected) s
      during value s') (hstruct : program.struct? path.joined = none)
    (hd : program.class? path.joined = some d) :
    ∃ t own args t', Performs program settings output
      (l.recordArgs d.name d.generics d.fields path (init :: inits) base span expected) t own args
        t' ∧
      ∃ object t₁ own₁ found t₁', Performs program settings output
        (Gen.classField? object d.name args init.name) t₁ own₁ found t₁' := by
  obtain ⟨own, hrecord⟩ := h.program_bind
  simp only [hstruct, hd] at hrecord
  obtain ⟨binding, args, t', rest, hargs, hliteral, -⟩ := hrecord.bind
  obtain ⟨_, object, _, rest₁, -, hfill, -⟩ := hliteral.bind
  obtain ⟨_, _, _, rest₂, hfill, -, -⟩ := hfill.bind
  obtain ⟨looking, found, t₁, rest₃, hfield, -, -⟩ := hfill.bind
  exact ⟨s, binding, args, t', hargs, object, _, looking, found, t₁, hfield⟩

/-- The addresses of fields agree with the bodies of types. Where a field of a closed type that is
no union is found, the code steps from the object through named types to the place of the field.
Each step goes to a member that the body of its type in the result has, and the next step starts at
the type of that member. The steps are those that lead to the nearest declaration of the field, and
they arrive at the representation of the type that it declares, which is the type of the place. -/
theorem reaches_of_looksUp (hp : program.NamesBlocks) {t : Ty} {name : String} {args : List Ty}
    (ht : t.declared? = some (name, args)) (hclean : t.Over .clean)
    (hclosed : program.isOpen t = false)
    (hunion : ∀ d, program.struct? name = some d → d.isUnion = false)
    (hblock : ∀ d, program.struct? name = some d → d.name ≠ Wrapper.blockName) {field : String}
    {m : Gen (Option Place)} (hm : Gen.LooksUp t name args field m) {place : Place}
    (h : Performs program settings output m s during (some place) s') :
    ∃ object block steps, IR.Walk object steps (addresses during) place.addr ∧
      program.FieldPath name args field steps place.ty ∧
      output.assembly.Reaches (.named block) steps (program.ir place.ty) := by
  have hname : IsClean name := (hclean.declared? ht).1
  have hargs := Program.isOpenList_of_declared? ht hclosed
  cases hm with
  | ofClass object => exact ⟨object, h.classField hp hname hargs⟩
  | direct cursor =>
    cases hstruct : program.struct? name with
    | some d =>
      obtain ⟨hmem, index, hindex, hfield, hwalk⟩ := Gen.runs_directField?_struct
        (hp.denotes_struct hargs ht hname hstruct) (hunion d hstruct) h.runs
      have hbody := h.definesAs_struct hp hstruct (hunion d hstruct) (hblock d hstruct) hmem
      obtain ⟨decl, hdecl, hty⟩ := FieldDef.exists_of_typesUnder hfield
      refine ⟨cursor.operand, "%struct." ++ ofInstance d.name args, _, hwalk,
        hty ▸ .struct hstruct hindex hdecl, ?_⟩
      exact .step hbody (Program.getElem?_irs hfield) (.refl _)
    | none =>
      obtain ⟨object, before, t, own, hbefore, hown, rfl, haddresses⟩ :=
        Gen.runs_directField?_class ht hstruct h.runs
      have hown : Performs program settings output (Gen.classField? object name args field) t own
          (some place) s' := ⟨hown, h.occurs.right_map hbefore⟩
      rw [haddresses]
      exact ⟨object, hown.classField hp hname hargs⟩

/-- A class with a base that has a base, and a literal that sets a field of the latter. -/
def ladder : Program where
  home := {
    classes := .ofList [
      { name := "Root"
        fields := [⟨"x", .prim .i64, some (.lit {} (.int 2))⟩, ⟨"y", .prim .i32, none⟩] },
      { name := "Mid", base := some "Root"
        fields := [⟨"v", .prim .bool, some (.lit {} (.bool true))⟩] },
      { name := "Leaf", generics := ["T"], base := some "Mid"
        fields := [⟨"z", .ofName "T" [], some (.lit {} (.int 3))⟩] }]
    functions := .ofList [
      { name := "f"
        body := some (.mk [.eval (.record {} ⟨["Leaf"], [.prim .i32]⟩
          [.mk "y" (.lit {} (.int 1)) .dummy] none)] none) }] }

theorem namesBlocks_ladder : ladder.NamesBlocks where
  clean := by decide +kernel
  nodup := by decide
  unwrapped := by decide

/-- The field of the root is reached through both bases. -/
theorem fieldPath_ladder (h : ladder.FieldPath "Leaf" [.prim .i32] "y" steps t) :
    steps = [("%class.Leaf__I32", 0), ("%class.Mid", 0), ("%class.Root", 2)] ∧ t = .prim .i32 := by
  cases h with
  | struct hd => cases hd
  | own hd hindex =>
    cases hd
    cases hindex
  | @inherited d owner between above index decl hchain hbelow hindex hdecl =>
    cases between with
    | nil =>
      cases hchain
      cases hindex
    | cons c between =>
      cases between with
      | nil =>
        cases hchain
        cases hindex
        cases hdecl
        exact ⟨rfl, rfl⟩
      | cons c' between =>
        have hlength : 3 = _ := congrArg List.length hchain
        simp only [length_append, length_cons] at hlength
        omega

theorem reaches_of_looksUp_ladder :
    ladder.NamesBlocks ∧ ∃ output, compile ladder { depth := 9 } = .ok output ∧
      ∃ object s during place s', Performs ladder { depth := 9 } output
        (Gen.classField? object "Leaf" [.prim .i32] "y") s during (some place) s' ∧
      ∃ start, IR.Walk start [("%class.Leaf__I32", 0), ("%class.Mid", 0), ("%class.Root", 2)]
          (addresses during) place.addr ∧ place.ty = .prim .i32 ∧
        output.assembly.Reaches (.named "%class.Leaf__I32")
          [("%class.Leaf__I32", 0), ("%class.Mid", 0), ("%class.Root", 2)] .i32 := by
  obtain ⟨output, hcompile, -⟩ := exists_of_compile (P := fun _ => True)
    (by decide +kernel : (compile ladder { depth := 9 }).toOption.any _)
  refine ⟨namesBlocks_ladder, output, hcompile, ?_⟩
  have hdepth : ({ depth := 9 } : Settings).depth = 8 + 1 := rfl
  obtain ⟨t, own, value, t', hshape⟩ := performs_homeEval hcompile
    (f := ladder.home.functions.items.headD default) List.mem_cons_self rfl rfl rfl rfl
    List.mem_cons_self hdepth
  have hrecord : Performs ladder { depth := 9 } output
      ((Lowering.ofDepth .empty (.prim .unit) 8).record ⟨["Leaf"], [.prim .i32]⟩
        [.mk "y" (.lit {} (.int 1)) .dummy] none .dummy none) t own value t' := hshape
  obtain ⟨t₁, binding, args, t₁', hargs, object, t₂, looking, found, t₂', hfield⟩ :=
    hrecord.classField_of_record rfl rfl
  have hargs : args = [.prim .i32] := by
    obtain ⟨_, binder, _, _, hbinder, h₁, -⟩ := runs_bind_iff.1 hargs.runs
    obtain ⟨_, _, _, _, hinfer, h₂, -⟩ := runs_bind_iff.1 hbinder
    obtain ⟨_, _, _, _, hsame, hinfer₁, -⟩ := runs_bind_iff.1 hinfer
    obtain ⟨-, rfl, -⟩ := runs_pure_iff.1 hsame
    obtain ⟨-, rfl, -⟩ := runs_pure_iff.1 hinfer₁
    obtain ⟨_, _, _, _, hbase, hown, -⟩ := runs_bind_iff.1 h₂
    obtain ⟨-, rfl, -⟩ := runs_pure_iff.1 hbase
    obtain ⟨-, rfl, -⟩ := runs_pure_iff.1 hown
    obtain ⟨_, _, _, _, -, h₃, -⟩ := runs_bind_iff.1 h₁
    obtain ⟨-, rfl, -⟩ := runs_pure_iff.1 h₃
    rfl
  subst hargs
  obtain ⟨place, rfl⟩ := Option.ne_none_iff_exists'.1
    (mt (Gen.classField?_eq_none_iff hfield.runs).1 (by decide))
  obtain ⟨start, block, steps, hwalk, hpath, hreaches⟩ := reaches_of_looksUp namesBlocks_ladder
    (t := .ofName "Leaf" [.prim .i32]) rfl ⟨(by decide : IsClean "Leaf"), trivial, trivial⟩
    (by decide) nofun nofun (.ofClass object) hfield
  obtain ⟨rfl, hty⟩ := fieldPath_ladder hpath
  rw [hty] at hreaches
  obtain rfl : block = "%class.Leaf__I32" := by
    cases hreaches
    rfl
  exact ⟨object, t₂, looking, place, t₂', hfield, start, hwalk, hty, hreaches⟩

/-- A struct that is called like the block behind a reference-counted wrapper, and accesses to a
field through such a wrapper and in an instance of the struct. -/
def innerBlock : Program where
  home := {
    structs := .ofList [
      { name := "Pair", fields := [⟨"x", .prim .i32, none⟩] },
      { name := Wrapper.blockName, generics := ["T"], fields := [⟨"x", .ofName "T" [], none⟩] }]
    functions := .ofList [
      { name := "f"
        params := [⟨"a", .ofName "Arc" [.ofName "Pair" []]⟩,
          ⟨"q", .ofName Wrapper.blockName [.ofName "Pair" []]⟩]
        body := some (.mk [.eval (.field {} (.ident {} "a") "x"),
          .eval (.field {} (.ident {} "q") "x")] none) }] }

theorem namesBlocks_innerBlock : innerBlock.NamesBlocks where
  clean := by decide +kernel
  nodup := by decide
  unwrapped := by decide

/-- Where a struct is called like the block behind a reference-counted wrapper, the block may be
written first. The address of the first field of the struct is then that of a counter. -/
theorem misses_of_innerBlock :
    innerBlock.NamesBlocks ∧
      innerBlock.FieldPath Wrapper.blockName [.ofName "Pair" []] "x"
        [("%struct.ArcInner__Pair", 0)] (.ofName "Pair" []) ∧
      ∃ output, compile innerBlock { depth := 9 } = .ok output ∧
        [.instr (.member 7 (.named "%struct.ArcInner__Pair") (.temp 1) 0),
            .instr (.load 8 (.named "%struct.Pair") (.temp 7))] <:+:
          output.assembly.functions.toList.flatMap (fun f => f.lines.toList) ∧
        output.assembly.DefinesAs "%struct.ArcInner__Pair"
          (.anon [.i64, .i64, .named "%struct.Pair"]) ∧
        ¬ output.assembly.Reaches (.named "%struct.ArcInner__Pair") [("%struct.ArcInner__Pair", 0)]
          (innerBlock.ir (.ofName "Pair" [])) := by
  refine ⟨namesBlocks_innerBlock, ?_, ?_⟩
  · exact @Program.FieldPath.struct innerBlock Wrapper.blockName [.ofName "Pair" []] "x"
      (innerBlock.home.structs.items.getLastD default) 0 ⟨"x", .ofName "T" [], none⟩ rfl rfl rfl
  · refine exists_of_compile_and (fun output hcompile _ => ?_) (by decide +kernel)
    have hbody := of_compile_eq_ok (P := fun output => output.assembly.DefinesAs
      "%struct.ArcInner__Pair" (.anon [.i64, .i64, .named "%struct.Pair"])) hcompile
      (by decide +kernel)
    refine ⟨hbody, fun hreaches => ?_⟩
    cases hreaches with
    | step hother hnext hrest =>
      rw [IR.Assembly.DefinesAs, hbody] at hother
      cases hother
      cases hnext
      cases hrest

end Compile

end Monomorph
