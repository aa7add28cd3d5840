import Monomorph.Proofs.Compile.Passages
import Monomorph.Proofs.Compile.TypeDefinitions
import Monomorph.Proofs.Layout.Agreement

/-!
# The bodies of requested types

A type has the first body that is written for its name. Where all names are clean, no two types of
the program have one name and none is called like a wrapper, all bodies that are written for the
name of a class instance are the one that the definition prescribes. The same holds for a struct,
unless it is called like the block behind a reference-counted wrapper, which is written under that
name. So a requested instance has that body in the result, whatever else was requested.
-/

namespace Monomorph

open List Script Monomorph.Symbol

/-- A type is defined once, with the given body. -/
def IR.Assembly.DefinesAs (a : IR.Assembly) (name : String) (body : IR.Ty) : Prop :=
  a.types.toList.filter (fun d => d.name = name) = [⟨name, body⟩]
deriving Decidable

/-- A program whose types are told apart by the names of their blocks: all names are clean, no two
types have one name, and none is called like a wrapper. -/
structure Program.NamesBlocks (p : Program) : Prop where
  clean : p.Over .clean
  nodup : p.typeNames.Nodup
  unwrapped : ∀ name ∈ p.typeNames, Wrapper.ofName? name = none

/-! ### The bodies that may be written -/

/-- The names of wrappers are not blurred in symbols. -/
theorem Wrapper.separable_of_ofName? {name : String} {wrapper : Wrapper}
    (h : ofName? name = some wrapper) : Separable name.toList := by
  unfold ofName? at h
  split at h
  all_goals first | decide | cases h

namespace Facts.Writes

variable {session : Session} {F : Facts session} {base : String} {args : List Ty} {body : IR.Ty}

/-- What is written for the name of a struct is a wrapper or a block behind one, unless it is an
instance of a struct or an enum that has the symbol. -/
theorem struct_cases (hbase : Separable base.toList)
    (h : F.Writes ("%struct." ++ ofInstance base args) body) :
    (Wrapper.ofName? base).isSome ∨ base = Wrapper.blockName ∨
      (∃ item d, F.Admits item ∧ item.kind = .struct ∧ item.symbol = ofInstance base args ∧
        session.program.struct? item.base = some d ∧
        body = .anon (session.program.irs (d.fieldTypes item.args))) ∨
      ∃ item d words, F.Admits item ∧ item.kind = .enum ∧ item.symbol = ofInstance base args ∧
        session.program.enum? item.base = some d ∧
        F.focus.Takes (.payloadWords d item.args) words ∧
        body = .anon (if words = 0 then [.i32] else [.i32, .array words .i64]) := by
  generalize hwritten : "%struct." ++ ofInstance base args = written at h
  cases h with
  | dyn => cases (@Layout.Sigil.append_inj .struct .dyn _ _ hwritten).1
  | union => cases (@Layout.Sigil.append_inj .struct .union _ _ hwritten).1
  | cls => cases (@Layout.Sigil.append_inj .struct .cls _ _ hwritten).1
  | boxed hwrapper =>
    have hsymbol := (String.append_right_inj _).1 hwritten
    have hname := base_eq_of_ofInstance_eq hbase (Wrapper.separable_of_ofName? hwrapper) hsymbol
    exact .inl (Option.isSome_of_eq_some (hname ▸ hwrapper))
  | counted =>
    rw [String.append_assoc, String.append_assoc] at hwritten
    have hsymbol := (String.append_right_inj _).1 hwritten
    have hhead := head?_splitWords_ofInstance hbase args
    rw [hsymbol, ← String.append_assoc, String.toList_append, String.toList_append,
      append_assoc, splitWords_append (by decide), head?_cons] at hhead
    exact .inr (.inl (String.toList_inj.1 (Option.some.inj hhead)).symm)
  | struct hitem hkind hd =>
    have hsymbol := (String.append_right_inj _).1 hwritten
    exact .inr (.inr (.inl ⟨_, _, hitem, hkind, hsymbol.symm, hd, rfl⟩))
  | enum hitem hkind hd hwords =>
    have hsymbol := (String.append_right_inj _).1 hwritten
    exact .inr (.inr (.inr ⟨_, _, _, hitem, hkind, hsymbol.symm, hd, hwords, rfl⟩))

/-- What is written for the name of a class is an instance of a class that has the symbol. -/
theorem class_cases (h : F.Writes ("%class." ++ ofInstance base args) body) :
    ∃ item d, F.Admits item ∧ item.kind = .cls ∧ item.symbol = ofInstance base args ∧
      session.program.class? item.base = some d ∧
      body = .anon (d.firstIr :: session.program.irs (d.fieldTypes item.args)) := by
  generalize hwritten : "%class." ++ ofInstance base args = written at h
  cases h with
  | dyn => cases (@Layout.Sigil.append_inj .cls .dyn _ _ hwritten).1
  | union => cases (@Layout.Sigil.append_inj .cls .union _ _ hwritten).1
  | boxed | struct | enum => cases (@Layout.Sigil.append_inj .cls .struct _ _ hwritten).1
  | counted =>
    rw [String.append_assoc, String.append_assoc] at hwritten
    cases (@Layout.Sigil.append_inj .cls .struct _ _ hwritten).1
  | cls hitem hkind hd =>
    have hsymbol := (String.append_right_inj _).1 hwritten
    exact ⟨_, _, hitem, hkind, hsymbol.symm, hd, rfl⟩

end Facts.Writes

namespace Program

variable {p : Program} {item : WorkItem}

/-- An instance of a type is that of the name and the arguments that its symbol shows. -/
theorem Requests.of_type (h : p.Requests item) (hcode : item.kind.isCode = false) :
    item.base ∈ p.typeNames ∧ item.symbol = ofInstance item.base item.args := by
  cases h with
  | struct hd args =>
    exact ⟨mem_append_left _ (mem_append_left _ (mem_names_of_lookup hd)), rfl⟩
  | enum hd args =>
    exact ⟨mem_append_left _ (mem_append_right _ (mem_names_of_lookup hd)), rfl⟩
  | cls hd args => exact ⟨mem_append_right _ (mem_names_of_lookup hd), rfl⟩
  | _ => cases hcode

namespace NamesBlocks

variable {settings : Settings} {focus : Focus ⟨p, settings⟩} [focus.IsLoose] {name : String}
  {args : List Ty} {body : IR.Ty} {d : StructDef} (hp : p.NamesBlocks)

include hp

theorem isClean (hname : name ∈ p.typeNames) : IsClean name := by
  rw [typeNames, mem_append, mem_append] at hname
  obtain (hname | hname) | hname := hname
  all_goals
    obtain ⟨m, hm, hname⟩ := mem_flatMap.1 hname
    obtain ⟨d, hd, rfl⟩ := mem_map.1 hname
  · exact ((hp.clean m hm).structs d hd).name
  · exact ((hp.clean m hm).enums d hd).name
  · exact ((hp.clean m hm).classes d hd).name

/-- A struct is found under its own name. -/
theorem struct? (hd : p.struct? name = some d) : p.struct? d.name = some d :=
  lookup_name (nodup_append.1 (nodup_append.1 hp.nodup).1).1
    (isBare_of_isClean (Over.struct? hp.clean hd).name) hd

/-- A class is found under its own name. -/
theorem class? {d : ClassDef} (hd : p.class? name = some d) : p.class? d.name = some d :=
  lookup_name (nodup_append.1 hp.nodup).2.1 (isBare_of_isClean (Over.class? hp.clean hd).name) hd

/-- An instance that has the symbol of a type has its name, and its arguments up to qualifiers. -/
theorem key_eq (hname : name ∈ p.typeNames) (hargs : ∀ t ∈ args, t.Over .clean)
    (hitem : (Naming.clean focus hp.clean).Admits item) (hcode : item.kind.isCode = false)
    (heq : ofInstance name args = item.symbol) :
    item.base = name ∧ Ty.unqualifiedList item.args = Ty.unqualifiedList args := by
  obtain ⟨hrequests, hclean, -⟩ := hitem (.initial settings)
  obtain ⟨hbase, hsymbol⟩ := Requests.of_type hrequests hcode
  rw [hsymbol] at heq
  rw [Ty.unqualifiedList_eq_map, Ty.unqualifiedList_eq_map]
  exact key_eq_of_over_clean (hp.isClean hbase).separable (hp.isClean hname).separable hclean hargs
    heq.symm

/-- No struct is called like an enum. -/
theorem struct?_eq_none (hname : name ∈ p.typeNames) {d : EnumDef} (hd : p.enum? name = some d) :
    p.struct? name = none := by
  have hbare := isBare_of_isClean (hp.isClean hname)
  refine lookup_eq_none hbare fun hmem => ?_
  exact (nodup_append.1 (nodup_append.1 hp.nodup).1).2.2 _ hmem _ (name_of_lookup hbare hd).2 rfl

/-- What is written for the name of a type that is not called like the block behind a
reference-counted wrapper is the body of a struct or an enum of that name. -/
theorem block_cases (hname : name ∈ p.typeNames) (hblock : name ≠ Wrapper.blockName)
    (hargs : ∀ t ∈ args, t.Over .clean)
    (h : (Naming.clean focus hp.clean).Writes ("%struct." ++ ofInstance name args) body) :
    ∃ own, Ty.unqualifiedList own = Ty.unqualifiedList args ∧
      ((∃ d, p.struct? name = some d ∧ body = .anon (p.irs (d.fieldTypes own))) ∨
        ∃ d words, p.enum? name = some d ∧ focus.Takes (.payloadWords d own) words ∧
          body = .anon (if words = 0 then [.i32] else [.i32, .array words .i64])) := by
  obtain hwrapper | hinner | ⟨item, d, hitem, hkind, hsymbol, hfound, rfl⟩ |
    ⟨item, d, words, hitem, hkind, hsymbol, hfound, hwords, rfl⟩ :=
    h.struct_cases (hp.isClean hname).separable
  · rw [hp.unwrapped _ hname] at hwrapper
    cases hwrapper
  · exact absurd hinner hblock
  all_goals
    obtain ⟨rfl, heq⟩ := hp.key_eq hname hargs hitem (by rw [hkind]; rfl) hsymbol.symm
  · exact ⟨item.args, heq, .inl ⟨d, hfound, rfl⟩⟩
  · exact ⟨item.args, heq, .inr ⟨d, words, hfound, hwords, rfl⟩⟩

/-- All bodies that are written for the name of a struct instance are the prescribed one. -/
theorem body_of_struct (hd : p.struct? name = some d) (hblock : d.name ≠ Wrapper.blockName)
    (hargs : ∀ t ∈ args, t.Over .clean)
    (h : (Naming.clean focus hp.clean).Writes ("%struct." ++ ofInstance d.name args) body) :
    body = .anon (p.irs (d.fieldTypes args)) := by
  have hname : d.name ∈ p.typeNames :=
    mem_append_left _ (mem_append_left _ (mem_names_of_lookup hd))
  obtain ⟨own, heq, ⟨other, hfound, rfl⟩ | ⟨_, _, hfound, -⟩⟩ := hp.block_cases hname hblock hargs h
  · cases (hp.struct? hd).symm.trans hfound
    have hirs := p.irs_congr (Layout.map_typesUnder heq d.generics d.fields)
    exact congrArg IR.Ty.anon hirs
  · cases (hp.struct? hd).symm.trans (hp.struct?_eq_none hname hfound)

/-- All bodies that are written for the name of a class instance are the prescribed one. -/
theorem body_of_class {d : ClassDef} (hd : p.class? name = some d)
    (hargs : ∀ t ∈ args, t.Over .clean)
    (h : (Naming.clean focus hp.clean).Writes ("%class." ++ ofInstance d.name args) body) :
    body = .anon (d.firstIr :: p.irs (d.fieldTypes args)) := by
  have hname : d.name ∈ p.typeNames := mem_append_right _ (mem_names_of_lookup hd)
  obtain ⟨item, own, hitem, hkind, hsymbol, hfound, rfl⟩ := h.class_cases
  obtain ⟨hbase, heq⟩ := hp.key_eq hname hargs hitem (by rw [hkind]; rfl) hsymbol.symm
  rw [hbase, hp.class? hd] at hfound
  cases hfound
  have hirs := p.irs_congr (Layout.map_typesUnder heq d.generics d.fields)
  exact congrArg (fun irs => IR.Ty.anon (d.firstIr :: irs)) hirs

end NamesBlocks

end Program

/-! ### Bodies in results -/

namespace Compile

variable {program : Program} {settings : Settings} {output : Output} {α : Type} {m : Gen α} {a : α}
  {s s' : Build} {during : Gen.Trace} {D : Discipline ⟨program, settings⟩}

/-- What a compilation defines may be written. -/
theorem writes_of_mem_typeDefined {event : Event} (haccepts : Accepts D.toFacts event)
    {d : IR.TypeDef} (h : d ∈ typeDefined event) : D.Writes d.name d.body := by
  obtain ⟨move, answer⟩ := event
  cases move with
  | step own =>
    cases own with
    | defineType name body =>
      obtain rfl := mem_singleton.1 h
      exact haccepts
    | _ => cases h
  | _ => cases h

/-- A type that a compilation defines is defined once in the result, with a body that may be
written for it. -/
theorem exists_definesAs [D.IsFull] (hinitial : D.Inv .outside (.initial settings))
    {events : List Event} {last : Build}
    (hall : Runs (Move.perform ⟨program, settings⟩) all (.initial settings) events () last)
    (htakes : Takes D.focus events) {name : String} {written : IR.Ty}
    (hevent : ⟨.step (.defineType name written), ()⟩ ∈ events) :
    ∃ body, D.Writes name body ∧ last.output.assembly.DefinesAs name body := by
  obtain ⟨-, -, haccepts⟩ := Discipline.of_runs_all hinitial hall htakes
  have hwritten : ⟨name, written⟩ ∈ events.flatMap typeDefined :=
    mem_flatMap.2 ⟨_, hevent, mem_singleton_self _⟩
  simp only [IR.Assembly.DefinesAs, Build.output, types_eq_firsts hall, filter_firsts]
  cases hfirst : (events.flatMap typeDefined).find? fun d => decide (d.name = name) with
  | none =>
    exact absurd (decide_eq_true rfl) (find?_eq_none.1 hfirst _ hwritten)
  | some d =>
    obtain ⟨event, hmem, hd⟩ := mem_flatMap.1 (mem_of_find?_eq_some hfirst)
    have hname : d.name = name := by simpa using find?_some hfirst
    have hd := writes_of_mem_typeDefined (haccepts event hmem) hd
    rw [hname] at hd
    refine ⟨d.body, hd, ?_⟩
    rw [Option.toList_some, ← hname]

section Passage

variable {D : Discipline ⟨program, settings⟩} [D.IsFull]
  (hinitial : D.Inv .outside (.initial settings))
  (htakes : ∀ step answer, D.focus.Takes step answer)
  (h : Performs program settings output m s during a s') {name : String} {written : IR.Ty}
  (hevent : ⟨.defineType name written, ()⟩ ∈ during)

include hinitial htakes h hevent

/-- A type that is defined in a passage is defined once in the result, with a body that may be
written for it. -/
theorem Performs.exists_definesAs :
    ∃ body, D.Writes name body ∧ output.assembly.DefinesAs name body := by
  obtain ⟨events, last, hall, rfl, hpart⟩ := h.occurs.part
  exact Compile.exists_definesAs hinitial hall (fun step answer _ => htakes step answer)
    (hpart.subset (mem_map_of_mem hevent))

/-- A type that is defined in a passage has the only body that may be written for it. -/
theorem Performs.definesAs {body : IR.Ty} (hbody : ∀ other, D.Writes name other → other = body) :
    output.assembly.DefinesAs name body := by
  obtain ⟨other, hwrites, hdefines⟩ := h.exists_definesAs hinitial htakes hevent
  rwa [hbody other hwrites] at hdefines

end Passage

section Blocks

variable (hp : program.NamesBlocks) (h : Performs program settings output m s during a s')
  {symbol name : String} {args : List Ty}

include hp h

/-- A requested instance of a type is generated, possibly for another request with the same base and
symbol, and then its type is defined. -/
theorem Performs.generate_of_require {item : WorkItem}
    (hname : TypeDefinitions.definedName? program item = some name)
    (hevent : ⟨.require item, symbol⟩ ∈ during) : ∃ other t own t' written,
      Performs program settings output (Gen.generate other) t own () t' ∧
        ⟨.defineType name written, ()⟩ ∈ own := by
  have hcode : item.kind.isCode = false := by
    cases hkind : item.kind with
    | func | method => simp [TypeDefinitions.definedName?, hkind] at hname
    | _ => rfl
  obtain ⟨other, hother, hkey⟩ := mem_map.1 (count_pos_iff.1
    (Nat.lt_of_lt_of_eq Nat.one_pos (h.count_instances hevent).symm))
  obtain ⟨hkind, hsymbol⟩ := Prod.mk.inj hkey
  obtain ⟨t, own, t', hown⟩ := performs_generate h.compile_eq_ok hother
  obtain ⟨hbase, hshown⟩ := (h.requests_clean hp.clean hevent).1.of_type hcode
  obtain ⟨hbase', hshown'⟩ :=
    (requests_clean_of_mem_instances hp.clean h.compile_eq_ok hother).1.of_type (hkind ▸ hcode)
  have hsame := base_eq_of_ofInstance_eq (hp.isClean hbase').separable (hp.isClean hbase).separable
    (hshown'.symm.trans (hsymbol.trans hshown))
  have hname : TypeDefinitions.definedName? program other = some name := by
    rw [TypeDefinitions.definedName?, hkind, hsame, hsymbol, ← hname, TypeDefinitions.definedName?]
  obtain ⟨written, hmem⟩ := TypeDefinitions.defines_generate hname t own () t' hown.runs
  exact ⟨other, t, own, t', written, hown, hmem⟩

/-- A requested instance of a struct has its fields in the result. -/
theorem Performs.definesAs_struct {d : StructDef} (hd : program.struct? name = some d)
    (hunion : d.isUnion = false) (hblock : d.name ≠ Wrapper.blockName)
    (hevent : ⟨.require (.plain .struct d.name args), symbol⟩ ∈ during) :
    output.assembly.DefinesAs ("%struct." ++ ofInstance d.name args)
      (.anon (program.irs (d.fieldTypes args))) := by
  have hargs := (h.requests_clean hp.clean hevent).2
  have hname : TypeDefinitions.definedName? program (.plain .struct d.name args) =
      some ("%struct." ++ ofInstance d.name args) := by
    simp [TypeDefinitions.definedName?, WorkItem.plain, hp.struct? hd, hunion]
  obtain ⟨_, _, _, _, _, hother, hdefine⟩ := h.generate_of_require hp hname hevent
  exact hother.definesAs (D := Naming.clean (.none _) hp.clean) trivial (fun _ _ => trivial) hdefine
    fun _ hbody => hp.body_of_struct hd hblock hargs hbody

/-- A requested instance of a class has a first slot and its fields in the result. -/
theorem Performs.definesAs_class {d : ClassDef} (hd : program.class? name = some d)
    (hevent : ⟨.require (.plain .cls d.name args), symbol⟩ ∈ during) :
    output.assembly.DefinesAs ("%class." ++ ofInstance d.name args)
      (.anon (d.firstIr :: program.irs (d.fieldTypes args))) := by
  have hargs := (h.requests_clean hp.clean hevent).2
  have hname : TypeDefinitions.definedName? program (.plain .cls d.name args) =
      some ("%class." ++ ofInstance d.name args) := congrArg (Option.map _) (hp.class? hd)
  obtain ⟨_, _, _, _, _, hother, hdefine⟩ := h.generate_of_require hp hname hevent
  exact hother.definesAs (D := Naming.clean (.none _) hp.clean) trivial (fun _ _ => trivial) hdefine
    fun _ hbody => hp.body_of_class hd hargs hbody

end Blocks

end Compile

end Monomorph
