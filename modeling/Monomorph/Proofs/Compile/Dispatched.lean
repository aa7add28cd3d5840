import Monomorph.Proofs.Compile.Symbols
import Monomorph.Proofs.Symbol.Methods

/-!
# Dispatch reaches the implementation of a behavior

The table of a type for a behavior names, slot by slot, the code of the methods of the type's
implementation of the behavior. That code is written once, and from that implementation, if the name
of the type is set apart: symbols of methods name the type and the method only, so another method of
that name for the type, inherent or of another behavior, would take its place.

## Main results

* `Session.filter_pieces_of_slot`, `Compile.dispatches_of_writeTable`.
-/

namespace Monomorph

open List Script Monomorph.Symbol

variable {method owner : String} {item : WorkItem} {ownerArgs methodArgs : List Ty}
  {params : List IR.Ty} {d : ImplDef}

/-! ### Names that are set apart -/

namespace Symbol

/-- A clean name without underscores that is not spelled like a mark either. -/
structure IsSimple (name : String) : Prop where
  clean : IsClean name
  solid : IsSolid name.toList

instance : DecidablePred IsSimple := fun name =>
  decidable_of_iff (IsClean name ∧ IsSolid name.toList) ⟨fun h => ⟨h.1, h.2⟩, fun h => ⟨h.1, h.2⟩⟩

/-- The symbol of an instance is its base, followed by nothing or by an underscore. -/
theorem exists_toList_ofInstance (base : String) (args : List Ty) :
    ∃ rest, (ofInstance base args).toList = base.toList ++ rest ∧
      (rest = [] ∨ ∃ more, rest = '_' :: more) := by
  rw [ofInstance]
  cases Ty.wordsList args with
  | nil => exact ⟨[], (append_nil _).symm, .inl rfl⟩
  | cons word words =>
    refine ⟨_, ?_, .inr ⟨'_' :: (joinWords (word :: words)).toList, rfl⟩⟩
    rw [joinWords_cons base (cons_ne_nil _ _), String.toList_append, String.toList_append,
      append_assoc]
    rfl

/-- The symbol of a method is its owner, followed by an underscore. -/
theorem exists_toList_ofMethod (owner : String) (ownerArgs : List Ty) (method : String)
    (methodArgs : List Ty) :
    ∃ rest, (ofMethod owner ownerArgs method methodArgs).toList = owner.toList ++ '_' :: rest := by
  obtain ⟨more, hmore, hstart⟩ := exists_toList_ofInstance owner ownerArgs
  rw [ofMethod, toList_joint, hmore, append_assoc]
  obtain rfl | ⟨later, rfl⟩ := hstart <;> exact ⟨_, rfl⟩

/-- An instance has the symbol of a method only if its base is the owner or begins with the owner
and an underscore. -/
theorem eq_or_prefix_of_ofInstance_eq {base : String} {args : List Ty} (howner : '_' ∉ owner.toList)
    (heq : ofInstance base args = ofMethod owner ownerArgs method methodArgs) :
    base = owner ∨ (owner ++ "_").toList <+: base.toList := by
  obtain ⟨rest, hrest, hstart⟩ := exists_toList_ofInstance base args
  obtain ⟨more, hmore⟩ := exists_toList_ofMethod owner ownerArgs method methodArgs
  rw [heq, hmore] at hrest
  obtain ⟨r, hbase, hr⟩ | ⟨r, howner', hr⟩ := append_eq_append_iff.1 hrest
  · cases r with
    | nil => exact .inl (String.toList_inj.1 (hbase.trans (append_nil _)))
    | cons c r =>
      obtain ⟨rfl, -⟩ := List.cons.inj hr
      refine .inr ⟨r, ?_⟩
      rw [hbase, String.toList_append]
      exact append_assoc _ _ _
  · -- What follows the base would be an underscore of the owner.
    cases r with
    | nil => exact .inl (String.toList_inj.1 (howner'.trans (append_nil _)).symm)
    | cons c r =>
      obtain rfl | ⟨later, rfl⟩ := hstart
      · cases hr
      · obtain ⟨rfl, -⟩ := List.cons.inj hr
        exact absurd (howner' ▸ mem_append_right _ mem_cons_self) howner

theorem toList_symbolOf (className : String) (params : List IR.Ty) :
    (Ctor.symbolOf className params).toList = className.toList ++ '_' :: ("new".toList ++
      (String.join (params.map fun t => "_" ++ t.suffix)).toList) := by
  rw [Ctor.symbolOf, String.join_cons, String.toList_append, String.toList_append, append_assoc]
  rfl

/-- A constructor has the symbol of a method only if the class has the name of the owner. -/
theorem className_eq_of_symbolOf_eq {className : String} (hclass : '_' ∉ className.toList)
    (howner : '_' ∉ owner.toList)
    (heq : Ctor.symbolOf className params = ofMethod owner ownerArgs method methodArgs) :
    className = owner := by
  obtain ⟨rest, hrest⟩ := exists_toList_ofMethod owner ownerArgs method methodArgs
  rw [← heq, toList_symbolOf] at hrest
  exact String.toList_inj.1 (eq_of_unbroken hclass howner hrest).1

/-- If the owner has no arguments, the method is then called like a constructor. -/
theorem prefix_of_symbolOf_eq (heq : Ctor.symbolOf owner params = ofMethod owner [] method []) :
    "new".toList <+: method.toList := by
  have hlist := congrArg String.toList heq
  have hmethod : (ofMethod owner [] method []).toList = owner.toList ++ '_' :: method.toList :=
    toList_joint owner method
  rw [hmethod, toList_symbolOf] at hlist
  exact ⟨_, (List.cons.inj (append_cancel_left hlist)).2⟩

end Symbol

/-- The simple names of types and behaviors. -/
def Vocabulary.simple : Vocabulary := ⟨IsSimple, IsSimple⟩

instance : Vocabulary.simple.IsDecidable :=
  inferInstanceAs (Vocabulary.IsDecidable ⟨IsSimple, IsSimple⟩)

namespace Program

/-- The methods of all implementations for a type, with the implementations. -/
def methodsOf (p : Program) (name : String) : List (Origin × ImplDef × FunctionDef) :=
  (p.impls.filter fun entry => entry.2.typeName? = some name).flatMap fun entry =>
    entry.2.methods.map fun f => (entry.1, entry.2, f)

/-- Programs in which the symbols of the methods of a type belong to them alone. -/
structure SetsApart (p : Program) (name : String) : Prop where
  types : p.Over .simple
  implMethods : ∀ entry ∈ p.impls, ∀ f ∈ entry.2.methods, IsClean f.name
  classMethods : ∀ m ∈ p.modules, ∀ d ∈ m.classes.items, ∀ f ∈ d.methods, IsClean f.name
  /-- No function has the name of the type, or begins with it and an underscore. -/
  functions : ∀ own ∈ p.names Module.functions,
    own ≠ name ∧ ¬ (name ++ "_").toList <+: own.toList
  /-- The implementations for the type give each method once. -/
  sole : ((p.methodsOf name).map fun entry => entry.2.2.name).Nodup
  /-- If the type is a class, its implementations are not generic, and their methods are neither
  methods of the class nor called like a constructor. -/
  classes : ∀ m ∈ p.modules, ∀ d ∈ m.classes.items, d.name = name → ∀ entry ∈ p.methodsOf name,
    entry.2.1.generics = [] ∧ d.method? entry.2.2.name = none ∧
      ¬ "new".toList <+: entry.2.2.name.toList

variable {p : Program} {name : String} {origin : Origin} {impl : ImplDef} {f : FunctionDef}

theorem mem_methodsOf : (origin, impl, f) ∈ p.methodsOf name ↔
      (origin, impl) ∈ p.impls ∧ impl.typeName? = some name ∧ f ∈ impl.methods := by
  simp only [methodsOf, mem_flatMap, mem_filter, mem_map, decide_eq_true_eq, Prod.mk.injEq]
  constructor
  · rintro ⟨⟨origin, impl⟩, ⟨hmem, hname⟩, f, hf, rfl, rfl, rfl⟩
    exact ⟨hmem, hname, hf⟩
  · rintro ⟨hmem, hname, hf⟩
    exact ⟨(origin, impl), ⟨hmem, hname⟩, f, hf, rfl, rfl, rfl⟩

/-- Two methods of one name for the type are one. -/
theorem SetsApart.eq_of_name_eq (h : p.SetsApart name)
    {entry entry' : Origin × ImplDef × FunctionDef} (hentry : entry ∈ p.methodsOf name)
    (hentry' : entry' ∈ p.methodsOf name) (heq : entry.2.2.name = entry'.2.2.name) :
    entry = entry' :=
  inj_on_of_nodup_map h.sole hentry hentry' heq

/-- What is found as a method of the type is the method of that name. -/
theorem SetsApart.implMethod?_eq (h : p.SetsApart name)
    (hentry : (origin, impl, f) ∈ p.methodsOf name) :
    p.implMethod? name f.name = some (origin, impl, f) := by
  obtain ⟨himpl, hname, hf⟩ := mem_methodsOf.1 hentry
  have hsome : (impl.method? f.name).isSome = true :=
    find?_isSome.2 ⟨f, hf, decide_eq_true rfl⟩
  obtain ⟨own, hown⟩ := Option.isSome_iff_exists.1 hsome
  obtain ⟨⟨origin', impl', f'⟩, hfound⟩ :=
    Option.isSome_iff_exists.1 (isSome_implMethod? himpl hname hown)
  obtain ⟨himpl', hname', hmethod'⟩ := of_implMethod? hfound
  obtain ⟨hf', hsame⟩ := ImplDef.of_method? hmethod'
  rw [hfound, h.eq_of_name_eq (mem_methodsOf.2 ⟨himpl', hname', hf'⟩) hentry hsame]

end Program

/-! ### Keys -/

namespace Program.SetsApart

variable {p : Program} {name : String} (h : p.SetsApart name)

include h

/-- The name of a type with implementations is simple. -/
theorem simple_of_typeName? {origin : Origin} {impl : ImplDef} (himpl : (origin, impl) ∈ p.impls)
    {own : String} (hown : impl.typeName? = some own) : IsSimple own :=
  (h.types.impls himpl).typeName? hown

/-- The name of a class is simple. -/
theorem simple_of_class {m : Module} (hm : m ∈ p.modules) {d : ClassDef}
    (hd : d ∈ m.classes.items) : IsSimple d.name :=
  ((h.types m hm).classes d hd).name

omit h in
theorem isMethodKey (howner : IsSimple owner) (hmethod : IsClean method)
    (hargs : ∀ t ∈ ownerArgs, t.Over .simple) (hown : ∀ t ∈ methodArgs, t.Over .simple) :
    IsMethodKey owner ownerArgs method methodArgs where
  cleanOwner := howner.clean
  cleanOwnerArgs own hmem :=
    (Ty.of_mem_namesList ownerArgs (Ty.overList_iff.2 hargs) own hmem).clean
  cleanMethod := hmethod
  cleanMethodArgs own hmem :=
    (Ty.of_mem_namesList methodArgs (Ty.overList_iff.2 hown) own hmem).clean
  unbroken := howner.solid.unbroken
  solid own hmem := (Ty.of_mem_namesList ownerArgs (Ty.overList_iff.2 hargs) own hmem).solid

end Program.SetsApart

/-! ### Pieces with the symbol of a slot -/

theorem countP_flatMap_le {α β : Type} {g : α → List β} {P : β → Bool} {q : α → Bool} {l : List α}
    (h : ∀ a ∈ l, (g a).countP P ≤ if q a then 1 else 0) :
    (l.flatMap g).countP P ≤ l.countP q := by
  induction l with
  | nil => exact Nat.le_refl _
  | cons a l ih =>
    rw [forall_mem_cons] at h
    rw [flatMap_cons, countP_append, countP_cons, Nat.add_comm]
    exact Nat.add_le_add (ih h.2) h.1

/-- A method of an implementation that fills a slot. -/
structure Program.Fills (p : Program) (name : String) (args : List Ty) (origin : Origin)
    (impl : ImplDef) (f : FunctionDef) : Prop where
  mem : (origin, impl, f) ∈ p.methodsOf name
  plain : f.isGeneric = false
  simple : ∀ t ∈ args, t.Over .simple
  /-- Where the implementation has no parameters, they are left out. -/
  args : impl.generics = [] → args = []

namespace Session

/-- The symbol in a slot: that of a method without arguments of its own. -/
abbrev slot (session : Session) (name : String) (args : List Ty) (f : FunctionDef) : String :=
  session.symbol (ofMethod name args f.name [])

/-- Whether code has the symbol in a slot. -/
abbrev inSlot (session : Session) (name : String) (args : List Ty) (f : FunctionDef)
    (piece : Piece) : Bool :=
  piece.symbol = session.slot name args f

variable {session : Session} {name : String} {args : List Ty} {origin : Origin} {impl : ImplDef}
  {f : FunctionDef} (happart : session.program.SetsApart name)
  (hfills : session.program.Fills name args origin impl f)

include happart hfills

variable {piece : Piece}

theorem isMethodKey_of_fills : IsMethodKey name args f.name [] := by
  obtain ⟨himpl, hname, hf⟩ := Program.mem_methodsOf.1 hfills.mem
  exact Program.SetsApart.isMethodKey (happart.simple_of_typeName? himpl hname)
    (happart.implMethods _ himpl f hf) hfills.simple (forall_mem_nil _)

/-- Another method with the symbol has the same owner and the same name. -/
theorem owner_eq_of_symbol_eq (hkey : IsMethodKey owner ownerArgs method methodArgs)
    (heq : ofMethod owner ownerArgs method methodArgs = ofMethod name args f.name []) :
    owner = name ∧ method = f.name :=
  have hiff := (hkey.symbol_eq_iff (isMethodKey_of_fills happart hfills)).1 heq
  ⟨hiff.1, hiff.2.2.1⟩

theorem of_mem_methodPieces {receiver : Receiver} {f' : FunctionDef}
    (hkey : IsMethodKey owner [] f'.name [])
    (hpiece : piece ∈ session.methodPieces owner receiver f')
    (hsymbol : piece.symbol = session.slot name args f) :
    (owner = name ∧ f'.name = f.name) ∧ ∃ symbol b receiver,
      piece = .function f' symbol b receiver := by
  rw [methodPieces] at hpiece
  split at hpiece
  · obtain rfl := mem_singleton.1 hpiece
    exact ⟨owner_eq_of_symbol_eq happart hfills hkey (symbol_inj.1 hsymbol), _, _, _, rfl⟩
  · cases hpiece

/-- A method of an implementation of the module at hand with the symbol is the one of the slot. -/
theorem of_mem_implPieces (hd : d ∈ session.program.home.impls)
    (hpiece : piece ∈ session.implPieces d)
    (hsymbol : piece.symbol = session.slot name args f) :
    impl.generics = [] ∧ ∃ b receiver,
      piece = .function f (session.slot name args f) b receiver := by
  have himpl : (Origin.home, d) ∈ session.program.impls :=
    mem_append_left _ (mem_map_of_mem hd)
  rw [implPieces] at hpiece
  split at hpiece
  · cases hpiece
  next own hown =>
    split at hpiece
    · rename_i hgenerics
      obtain ⟨f', hf', hpiece⟩ := mem_flatMap.1 hpiece
      obtain ⟨⟨rfl, hmethod⟩, _, b, receiver, rfl⟩ := of_mem_methodPieces happart hfills
        (Program.SetsApart.isMethodKey (happart.simple_of_typeName? himpl hown)
          (happart.implMethods _ himpl f' hf') (forall_mem_nil _) (forall_mem_nil _)) hpiece hsymbol
      cases happart.eq_of_name_eq (Program.mem_methodsOf.2 ⟨himpl, hown, hf'⟩) hfills.mem hmethod
      exact ⟨List.isEmpty_iff.1 hgenerics, b, receiver,
        congrArg (Piece.function f · b receiver) hsymbol⟩
    · cases hpiece

/-- Functions of the module at hand have another symbol. -/
theorem notMem_functionPieces {f' : FunctionDef} (hf' : f' ∈ session.program.home.functions.items)
    (hpiece : piece ∈ session.functionPieces f') :
    piece.symbol ≠ session.slot name args f := by
  intro hsymbol
  have hname : f'.name ∈ session.program.names Module.functions :=
    mem_flatMap.2 ⟨_, mem_cons_self, mem_map_of_mem hf'⟩
  rw [functionPieces] at hpiece
  split at hpiece
  · obtain rfl := mem_singleton.1 hpiece
    have heq : ofInstance f'.name [] = ofMethod name args f.name [] := symbol_inj.1 hsymbol
    obtain ⟨hne, hnot⟩ := happart.functions _ hname
    exact (eq_or_prefix_of_ofInstance_eq (isMethodKey_of_fills happart hfills).unbroken heq).elim
      hne hnot
  · cases hpiece

/-- Classes of the module at hand have no code with the symbol. -/
theorem notMem_classPieces {d : ClassDef} (hd : d ∈ session.program.home.classes.items)
    (hpiece : piece ∈ session.classPieces d) :
    piece.symbol ≠ session.slot name args f := by
  intro hsymbol
  have hhome : session.program.home ∈ session.program.modules := mem_cons_self
  have hsimple := happart.simple_of_class hhome hd
  have hkey := isMethodKey_of_fills happart hfills
  rw [classPieces] at hpiece
  split at hpiece
  · obtain hpiece | hpiece := mem_append.1 hpiece
    · obtain ⟨f', hf', rfl⟩ := mem_map.1 hpiece
      have heq := symbol_inj.1 hsymbol
      obtain rfl := className_eq_of_symbolOf_eq hsimple.solid.unbroken hkey.unbroken heq
      obtain ⟨hgenerics, -, hnew⟩ := happart.classes _ hhome d hd rfl _ hfills.mem
      rw [hfills.args hgenerics] at heq
      exact hnew (prefix_of_symbolOf_eq heq)
    · obtain ⟨f', hf', hpiece⟩ := mem_flatMap.1 hpiece
      obtain ⟨⟨hname, hmethod⟩, -⟩ := of_mem_methodPieces happart hfills
        (Program.SetsApart.isMethodKey hsimple (happart.classMethods _ hhome d hd f' hf')
          (forall_mem_nil _) (forall_mem_nil _)) hpiece hsymbol
      have hnone := (happart.classes _ hhome d hd hname _ hfills.mem).2.1
      exact find?_eq_none.1 hnone f' hf' (decide_eq_true hmethod)
  · cases hpiece

/-- Code of the module at hand with the symbol is the method of the slot. -/
theorem of_mem_homePieces (hpiece : piece ∈ session.homePieces)
    (hsymbol : piece.symbol = session.slot name args f) :
    impl.generics = [] ∧ ∃ b receiver,
      piece = .function f (session.slot name args f) b receiver := by
  obtain hpiece | hpiece := mem_append.1 hpiece
  · obtain ⟨f', hf', hpiece⟩ := mem_flatMap.1 hpiece
    exact absurd hsymbol (notMem_functionPieces happart hfills hf' hpiece)
  · obtain hpiece | hpiece := mem_append.1 hpiece
    · obtain ⟨d, hd, hpiece⟩ := mem_flatMap.1 hpiece
      exact of_mem_implPieces happart hfills hd hpiece hsymbol
    · obtain ⟨d, hd, hpiece⟩ := mem_flatMap.1 hpiece
      exact absurd hsymbol (notMem_classPieces happart hfills hd hpiece)

/-- An instance of code with the symbol is one of the method of the slot. -/
theorem of_requests (hitem : session.program.Requests item ∧ (∀ t ∈ item.args, t.Over .simple) ∧
      ∀ key ∈ item.method, ∀ t ∈ key.args, t.Over .simple)
    (hcode : item.kind.isCode = true) (hsymbol : item.symbol = ofMethod name args f.name []) :
    impl.generics ≠ [] ∧ item.kind = .method ∧ item.base = name ∧
      ∃ key, item.method = some key ∧ key.name = f.name := by
  have hkey := isMethodKey_of_fills happart hfills
  obtain ⟨hrequests, hargs, hmethodArgs⟩ := hitem
  cases hrequests with
  | struct | enum | cls => cases hcode
  | func hf own =>
    obtain ⟨hne, hnot⟩ := happart.functions _ (Program.mem_names_of_lookup hf)
    exact ((eq_or_prefix_of_ofInstance_eq hkey.unbroken hsymbol).elim hne hnot).elim
  | @classMethod found method d f' hd hf' own methodArgs =>
    obtain ⟨m, hm, hmem⟩ := Program.mem_of_lookup hd
    obtain ⟨hmem', hmethod⟩ := ClassDef.of_method? hf'
    obtain ⟨hname, hsame⟩ := owner_eq_of_symbol_eq happart hfills
      (Program.SetsApart.isMethodKey (happart.simple_of_class hm hmem)
        (hmethod ▸ happart.classMethods m hm d hmem f' hmem') hargs (hmethodArgs _ rfl)) hsymbol
    have hnone := (happart.classes m hm d hmem hname _ hfills.mem).2.1
    exact (find?_eq_none.1 hnone f' hmem' (decide_eq_true (hmethod.trans hsame))).elim
  | @constructor found d hd hconstructors own methodArgs =>
    obtain ⟨m, hm, hmem⟩ := Program.mem_of_lookup hd
    obtain ⟨hname, hsame⟩ := owner_eq_of_symbol_eq happart hfills
      (Program.SetsApart.isMethodKey (happart.simple_of_class hm hmem) (by decide) hargs
        (hmethodArgs _ rfl)) hsymbol
    have hnew := (happart.classes m hm d hmem hname _ hfills.mem).2.2
    exact (hnew (hsame ▸ prefix_rfl)).elim
  | @implMethod origin' impl' owner method f' himpl hname hf' hgeneric own methodArgs =>
    obtain ⟨hmem, hmethod⟩ := ImplDef.of_method? hf'
    obtain ⟨rfl, hsame⟩ := owner_eq_of_symbol_eq happart hfills
      (Program.SetsApart.isMethodKey (happart.simple_of_typeName? himpl hname)
        (hmethod ▸ happart.implMethods _ himpl f' hmem) hargs (hmethodArgs _ rfl)) hsymbol
    cases happart.eq_of_name_eq (Program.mem_methodsOf.2 ⟨himpl, hname, hmem⟩) hfills.mem
      (hmethod.trans hsame)
    -- The method has no parameters, so the implementation has.
    obtain hgenerics | hgeneric := hgeneric
    · exact ⟨hgenerics, rfl, rfl, _, rfl, hsame⟩
    · rw [hfills.plain] at hgeneric
      cases hgeneric

/-- A method of an implementation of the module at hand contributes one piece at most, and none
under the symbol of another. -/
theorem countP_methodPieces_le (hd : d ∈ session.program.home.impls) {own : String}
    (hown : d.typeName? = some own) (receiver : Receiver) {f' : FunctionDef}
    (hf' : f' ∈ d.methods) :
    (session.methodPieces own receiver f').countP (session.inSlot name args f) ≤
      if own = name ∧ f'.name = f.name then 1 else 0 := by
  have himpl : (Origin.home, d) ∈ session.program.impls :=
    mem_append_left _ (mem_map_of_mem hd)
  have hkey := Program.SetsApart.isMethodKey (happart.simple_of_typeName? himpl hown)
    (happart.implMethods _ himpl f' hf') (forall_mem_nil _) (forall_mem_nil _)
  rw [methodPieces]
  split
  · by_cases hboth : own = name ∧ f'.name = f.name
    · rw [if_pos hboth]
      exact countP_le_length
    · rw [if_neg hboth]
      refine Nat.le_of_eq (countP_eq_zero.2 (forall_mem_singleton.2 fun hsymbol => ?_))
      exact hboth (owner_eq_of_symbol_eq happart hfills hkey
        (symbol_inj.1 (of_decide_eq_true hsymbol)))
  · exact Nat.zero_le _

theorem countP_implPieces_le {l : List ImplDef} (hl : ∀ d ∈ l, d ∈ session.program.home.impls) :
    (l.flatMap session.implPieces).countP (session.inSlot name args f) ≤
      (((l.map fun d => (Origin.home, d)).filter fun entry =>
        entry.2.typeName? = some name).flatMap fun entry =>
          entry.2.methods.map fun f => (entry.1, entry.2, f)).countP
        fun entry => entry.2.2.name = f.name := by
  induction l with
  | nil => exact Nat.zero_le _
  | cons d l ih =>
    obtain ⟨hd, hl⟩ := forall_mem_cons.1 hl
    have hrest := ih hl
    have hone : (session.implPieces d).countP (session.inSlot name args f) ≤
        if d.typeName? = some name then d.methods.countP (fun f' => f'.name = f.name) else 0 := by
      rw [implPieces]
      split
      · exact Nat.zero_le _
      next own hown =>
        split
        · refine (countP_flatMap_le (q := fun f' => own = name ∧ f'.name = f.name) fun f' hf' =>
            ?_).trans ?_
          · simpa using countP_methodPieces_le happart hfills hd hown _ hf'
          · by_cases hname : own = name <;> simp [hown, hname]
        · exact Nat.zero_le _
    rw [flatMap_cons, countP_append, map_cons]
    by_cases hname : d.typeName? = some name
    · rw [filter_cons, if_pos (decide_eq_true hname), flatMap_cons, countP_append, countP_map]
      rw [if_pos hname] at hone
      exact Nat.add_le_add hone hrest
    · rw [filter_cons, if_neg (by simpa using hname)]
      rw [if_neg hname] at hone
      omega

/-- At most one piece of the module at hand has the symbol. -/
theorem countP_homePieces_le : session.homePieces.countP
    (session.inSlot name args f) ≤ 1 := by
  have hfunctions : (session.program.home.functions.items.flatMap session.functionPieces).countP
      (session.inSlot name args f) = 0 := by
    refine countP_eq_zero.2 fun piece hpiece => ?_
    obtain ⟨f', hf', hpiece⟩ := mem_flatMap.1 hpiece
    simpa using notMem_functionPieces happart hfills hf' hpiece
  have hclasses : (session.program.home.classes.items.flatMap session.classPieces).countP
      (session.inSlot name args f) = 0 := by
    refine countP_eq_zero.2 fun piece hpiece => ?_
    obtain ⟨d, hd, hpiece⟩ := mem_flatMap.1 hpiece
    simpa using notMem_classPieces happart hfills hd hpiece
  -- What is left are the methods of that name, of which there is one in all modules.
  have himpls := countP_implPieces_le happart hfills fun d hd => hd
  have hsole : (session.program.methodsOf name).countP (fun entry => entry.2.2.name = f.name) ≤
      1 := by
    have hcount := nodup_iff_count_le_one.1 happart.sole f.name
    rwa [count_eq_countP, countP_map] at hcount
  rw [Program.methodsOf, Program.impls, filter_append, flatMap_append, countP_append] at hsole
  rw [homePieces, countP_append, countP_append, hfunctions, hclasses]
  omega

omit happart in
/-- The module at hand writes the methods of its implementations without parameters. -/
theorem exists_mem_homePieces (hgenerics : impl.generics = []) (horigin : origin = .home)
    (hbody : f.body.isSome = true) : ∃ piece ∈ session.homePieces,
      piece.symbol = session.slot name args f := by
  subst horigin
  obtain ⟨himpl, hname, hf⟩ := Program.mem_methodsOf.1 hfills.mem
  have hready : f.isReady = true := by rw [FunctionDef.isReady, hfills.plain, hbody]; rfl
  have hpiece : .function f (session.symbol (ofMethod name [] f.name [])) .empty
      (if f.hasSelf then some ⟨impl.selfTy, session.program.isReferenceClass name⟩ else none) ∈
        session.implPieces impl := by
    rw [implPieces, hname]
    simp only [hgenerics, isEmpty_nil, if_true]
    refine mem_flatMap.2 ⟨f, hf, ?_⟩
    rw [methodPieces, if_pos hready]
    exact mem_singleton_self _
  rw [hfills.args hgenerics]
  exact ⟨_, mem_append_right _ (mem_append_left _ (mem_flatMap.2
    ⟨impl, Program.mem_home_impls himpl, hpiece⟩)), rfl⟩

/-! ### The piece of a slot -/

/-- Instances that were requested for definitions of the program, for simple types. -/
def Instances (session : Session) (instances : List WorkItem) : Prop :=
  ∀ item ∈ instances, session.program.Requests item ∧ (∀ t ∈ item.args, t.Over .simple) ∧
    ∀ key ∈ item.method, ∀ t ∈ key.args, t.Over .simple

variable {instances : List WorkItem} (hinstances : session.Instances instances)

include hinstances

/-- The code of an instance with the key of the slot is the method of the slot. -/
theorem piece?_of_key (hitem : item ∈ instances)
    (hkey : item.key = (.method, ofMethod name args f.name [])) :
    impl.generics ≠ [] ∧ ∃ b receiver,
      session.piece? item = some (.function f (session.slot name args f) b receiver) := by
  obtain ⟨hkind, hsymbol⟩ := Prod.mk.inj hkey
  obtain ⟨hgenerics, -, hbase, key, hmethod, hname⟩ :=
    of_requests happart hfills (hinstances item hitem) (by rw [hkind]; rfl) hsymbol
  have hclass : session.program.class? name = none := by
    cases hclass : session.program.class? name with
    | none => rfl
    | some d =>
      obtain ⟨m, hm, hd⟩ := Program.mem_of_lookup hclass
      obtain ⟨himpl, hname, -⟩ := Program.mem_methodsOf.1 hfills.mem
      have hbare := isBare_of_isClean (happart.simple_of_typeName? himpl hname).clean
      have hnone := (happart.classes m hm d hd (Program.name_of_class? hbare hclass) _ hfills.mem).1
      exact absurd hnone hgenerics
  have hfound := happart.implMethod?_eq hfills.mem
  have hpiece : session.piece? item = some (session.implMethodPiece item key impl f) := by
    rw [piece?, hkind]
    simp only [hmethod, Option.bind_some, methodPiece?, hbase, hclass, hname, hfound,
      Option.map_some]
  rw [slot, ← hsymbol]
  exact ⟨hgenerics, _, _, hpiece⟩

/-- The instances whose code has the symbol are those with the key of the slot. -/
theorem piece?_iff (hitem : item ∈ instances) : (∃ piece, session.piece? item = some piece ∧
      piece.symbol = session.slot name args f) ↔
      item.key = (.method, ofMethod name args f.name []) := by
  constructor
  · rintro ⟨piece, hpiece, hsymbol⟩
    have hcode : item.kind.isCode = true := by
      have hsome : (session.piece? item).isSome = _ := isSome_piece?
      rw [hpiece] at hsome
      exact (Bool.and_eq_true_iff.1 hsome.symm).1
    rw [symbol_of_piece? hpiece, symbol_inj] at hsymbol
    obtain ⟨-, hkind, -⟩ := of_requests happart hfills (hinstances item hitem) hcode hsymbol
    exact Prod.ext hkind hsymbol
  · intro hkey
    obtain ⟨-, _, _, hpiece⟩ := piece?_of_key happart hfills hinstances hitem hkey
    exact ⟨_, hpiece, rfl⟩

theorem of_mem_pieces (hpiece : piece ∈ session.pieces instances)
    (hsymbol : piece.symbol = session.slot name args f) : ∃ b receiver,
      piece = .function f (session.slot name args f) b receiver := by
  obtain hpiece | hpiece := mem_append.1 hpiece
  · exact (of_mem_homePieces happart hfills hpiece hsymbol).2
  · obtain ⟨item, hitem, hpiece⟩ := mem_filterMap.1 hpiece
    have hkey := (piece?_iff happart hfills hinstances hitem).1 ⟨piece, hpiece, hsymbol⟩
    obtain ⟨-, b, receiver, hown⟩ := piece?_of_key happart hfills hinstances hitem hkey
    exact ⟨b, receiver, Option.some.inj (hpiece.symm.trans hown)⟩

/-- One instance has the symbol if it was requested, and none where no instance is needed. -/
theorem countP_filterMap_piece? : (instances.filterMap session.piece?).countP
    (session.inSlot name args f) =
      (instances.map WorkItem.key).count (.method, ofMethod name args f.name []) := by
  rw [countP_filterMap, count_eq_countP, countP_map]
  refine countP_congr fun item hitem => ?_
  have hiff := piece?_iff happart hfills hinstances hitem
  cases hpiece : session.piece? item with
  | none | some =>
    rw [hpiece] at hiff
    simpa using hiff

/-- One piece of code has the symbol of a slot, if the instance was requested or the module at hand
has the code. -/
theorem filter_pieces_of_slot (hwritten : (impl.generics ≠ [] ∧
        (instances.map WorkItem.key).count (.method, ofMethod name args f.name []) = 1) ∨
      (impl.generics = [] ∧ origin = .home ∧ f.body.isSome = true)) :
    ∃ b receiver, (session.pieces instances).filter (session.inSlot name args f) =
      [.function f (session.slot name args f) b receiver] := by
  have hcount : (session.pieces instances).countP (session.inSlot name args f) = 1 := by
    rw [pieces, countP_append, countP_filterMap_piece? happart hfills hinstances]
    obtain ⟨hgenerics, hone⟩ | ⟨hgenerics, horigin, hbody⟩ := hwritten
    · rw [hone, countP_eq_zero.2 fun piece hpiece hsymbol => hgenerics
        (of_mem_homePieces happart hfills hpiece (of_decide_eq_true hsymbol)).1]
    · have hnone : (instances.map WorkItem.key).count (.method, ofMethod name args f.name []) =
          0 := by
        refine count_eq_zero.2 fun hmem => ?_
        obtain ⟨item, hitem, hkey⟩ := mem_map.1 hmem
        exact (piece?_of_key happart hfills hinstances hitem hkey).1 hgenerics
      obtain ⟨piece, hpiece, hsymbol⟩ := exists_mem_homePieces hfills hgenerics horigin hbody
      have hpos : 0 < session.homePieces.countP (session.inSlot name args f) :=
        countP_pos_iff.2 ⟨piece, hpiece, decide_eq_true hsymbol⟩
      have hle := countP_homePieces_le happart hfills
      omega
  rw [countP_eq_length_filter] at hcount
  obtain ⟨piece, hfilter⟩ := length_eq_one_iff.1 hcount
  have hmem : piece ∈ (session.pieces instances).filter (session.inSlot name args f) := by
    rw [hfilter]
    exact mem_cons_self
  obtain ⟨hpiece, hsymbol⟩ := mem_filter.1 hmem
  obtain ⟨b, receiver, rfl⟩ :=
    of_mem_pieces happart hfills hinstances hpiece (of_decide_eq_true hsymbol)
  exact ⟨b, receiver, hfilter⟩

end Session

/-! ### Slots -/

namespace Compile

variable {program : Program} {settings : Settings} {output : Output} {s s' : Build}
  {during : Gen.Trace} {selfTy : Ty} {name : String} {args : List Ty}

section Simple

variable (htypes : program.Over .simple)

include htypes

/-- The instances that are requested are for simple types. -/
theorem Performs.over_of_require {symbol : String}
    (h : Performs program settings output (Gen.require item) s during symbol s') :
    ∀ t ∈ item.args, t.Over .simple := by
  let D : Discipline ⟨program, settings⟩ :=
    Naming.discipline (fun _ => True) (.none ⟨program, settings⟩) (fun _ _ => trivial) htypes
  have : D.IsFull := Naming.isFull _ _
  obtain ⟨-, rfl⟩ := h.runs.of_ask
  have hadmits : D.Admits item :=
    h.accepts (D := D) trivial (fun _ _ => trivial) _ mem_cons_self
  exact (hadmits s).2.1

/-- The instances of the result belong to definitions of the program and are for simple types. -/
theorem instances_of_compile_eq_ok (h : compile program settings = .ok output) :
    Session.Instances ⟨program, settings⟩ output.instances := by
  let D : Discipline ⟨program, settings⟩ :=
    Naming.discipline (fun _ => True) (.none ⟨program, settings⟩) (fun _ _ => trivial) htypes
  have : D.IsFull := Naming.isFull _ _
  intro item hitem
  have hadmits : D.Admits item :=
    admits_of_mem_instances (D := D) trivial (fun _ _ => trivial) h hitem
  obtain ⟨-, hargs, hmethod⟩ := hadmits (.initial settings)
  exact ⟨requests_of_mem_instances h hitem, hargs, fun key hkey =>
    hmethod key.args (Option.map_eq_some_iff.2 ⟨key, hkey, rfl⟩)⟩

end Simple

/-- A script for the members of a list is performed for each of them, and gives their results. -/
theorem Performs.mapM {α β : Type} {f : α → Gen β} {l : List α} {bs : List β}
    (h : Performs program settings output (l.mapM f) s during bs s') :
    List.Forall₂ (fun a b => ∃ t own t', Performs program settings output (f a) t own b t')
      l bs := by
  induction l generalizing s s' during bs with
  | nil =>
    obtain ⟨-, rfl, -⟩ := h.runs.of_pure
    exact .nil
  | cons a l ih =>
    rw [mapM_cons] at h
    obtain ⟨first, b, mid, rest, hfirst, h, -⟩ := h.bind
    obtain ⟨second, bs, mid', rest, hsecond, h, -⟩ := h.bind
    obtain ⟨-, rfl, -⟩ := h.runs.of_pure
    exact .cons ⟨s, first, mid, hfirst⟩ (ih hsecond)

/-- The symbol in a slot: that of the method of the implementation of the behavior, or that of an
instance of it, which is then requested. -/
theorem Performs.of_behaviorEntry {behavior symbol : String}
    (h : Performs program settings output (Gen.behaviorEntry selfTy behavior method) s during
      (some symbol) s')
    (hself : selfTy.nominal?.getD ("", []) = (name, args)) :
    ∃ origin impl f, program.implOf? name behavior = some (origin, impl) ∧
      impl.method? method = some f ∧ f.isGeneric = false ∧
      ((impl.generics = [] ∧
          symbol = Session.symbol ⟨program, settings⟩ (ofMethod name [] method [])) ∨
        (impl.generics ≠ [] ∧
          symbol = Session.symbol ⟨program, settings⟩ (ofMethod name args method []) ∧
          ∃ t own answer t', Performs program settings output
            (Gen.require (.ofMethod name args method [])) t own answer t')) := by
  rw [Gen.behaviorEntry, hself] at h
  dsimp only at h
  obtain ⟨own, h⟩ := h.program_bind
  split at h
  · obtain ⟨_, -, heq⟩ := h.runs.of_bind_pure
    cases heq
  next origin impl f hprovided =>
    obtain ⟨⟨origin', impl'⟩, himpl, hprovided⟩ := Option.bind_eq_some_iff.1 hprovided
    obtain ⟨f', hf, heq⟩ := Option.map_eq_some_iff.1 hprovided
    cases heq
    obtain ⟨hf, hplain⟩ := Option.filter_eq_some_iff.1 hf
    refine ⟨_, _, _, himpl, hf, by simpa using hplain, ?_⟩
    split at h
    · rename_i hgenerics
      obtain ⟨own, h⟩ := h.functionSymbol_bind
      refine .inl ⟨List.isEmpty_iff.1 hgenerics, ?_⟩
      split at h
      · obtain ⟨_, -, heq⟩ := h.runs.of_bind_pure
        exact Option.some.inj heq
      · obtain ⟨-, heq, -⟩ := h.runs.of_pure
        exact Option.some.inj heq
    · rename_i hgenerics
      obtain ⟨requesting, own, mid, rest, hrequest, h, -⟩ := h.bind
      obtain ⟨own', h⟩ := h.functionSymbol_bind
      obtain ⟨-, heq, -⟩ := h.runs.of_pure
      obtain ⟨hperform, -⟩ := hrequest.runs.of_ask
      cases hperform
      exact .inr ⟨fun hnil => hgenerics (List.isEmpty_iff.2 hnil), Option.some.inj heq,
        s, requesting, _, _, hrequest⟩

/-- The code of a slot is one function, which is what lowering the method of the implementation of
the behavior wrote. -/
theorem Performs.writes_of_behaviorEntry {behavior symbol : String}
    (h : Performs program settings output (Gen.behaviorEntry selfTy behavior method) s during
      (some symbol) s')
    (hself : selfTy.nominal?.getD ("", []) = (name, args)) (happart : program.SetsApart name) :
    ∃ origin impl f, program.implOf? name behavior = some (origin, impl) ∧
      impl.method? method = some f ∧
      (impl.generics ≠ [] ∨ origin = .home ∧ f.body.isSome = true → ∃ written b receiver,
        (output.assembly.functions.toList.filter fun own => own.symbol? = some symbol) = [written] ∧
        Writes program settings output (.function f symbol b receiver) written) := by
  obtain ⟨origin, impl, f, himpl, hf, hplain, hslot⟩ := h.of_behaviorEntry hself
  refine ⟨origin, impl, f, himpl, hf, fun hcode => ?_⟩
  obtain ⟨hfmem, hname⟩ := ImplDef.of_method? hf
  obtain ⟨hlisted, htype⟩ := Program.of_implOf? himpl
  have hmem : (origin, impl, f) ∈ program.methodsOf name :=
    Program.mem_methodsOf.2 ⟨hlisted, htype, hfmem⟩
  have hinstances := instances_of_compile_eq_ok happart.types h.compile_eq_ok
  -- One piece of code has the symbol, so one function has.
  suffices hpiece : ∃ b receiver,
      ((Session.pieces ⟨program, settings⟩ output.instances).filter fun piece =>
        piece.symbol = symbol) = [.function f symbol b receiver] by
    obtain ⟨b, receiver, hpiece⟩ := hpiece
    have hwrites := writes_of_symbol h.compile_eq_ok symbol
    rw [hpiece, forall₂_cons_left_iff] at hwrites
    obtain ⟨written, rest, hwritten, hrest, hfilter⟩ := hwrites
    rw [forall₂_nil_left_iff.1 hrest] at hfilter
    exact ⟨written, b, receiver, hfilter, hwritten⟩
  subst hname
  obtain ⟨hgenerics, rfl⟩ | ⟨hgenerics, rfl, t, own, answer, t', hrequest⟩ := hslot
  · exact Session.filter_pieces_of_slot happart
      ⟨hmem, hplain, forall_mem_nil _, fun _ => rfl⟩ hinstances
      (.inr ⟨hgenerics, hcode.resolve_left (not_not.2 hgenerics)⟩)
  · obtain ⟨-, rfl⟩ := hrequest.runs.of_ask
    exact Session.filter_pieces_of_slot happart
      ⟨hmem, hplain, hrequest.over_of_require happart.types, fun hnil => absurd hnil hgenerics⟩
      hinstances (.inl ⟨hgenerics, hrequest.count_instances mem_cons_self⟩)

/-- A table that is written is a constant of the module. -/
theorem Passes.mem_globals {table : String} {entries : List (Option String)} {events : List Event}
    (h : Passes program settings output (perform (.writeTable table entries)) s events () s') :
    .table table entries ∈ output.assembly.globals.toList := by
  obtain ⟨-, rfl⟩ := h.runs.of_ask
  obtain ⟨all, last, hall, rfl, hpart⟩ := h.occurs.part
  refine hall.leaves (M := fun t => .table table entries ∈ t.assembly.globals.toList)
    (fun _ _ t t' hstep ht => (Move.grows_of_perform hstep).assembly.globals.subset ht)
    (hpart.subset mem_cons_self) fun t t' hstep => ?_
  cases hstep
  exact Array.mem_toList_iff.2 Array.mem_push_self

/-- Dispatch reaches the implementation of the behavior. Where a table of a type for a behavior is
written, it is a constant of the module with a slot for each method of the behavior. A symbol in a
slot belongs to the method of that name of the type's implementation of the behavior. If that
implementation is generic, or belongs to the module at hand and has code for the method, one
function of the module has the symbol, and it is what lowering that method wrote, provided that
the program sets the type apart. -/
theorem dispatches_of_writeTable {selfTy : Ty} {behavior : String} {behaviorArgs : List Ty}
    {events : List Event} (h : Passes program settings output
      (writeTable (.behavior selfTy behavior behaviorArgs)) s events () s') {name : String}
    {args : List Ty} (hself : selfTy.nominal?.getD ("", []) = (name, args))
    (happart : program.SetsApart name) :
    ∃ entries, .table (Dispatch.behaviorTable selfTy behavior behaviorArgs) entries ∈
        output.assembly.globals.toList ∧
      entries.length = ((program.behaviorOrder? behavior).getD []).length ∧
      ∀ (i : Nat) (symbol : String), entries[i]? = some (some symbol) → ∃ method origin impl f,
        ((program.behaviorOrder? behavior).getD [])[i]? = some method ∧
        program.implOf? name behavior = some (origin, impl) ∧ impl.method? method = some f ∧
        (impl.generics ≠ [] ∨ origin = .home ∧ f.body.isSome = true → ∃ written b receiver,
          (output.assembly.functions.toList.filter fun own => own.symbol? = some symbol) =
            [written] ∧
          Writes program settings output (.function f symbol b receiver) written) := by
  obtain ⟨_, entries, mid, _, hentries, hwrite, -⟩ := h.bind
  obtain ⟨own, hentries, -⟩ := hentries.ofGen
  obtain ⟨own, hentries⟩ := hentries.program_bind
  have hslots := hentries.mapM
  refine ⟨entries, hwrite.mem_globals, hslots.length_eq.symm, fun i symbol hsymbol => ?_⟩
  obtain ⟨hi, hget⟩ := List.getElem?_eq_some_iff.1 hsymbol
  have hi' : i < ((program.behaviorOrder? behavior).getD []).length := by
    rwa [hslots.length_eq]
  obtain ⟨t, own, t', hentry⟩ := hslots.get hi' hi
  rw [List.get_eq_getElem, List.get_eq_getElem, hget] at hentry
  obtain ⟨origin, impl, f, himpl, hf, hwrites⟩ := hentry.writes_of_behaviorEntry hself happart
  exact ⟨_, origin, impl, f, List.getElem?_eq_getElem hi', himpl, hf, hwrites⟩

/-- The tables that the code of the module at hand requests are written. -/
theorem passes_writeTable (h : compile program settings = .ok output)
    {requests : List Dispatch.Request}
    (hpending : ((Gen.registerCtors >>= fun _ => Gen.homeItems).run
      (Step.perform ⟨program, settings⟩) (.initial settings)).toOption.map
        (fun result => result.2.tables.pending) = some requests)
    {request : Dispatch.Request} (hrequest : request ∈ requests) :
    ∃ s events s', Passes program settings output (writeTable request) s events () s' := by
  obtain ⟨trail, _, last, hhome, rfl⟩ := exists_runs_of_map_run hpending
  obtain ⟨_, _, _, _, _, _, _, _, _, hregister, hlower, hdrain, -⟩ := phases_of_compile_eq_ok h
  obtain ⟨-, -, rfl⟩ := hhome.unique (hregister.runs.bind hlower.runs)
  obtain ⟨writing, _, s₁, rest₁, hwrite, -, -⟩ := hdrain.bind
  obtain ⟨taking, taken, s₂, rest₂, htake, hwrite, -⟩ := hwrite.bind
  obtain ⟨hperform, -⟩ := htake.runs.of_ask
  cases hperform
  exact hwrite.forM hrequest

/-- The implementation of a behavior by a generic struct. -/
def showImpl : ImplDef where
  selfTy := .ofName "Cell" [.ofName "T" []]
  generics := ["T"]
  behavior := some "Show"
  methods := [numbered "show" 2]

/-- A generic struct with an inherent method of a given name, an implementation of a behavior and a
value that is known through the behavior only. -/
def shownCell (inherent : String) : Program where
  home := {
    structs := .ofList [
      { name := "Cell", generics := ["T"], fields := [{ name := "v", ty := .ofName "T" [] }] }]
    behaviors := .ofList [{ name := "Show", methods := [⟨"show", [], .prim .i32⟩] }]
    impls := [
      { selfTy := .ofName "Cell" [.ofName "T" []], generics := ["T"]
        methods := [numbered inherent 1] },
      showImpl]
    functions := .ofList [
      { name := "f", params := [⟨"c", .ofName "Cell" [.prim .i32]⟩]
        body := some (.mk [.bind "d" (some (.dyn "Show" [])) (.ident {} "c")] none) }] }

theorem setsApart_shownCell : (shownCell "size").SetsApart "Cell" where
  types := by decide +kernel
  implMethods := by decide
  classMethods := by decide
  functions := by decide
  sole := by decide
  classes := by decide

theorem dispatches_of_writeTable_shownCell :
    (shownCell "size").SetsApart "Cell" ∧ ∃ output,
      compile (shownCell "size") { depth := 9 } = .ok output ∧
      (∃ s events s', Passes (shownCell "size") { depth := 9 } output
        (writeTable (.behavior (.ofName "Cell" [.prim .i32]) "Show" [])) s events () s') ∧
      output.assembly.globals.toList =
        [.table "@vtable.Cell__I32.Show" [some "@tml_Cell__I32_show"]] ∧
      ∃ written b receiver,
        (output.assembly.functions.toList.filter fun own =>
          own.symbol? = some "@tml_Cell__I32_show") = [written] ∧
        Writes (shownCell "size") { depth := 9 } output
          (.function (numbered "show" 2) "@tml_Cell__I32_show" b receiver) written := by
  have hpending : ((Gen.registerCtors >>= fun _ => Gen.homeItems).run
      (Step.perform ⟨shownCell "size", { depth := 9 }⟩) (.initial { depth := 9 })).toOption.map
        (fun result => result.2.tables.pending) =
      some [.behavior (.ofName "Cell" [.prim .i32]) "Show" []] := by
    decide +kernel
  obtain ⟨output, hcompile, hglobals⟩ := exists_of_compile (P := fun output =>
      output.assembly.globals.toList =
        [.table "@vtable.Cell__I32.Show" [some "@tml_Cell__I32_show"]])
    (by decide +kernel : (compile (shownCell "size") { depth := 9 }).toOption.any _)
  obtain ⟨s, events, s', hpasses⟩ := passes_writeTable hcompile hpending List.mem_cons_self
  obtain ⟨entries, hmem, -, hslots⟩ :=
    dispatches_of_writeTable hpasses rfl setsApart_shownCell
  rw [hglobals] at hmem
  cases List.mem_singleton.1 hmem
  obtain ⟨method, origin, impl, f, hmethod, himpl, hf, hwrites⟩ :=
    hslots 0 "@tml_Cell__I32_show" rfl
  cases hmethod
  cases himpl
  cases hf
  exact ⟨setsApart_shownCell, output, hcompile, ⟨s, events, s', hpasses⟩, hglobals,
    hwrites (.inl (List.cons_ne_nil _ _))⟩

/-- The inherent method takes the place of the method of that name that implements the behavior: the
code in the slot returns the number of the one and not that of the other. -/
theorem misdispatches_shownCell :
    (shownCell "show").implOf? "Cell" "Show" = some (.home, showImpl) ∧
      showImpl.method? "show" = some (numbered "show" 2) ∧ ∃ output,
      compile (shownCell "show") { depth := 9 } = .ok output ∧
      output.assembly.globals.toList =
        [.table "@vtable.Cell__I32.Show" [some "@tml_Cell__I32_show"]] ∧
      (output.assembly.functions.toList.filter fun own =>
        own.symbol? = some "@tml_Cell__I32_show").map (fun own => own.lines.toList) =
          [[.instr (.ret (some ⟨.i32, .int 1⟩))]] :=
  ⟨rfl, rfl, exists_of_compile (by decide +kernel)⟩

end Compile

end Monomorph
