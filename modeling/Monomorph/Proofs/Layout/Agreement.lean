import Monomorph.Proofs.Layout.Bodies
import Monomorph.Proofs.Layout.Footprint
import Monomorph.Proofs.Layout.History

/-!
# Layout agrees with emission

The extent that a query gives for a type is the size and the alignment that the usual rules for C
give to the representation of the type, where every named type is replaced by the body that is
written for it. This holds after any queries before it, as long as all names are clean: the symbol
of a type with other names can be that of a different type, whose extent is then remembered. A union
is written as bytes, so that its body has its size and no alignment.

## Main results

* `Layout.agrees_of_sized`, `Layout.extentOf_agrees`, `Layout.remembered_of_unclean`,
  `Layout.union_measures`.
-/

namespace Monomorph.Layout

open List IR.Ty Monomorph.Symbol

variable {p : Program} {n : Nat} {t u : Ty} {name : String} {args ts : List Ty} {body : IR.Ty}
  {e : Extent} {es : List Extent} {g : Ty → Extent} {d : StructDef}

/-! ### Names have one body -/

theorem Sigil.append_inj {sigil sigil' : Sigil} {a b : String}
    (h : sigil.text ++ a = sigil'.text ++ b) : sigil = sigil' ∧ a = b := by
  have h := congrArg String.toList h
  rw [String.toList_append, String.toList_append] at h
  cases sigil <;> cases sigil' <;> simp [Sigil.text] at h <;>
    exact ⟨rfl, String.toList_inj.1 h⟩

/-- Structs that are written while a type is represented are boxed wrappers. -/
theorem Direct.isWrapped (h : Direct .struct name args body) :
    Layout.isWrapped name args = true := by
  cases h with
  | boxed h arg =>
    rw [Layout.isWrapped, h]
    rfl

theorem forall₂_sized_congr {ts' : List Ty} (h : ts.map Ty.unqualified = ts'.map Ty.unqualified)
    (hts : List.Forall₂ (Sized p none) ts es) : List.Forall₂ (Sized p none) ts' es := by
  have hsized : (fun u => Sized p none u.unqualified) = Sized p none := by
    funext u e
    exact propext ⟨Sized.congr (Ty.unqualified_unqualified u),
      Sized.congr (Ty.unqualified_unqualified u).symm⟩
  rw [← hsized, ← forall₂_map_left_iff] at hts ⊢
  rwa [← h]

theorem acc_of_shape_eq (h : shape p t = shape p u) (hacc : Acc (Part p) t.unqualified) :
    Acc (Part p) u.unqualified := by
  refine ⟨_, ?_⟩
  rintro _ ⟨part, hpart, rfl⟩
  obtain ⟨v, hv, heq⟩ := exists_mem_parts (Ty.unqualified_unqualified u).symm hpart
  rw [← heq]
  exact hacc.inv (part_of_mem (h ▸ hv))

section

variable (hp : p.HasCleanTypes)

include hp

/-- What is remembered after queries is true. -/
theorem Reachable.sound {memo : Memo} (h : Reachable p memo) : Sound p Ty.Writable [] memo :=
  (h.history hp).sound (tellsApart_writable hp)

/-- A name for which a body is written has the footprint of that body, if its base has no other
body for arguments that are the same up to qualifiers. -/
theorem measures_of_body (sigil : Sigil) (hkey : IsCleanKey name args)
    (hsole : ∀ args' other, Ty.unqualifiedList args' = Ty.unqualifiedList args →
      (∀ t ∈ args', t.Writable) → Body p sigil name args' other → other = body)
    (hbody : Emits p (sigil.text ++ ofInstance name args) body) (h : Measures (Emits p) body e) :
    Measures (Emits p) (.named (sigil.text ++ ofInstance name args)) e := by
  refine measures_named (fun other => ⟨fun hother => ?_, fun heq => heq ▸ hbody⟩) h
  obtain ⟨sigil', base, args', hname, hkey', hother⟩ := hother.isBody hp
  obtain ⟨rfl, hsymbol⟩ := Sigil.append_inj hname
  obtain ⟨rfl, hargs⟩ := key_eq_of_ofInstance_eq hkey.isKey hkey'.isKey hsymbol
  exact hsole args' other hargs.symm hkey'.args hother

theorem measures_dyn {behavior : String} (h : (Ty.dyn behavior args).Writable) :
    Measures (Emits p) (.named ("%dyn." ++ ofInstance behavior args)) .fatPointer := by
  have hclean := (Ty.writable_dyn ..).1 h
  refine measures_of_body hp .dyn ⟨hclean.1, hclean.2.2⟩ (fun _ _ _ _ hbody => ?_) (emits_dyn h)
    measures_fatPtr
  obtain ⟨⟨⟩⟩ := hbody
  rfl

theorem measures_boxed (ht : t.Writable) {wrapper : Wrapper} {arg : Ty}
    (hkey : IsCleanKey name [arg]) (hdeclared : t.declared? = some (name, [arg]))
    (hwrapper : Wrapper.ofName? name = some wrapper) (hboxed : wrapper.isBoxed = true) :
    Measures (Emits p) (.named ("%struct." ++ ofInstance name [arg])) .pointer := by
  have hwrapped : isWrapped name [arg] = true := by
    rw [isWrapped, hwrapper]
    rfl
  have hpointer : Measures (Emits p) (.anon [.ptr]) .pointer :=
    measures_anon (.cons measures_ptr .nil) (by decide) rfl
  refine measures_of_body hp .struct hkey (fun _ _ hargs _ hbody => ?_)
    (emits_boxed ht hdeclared hwrapper hboxed) hpointer
  cases hbody with
  | direct h =>
    cases h
    rfl
  | struct hno | enum hno =>
    rw [isWrapped_congr hargs, hwrapped] at hno
    cases hno

/-! ### Answers that follow from the definitions -/

/-- If what lies inside a type comes to an end, then the query for it answers with the extent that
follows from the definitions, unless it goes too deep. -/
theorem meets_sized (ht : t.Writable) (hacc : Acc (Part p) t.unqualified) (h : Sized p none t e)
    (n : Nat) :
    Meets (¬ (symbolsWithin p t).ncard ≤ n) False (Sound p Ty.Writable []) (extentOf p n t)
      (· = e) := by
  have huntangled := untangled_of_acc hacc
  intro memo hmemo
  have hsettles := settles_extentOf (n := n) (tellsApart_writable hp) ht (.outermost t) memo hmemo
  cases hrun : (extentOf p n t).run memo with
  | ok result =>
    rw [hrun] at hsettles
    exact ⟨hsettles.1, (hsettles.2 huntangled).unique h⟩
  | error fault =>
    rw [hrun] at hsettles
    cases fault with
    | overflow => exact hsettles huntangled ⟨e, h⟩
    | tooDeep =>
      intro hn
      obtain ⟨a, memo', hok⟩ | ⟨operation, herror⟩ :=
        extentOf_returns (finite_symbolsWithin_of_acc hacc) hn memo
      · cases hrun.symm.trans hok
      · cases hrun.symm.trans herror
    | nonConvergent => exact hsettles

/-- The words for the payloads of an enum, if what lies inside them comes to an end. -/
theorem meets_payloadWords {d : EnumDef}
    (hpayloads : ∀ u ∈ payloads d args, u.Writable ∧ Acc (Part p) u.unqualified)
    (hes : List.Forall₂ (Sized p none) (payloads d args) es) (n : Nat) :
    Meets (¬ ∀ u ∈ payloads d args, (symbolsWithin p u).ncard ≤ n) False (Sound p Ty.Writable [])
      (payloadWords p n d args) fun words => words = wordsFor (es.map Extent.size) := by
  have hparts : ∀ u ∈ payloads d args,
      Meets (¬ ∀ u ∈ payloads d args, (symbolsWithin p u).ncard ≤ n) False (Sound p Ty.Writable [])
        (extentOf p n u) (Sized p none u) := by
    intro u hu
    obtain ⟨e, -, he⟩ := exists_of_forall₂ hes u hu
    exact (meets_sized hp (hpayloads u hu).1 (hpayloads u hu).2 he n).mono
      (fun hno hn => hno (hn u hu)) id fun _ ha => ha ▸ he
  refine (meets_payloadWordsWith hparts).mono id id ?_
  rintro words ⟨es', hes', rfl⟩
  rw [eq_of_forall₂ (fun _ _ _ _ h h' => h.unique h') hes' hes]

/-! ### Nominal types -/

variable (ht : t.Writable) (hdeclared : t.declared? = some (name, args))
  (hrequest : IsRequest p name args)

include ht hdeclared hrequest

theorem measures_struct (hd : p.struct? name = some d) (hunion : d.isUnion = false)
    (h : Measures (Emits p) (.anon (p.irs (d.fieldTypes args))) e) :
    Measures (Emits p) (.named ("%struct." ++ ofInstance name args)) e := by
  refine measures_of_body hp .struct hrequest.key (fun _ _ hargs _ hbody => ?_)
    (emits_of_requested 0 ht hdeclared (.struct hrequest hd) (Gen.asks_generate_struct hd hunion)) h
  have hwrapped := (isWrapped_congr hargs name).trans hrequest.notWrapped
  cases hbody with
  | direct h => cases h.isWrapped.symm.trans hwrapped
  | struct _ hd' =>
    cases hd.symm.trans hd'
    exact congrArg IR.Ty.anon (p.irs_congr (map_typesUnder hargs d.generics d.fields))
  | enum _ hstruct => cases hd.symm.trans hstruct

theorem measures_tagged {d : EnumDef} (hstruct : p.struct? name = none)
    (hd : p.enum? name = some d) (hshape : shape p t = .tagged (payloads d args))
    (hacc : Acc (Part p) t.unqualified) (hes : List.Forall₂ (Sized p none) (payloads d args) es)
    (h : enumExtent (wordsFor (es.map Extent.size)) = .ok e) :
    Measures (Emits p) (.named ("%struct." ++ ofInstance name args)) e := by
  obtain ⟨m, hm, hitem⟩ := Program.mem_of_lookup hd
  have hwritable : ∀ {args : List Ty}, (∀ t ∈ args, t.Writable) →
      ∀ u ∈ payloads d args, u.Writable :=
    fun hargs => EnumDef.writable_payloads (hp.enums m hm d hitem) hargs
  have hmem : ∀ u ∈ payloads d args, u ∈ (shape p t).parts := by
    rw [hshape]
    exact fun _ => id
  have hinside : ∀ u ∈ payloads d args, Acc (Part p) u.unqualified :=
    fun u hu => hacc.inv (part_of_mem (hmem u hu))
  refine measures_of_body hp .struct hrequest.key (fun args' _ hargs hargs' hbody => ?_) ?_
    (measures_enum _ h).1
  · have hwrapped := (isWrapped_congr hargs name).trans hrequest.notWrapped
    cases hbody with
    | direct h => cases h.isWrapped.symm.trans hwrapped
    | struct _ hd' => cases hstruct.symm.trans hd'
    | enum _ _ hd' hmemo hwords =>
      cases hd.symm.trans hd'
      have hpayloads := map_payloads hargs d
      have hinside' : ∀ u ∈ payloads d args', Acc (Part p) u.unqualified := by
        intro u hu
        have hmem := mem_map_of_mem (f := Ty.unqualified) hu
        rw [hpayloads] at hmem
        obtain ⟨v, hv, heq⟩ := mem_map.1 hmem
        exact heq ▸ hinside v hv
      have hmeets := meets_payloadWords hp (fun u hu => ⟨hwritable hargs' u hu, hinside' u hu⟩)
        (forall₂_sized_congr hpayloads.symm hes)
      rw [((hmeets _).of_run_eq_ok (hmemo.sound hp) hwords).2]
  · have hdepth : ∀ u ∈ payloads d args, (symbolsWithin p u).ncard ≤ (symbolsWithin p t).ncard :=
      fun u hu => Set.ncard_le_ncard (symbolsWithin_subset (within_of_mem (hmem u hu)))
        (finite_symbolsWithin_of_acc hacc)
    have hmeets := meets_payloadWords hp
      (fun u hu => ⟨hwritable hrequest.key.args u hu, hinside u hu⟩) hes (symbolsWithin p t).ncard
    obtain ⟨words, memo, hrun, rfl⟩ :=
      hmeets.exists_run (not_not.2 hdepth) (Reachable.initial.sound hp)
    exact emits_of_requested _ ht hdeclared (.enum hrequest hstruct hd)
      (Gen.asks_generate_enum hd hrun)

/-- What is written for a union has its size, but no alignment. -/
theorem measures_union (hd : p.struct? name = some d) (hunion : d.isUnion = true)
    (hacc : Acc (Part p) t.unqualified) (h : Sized p none t e) :
    Measures (Emits p) (.named ("%union." ++ ofInstance name args)) ⟨e.size, 1⟩ := by
  have hname := Program.name_of_struct? (isBare_of_isClean hrequest.key.base) hd
  have hshape : shape p t = shape p (.ofName name args) := shape_of_declared? hdeclared
  have hwritable : ∀ {args' : List Ty}, Ty.unqualifiedList args' = Ty.unqualifiedList args →
      (∀ t ∈ args', t.Writable) → (Ty.ofName name args').Writable := by
    intro args' hargs hargs'
    have hlength := congrArg List.length hargs
    rw [Ty.length_unqualifiedList, Ty.length_unqualifiedList] at hlength
    refine (Ty.writable_named ..).2 ⟨hrequest.key.base, ?_, hargs'⟩
    rw [hlength]
    obtain ⟨qualifier, rfl⟩ | ⟨rfl, rfl⟩ := Ty.eq_of_declared? hdeclared
    · exact ((Ty.writable_named ..).1 ht).2.1
    · decide
  have hacc' := acc_of_shape_eq hshape hacc
  have hsized := h.of_shape_eq hshape (not_transGen_of_acc hacc) (not_transGen_of_acc hacc')
  refine measures_of_body hp .union hrequest.key (fun args' _ hargs hargs' hbody => ?_) ?_
    (measures_bytes e.size)
  · cases hbody with
    | direct h => cases h
    | union hd' hmemo he =>
      cases hd.symm.trans hd'
      rw [hname] at he
      have heq : (Ty.ofName name args).unqualified = (Ty.ofName name args').unqualified := by
        rw [Ty.ofName, Ty.ofName, Ty.unqualified, Ty.unqualified, hargs]
      rw [((meets_sized hp (hwritable hargs hargs') (heq ▸ hacc') (hsized.congr heq) _).of_run_eq_ok
        (hmemo.sound hp) he).2]
  · obtain ⟨_, memo, hrun, rfl⟩ := (meets_sized hp (hwritable rfl hrequest.key.args) hacc' hsized
      (symbolsWithin p (.ofName name args)).ncard).exists_run (not_not.2 (Nat.le_refl _))
        (Reachable.initial.sound hp)
    rw [← hname] at hrun
    exact emits_of_requested _ ht hdeclared (.struct hrequest hd)
      (Gen.asks_generate_union hd hunion hrun)

theorem measures_cls {d : ClassDef} (hd : p.class? name = some d)
    (h : Measures (Emits p) (.anon (d.firstIr :: p.irs (d.fieldTypes args))) e) :
    Measures (Emits p) (.named ("%class." ++ ofInstance name args)) e := by
  have hbare := isBare_of_isClean hrequest.key.base
  have hname := Program.notMem_of_mem_classes hp.nodup (Program.name_of_lookup hbare hd).2
  refine measures_of_body hp .cls hrequest.key (fun _ _ hargs _ hbody => ?_)
    (emits_of_requested 0 ht hdeclared (.cls hrequest (Program.lookup_eq_none hbare hname.1)
      (Program.lookup_eq_none hbare hname.2) hd) (Gen.asks_generate_cls hd)) h
  cases hbody with
  | direct h => cases h
  | cls hd' =>
    cases hd.symm.trans hd'
    exact congrArg (fun fields => IR.Ty.anon (d.firstIr :: fields))
      (p.irs_congr (map_typesUnder hargs d.generics d.fields))

end

/-! ### Types have one footprint -/

/-- An extent is the only footprint of the representation of a type. -/
structure Agrees (p : Program) (t : Ty) (e : Extent) : Prop where
  measures : Measures (Emits p) (p.ir t) e
  padded : e.IsPadded

theorem agrees_prim (kind : Primitive) : Agrees p (.prim kind) kind.extent := by
  refine ⟨?_, Extent.isPadded_primitive kind⟩
  rw [Program.ir]
  cases kind with
  | unit | never => exact measures_empty
  | _ => exact measures_scalar rfl rfl

section

variable (h : ∀ t ∈ ts, Agrees p t (g t))

include h

/-- Members whose extents agree. -/
theorem agrees_members : List.Forall₂ (Measures (Emits p)) (p.irs ts) (ts.map g) ∧
      ∀ e ∈ ts.map g, 0 < e.align.toNat := by
  rw [p.irs_eq_map, forall₂_map_left_iff, forall₂_map_right_iff, forall₂_same]
  exact ⟨fun t ht => (h t ht).measures, forall_mem_map.2 fun t ht => (h t ht).padded.pos⟩

theorem agrees_record (hrecord : Extent.record (ts.map g) = .ok e) :
    Measures (Emits p) (.anon (p.irs ts)) e ∧ e.IsPadded := by
  obtain ⟨hfields, hpos⟩ := agrees_members h
  exact ⟨measures_anon hfields hpos hrecord, (Extent.isRecord_record hpos hrecord).2⟩

theorem agrees_block {base : Extent} {first : IR.Ty} (hfirst : Measures (Emits p) first base)
    (hbase : base.IsPadded) (hrecord : Extent.record (base :: ts.map g) = .ok e) :
    Measures (Emits p) (.anon (first :: p.irs ts)) e ∧ e.IsPadded := by
  obtain ⟨hfields, hpos⟩ := agrees_members h
  have hpos : ∀ e ∈ base :: ts.map g, 0 < e.align.toNat := forall_mem_cons.2 ⟨hbase.pos, hpos⟩
  exact ⟨measures_anon (.cons hfirst hfields) hpos hrecord, (Extent.isRecord_record hpos hrecord).2⟩

end

/-- A class with a lineage is represented by the blocks of its ancestors inside each other. -/
theorem measures_lineage (hp : p.HasCleanTypes) {ds : List ClassDef} (h : p.Lineage name ds)
    (ht : t.Writable) (hdeclared : t.declared? = some (name, args))
    (hrequest : IsRequest p name args) {own : ClassDef} {ancestors : List ClassDef}
    (hds : ds = own :: ancestors) {blocks : List (List Ty)}
    (hblocks : blocks = ancestors.map fun ancestor => ancestor.fieldTypes [])
    (hparts : ∀ u ∈ (own.fieldTypes args :: blocks).flatten, Agrees p u (g u))
    (heval : (Shape.blocks (own.fieldTypes args :: blocks)).eval g = .ok e) :
    Measures (Emits p) (.named ("%class." ++ ofInstance name args)) e ∧ e.IsPadded := by
  induction h generalizing t args own ancestors blocks e with
  | root hd hbase =>
    cases hds
    subst hblocks
    rw [Shape.eval, map_nil, foldrM_cons, foldrM_nil, pure_bind] at heval
    have hbody := agrees_block (forall_mem_append.1 hparts).1 measures_ptr
      Extent.isPadded_pointer heval
    refine ⟨measures_cls hp ht hdeclared hrequest hd ?_, hbody.2⟩
    rw [ClassDef.firstIr, hbase]
    exact hbody.1
  | @derived name base d ds hd hbase hbare hrest ih =>
    cases hds
    obtain ⟨parent, hparent⟩ := hrest.class?
    obtain ⟨grandparents, rfl⟩ := hrest.eq_cons hparent
    have hmem := (Program.name_of_lookup hbare hparent).2
    have hclean := hp.names base (mem_append_right _ hmem)
    have hparentRequest : IsRequest p base [] :=
      ⟨⟨hclean, forall_mem_nil _⟩, by rw [isWrapped, Bool.and_comm]; rfl, rfl⟩
    obtain ⟨hown, hancestors⟩ := forall_mem_append.1 hparts
    subst hblocks
    rw [Shape.eval, foldrM_cons] at heval
    cases hblock : (Shape.blocks ((parent :: grandparents).map fun ancestor =>
        ancestor.fieldTypes [])).eval g with
    | error fault =>
      rw [Shape.eval] at hblock
      rw [hblock] at heval
      cases heval
    | ok block =>
      obtain ⟨hfirst, hpadded⟩ := ih ((Ty.writable_classRef base).2 hclean) rfl hparentRequest rfl
        rfl hancestors hblock
      rw [Shape.eval] at hblock
      rw [hblock] at heval
      have hbody := agrees_block hown hfirst hpadded heval
      refine ⟨measures_cls hp ht hdeclared hrequest hd ?_, hbody.2⟩
      rw [ClassDef.firstIr, hbase]
      exact hbody.1

/-- A nominal type whose extent its representation keeps: its arguments are closed, a union has no
alignment to keep, and if it is a value class, its bases are known and end. -/
structure IsFaithful (p : Program) (t : Ty) (name : String) (args : List Ty) : Prop where
  closed : p.isOpenList args = false
  /-- A union has no alignment. -/
  union : ∀ d, p.struct? name = some d → d.isUnion = true → ∀ e, Sized p none t e → e.align = 1
  /-- The bases are known and end. -/
  lineage : ∀ d, p.class? name = some d → d.isValue = true → ∃ ds, p.Lineage name ds

/-- Every nominal type inside a type keeps its extent, where wrappers are not unfolded. -/
def Faithful (p : Program) (t : Ty) : Prop :=
  ∀ u name args, Within p u t → u.declared? = some (name, args) → isWrapped name args = false →
    IsFaithful p u name args

theorem Faithful.of_mem_parts (h : Faithful p t) (hu : u ∈ (shape p t).parts) : Faithful p u :=
  fun v name args hv => h v name args (hv.trans (within_of_mem hu))

theorem UnfoldsIn.of_within (ht : UnfoldsIn p n t) (h : Within p u t) : UnfoldsIn p n u := by
  have hinside : ∀ {s : Ty}, Relation.ReflTransGen (Part p) s t.unqualified → UnfoldsIn p n s := by
    intro s h
    induction h using Relation.ReflTransGen.head_induction_on with
    | refl => exact ht.congr (Ty.unqualified_unqualified t).symm
    | head hpart _ ih =>
      obtain ⟨part, hpart, rfl⟩ := hpart
      exact (ih.of_mem_parts hpart).congr (Ty.unqualified_unqualified part).symm
  exact (hinside h).congr (Ty.unqualified_unqualified u)

theorem UnfoldsIn.faithful (ht : UnfoldsIn p n t) : Faithful p t := by
  intro u name args hu hdeclared hwrapped
  cases n with
  | zero => exact ht.elim
  | succ n =>
    have hplain := (ht.of_within hu).1 name args hdeclared hwrapped
    refine ⟨hplain.closed, fun d hd hunion => ?_, hplain.lineage⟩
    cases hunion.symm.trans (hplain.noUnion d hd)

theorem agrees_nominal (hp : p.HasCleanTypes) (ht : t.Writable)
    (hdeclared : t.declared? = some (name, args)) (hacc : Acc (Part p) t.unqualified)
    (hfaithful : Faithful p t) (hsized : Sized p none t e)
    (hinside : ∀ u ∈ (nominalShape p name args).parts, Sized p none u (g u))
    (hparts : ∀ u ∈ (nominalShape p name args).parts, Agrees p u (g u))
    (h : (nominalShape p name args).eval g = .ok e) : Agrees p t e := by
  have hkey := Gen.isCleanKey_of_declared? ht hdeclared
  suffices h : Measures (Emits p) (p.nominalIr name args) e ∧ e.IsPadded by
    rw [← p.ir_of_declared? hkey.base hdeclared] at h
    exact ⟨h.1, h.2⟩
  by_cases hwrapped : isWrapped name args = true
  · rw [nominalShape, if_pos hwrapped] at h
    cases h
    refine ⟨?_, Extent.isPadded_pointer⟩
    obtain ⟨wrapper, arg, hwrapper, rfl⟩ := exists_of_isWrapped hwrapped
    simp only [Program.nominalIr, hwrapper]
    split
    · exact measures_boxed hp ht hkey hdeclared hwrapper ‹_›
    · exact measures_ptr
  · have hwrapped := Bool.eq_false_iff.2 hwrapped
    have hplain := hfaithful t name args (.refl t) hdeclared hwrapped
    have hrequest : IsRequest p name args := ⟨hkey, hwrapped, hplain.closed⟩
    have hbare := isBare_of_isClean hkey.base
    have hsymbol : ∀ base, p.symbolOf base args = ofInstance base args := by
      intro base
      rw [Program.symbolOf, hplain.closed, if_neg Bool.false_ne_true]
    have hshape := shape_of_declared? (p := p) hdeclared
    rw [nominalShape_of_not_isWrapped hwrapped, definitionShape] at h hparts hinside hshape
    rw [p.nominalIr_of_not_isWrapped hwrapped, Program.definedIr]
    cases hstruct : p.struct? name with
    | some d =>
      simp only [hstruct] at h hparts ⊢
      rw [hsymbol, Program.name_of_struct? hbare hstruct]
      cases hunion : d.isUnion with
      | false =>
        simp only [hunion, if_neg Bool.false_ne_true] at h hparts ⊢
        have hbody := agrees_record hparts h
        exact ⟨measures_struct hp ht hdeclared hrequest hstruct hunion hbody.1, hbody.2⟩
      | true =>
        have halign := hplain.union d hstruct hunion e hsized
        have hextent : e = ⟨e.size, 1⟩ := by rw [← halign]
        rw [if_pos rfl, hextent]
        exact ⟨measures_union hp ht hdeclared hrequest hstruct hunion hacc hsized,
          Nat.one_pos, Nat.one_dvd _⟩
    | none =>
      cases henum : p.enum? name with
      | some d =>
        simp only [hstruct, henum] at h hinside hshape ⊢
        have hes : List.Forall₂ (Sized p none) (payloads d args) ((payloads d args).map g) := by
          rw [forall₂_map_right_iff, forall₂_same]
          exact hinside
        rw [hsymbol, hplain.closed, if_neg Bool.false_ne_true, Program.name_of_enum? hbare henum]
        exact ⟨measures_tagged hp ht hdeclared hrequest hstruct henum hshape hacc hes h,
          (measures_enum (Emits p) h).2⟩
      | none =>
        cases hclass : p.class? name with
        | none =>
          simp only [hstruct, henum, hclass] at h ⊢
          cases h
          exact ⟨measures_ptr, Extent.isPadded_pointer⟩
        | some d =>
          simp only [hstruct, henum, hclass] at h hparts ⊢
          cases hvalue : d.isValue with
          | true =>
            obtain ⟨ds, hlineage⟩ := hplain.lineage d hclass hvalue
            obtain ⟨ancestors, rfl⟩ := hlineage.eq_cons hclass
            rw [hvalue, if_pos rfl, classShape_of_lineage hbare hclass hlineage] at h hparts
            rw [if_pos rfl, hsymbol, Program.name_of_class? hbare hclass]
            exact measures_lineage hp hlineage ht hdeclared hrequest rfl rfl hparts h
          | false =>
            rw [hvalue, if_neg Bool.false_ne_true] at h
            cases h
            rw [if_neg Bool.false_ne_true]
            exact ⟨measures_ptr, Extent.isPadded_pointer⟩

/-- The extent that follows from the definitions is the only footprint of the representation of a
type, if what lies inside the type comes to an end and keeps its extents. -/
theorem agrees_of_sized (hp : p.HasCleanTypes) (ht : t.Writable)
    (hacc : Acc (Part p) t.unqualified) (hfaithful : Faithful p t) (h : Sized p none t e) :
    Agrees p t e := by
  generalize hs : t.unqualified = s at hacc
  induction hacc generalizing t e with
  | intro s hinv ih =>
    subst hs
    have hacc : Acc (Part p) t.unqualified := ⟨_, hinv⟩
    obtain ⟨g, hsized, heval⟩ := h.exists_eval (not_transGen_of_acc hacc)
    have hparts : ∀ u ∈ (shape p t).parts, Agrees p u (g u) := fun u hu =>
      ih _ (part_of_mem hu) (hp.writable_parts ht u hu) (hfaithful.of_mem_parts hu) (hsized u hu)
        rfl
    cases t with
    | prim kind =>
      cases heval
      exact agrees_prim kind
    | ref | ptr =>
      cases heval
      exact ⟨by rw [Program.ir]; exact measures_ptr, Extent.isPadded_pointer⟩
    | func | closure =>
      cases heval
      exact ⟨by rw [Program.ir]; exact measures_fatPtr, Extent.isPadded_fatPointer⟩
    | slice elem =>
      cases heval
      have hlength : Measures (Emits p) .i64 ⟨8, 8⟩ := measures_scalar rfl rfl
      refine ⟨?_, Extent.isPadded_fatPointer⟩
      rw [Program.ir]
      exact measures_anon (.cons measures_ptr (.cons hlength .nil)) (by decide) rfl
    | dyn behavior args =>
      cases heval
      refine ⟨?_, Extent.isPadded_fatPointer⟩
      rw [Program.ir]
      exact measures_dyn hp ht
    | tuple elems =>
      have hbody := agrees_record hparts heval
      refine ⟨?_, hbody.2⟩
      rw [Program.ir]
      split
      next hempty =>
        rw [List.isEmpty_iff.1 hempty] at heval
        cases heval
        exact measures_empty
      · exact hbody.1
    | array elem length =>
      have helem := hparts elem mem_cons_self
      refine ⟨?_, (Extent.footprint_array helem.padded heval).2⟩
      rw [Program.ir]
      exact measures_array helem.measures helem.padded heval
    | classRef | named => exact agrees_nominal hp ht rfl hacc hfaithful h hsized hparts heval

/-! ### Queries agree with emission -/

/-- What a query answers for a type with finite containment follows from the definitions. -/
theorem sized_of_run (hp : p.HasCleanTypes) (ht : t.Writable) (hacc : Acc (Part p) t.unqualified)
    {memo memo' : Memo} (hmemo : Reachable p memo)
    (he : (extentOf p n t).run memo = .ok (e, memo')) : Sized p none t e :=
  ((settles_extentOf (tellsApart_writable hp) ht (.outermost t)).of_run_eq_ok
    (hmemo.sound hp) he).2 (untangled_of_acc hacc)

/-- **Layout agrees with emission.** Take a program with clean names and a type that unfolds, and
ask for its extent after any queries about types with clean names. If the bound on nested
definitions is large enough, then there is an answer or an overflow, and an overflow comes after
whatever queries there were before. An answer is the size and the alignment that the representation
of the type has by the rules for C, when each name is replaced by the body that is written for
it. -/
theorem extentOf_agrees (hp : p.HasCleanTypes) (ht : t.Writable) (hunfolds : Unfolds p t)
    {memo : Memo} (hmemo : Reachable p memo) :
    (∃ n, ∀ depth ≥ n, (∃ e memo', (extentOf p depth t).run memo = .ok (e, memo')) ∨
      ∃ operation, (extentOf p depth t).run memo = .error (.overflow operation)) ∧
    (∀ depth operation, (extentOf p depth t).run memo = .error (.overflow operation) →
      ∀ depth' other e memo', Reachable p other →
        (extentOf p depth' t).run other ≠ .ok (e, memo')) ∧
    ∀ depth e memo', (extentOf p depth t).run memo = .ok (e, memo') →
      ∃ ir, (∀ settings s, ∃ s',
          (Gen.irType t).run (Step.perform ⟨p, settings⟩) s = .ok (ir, s')) ∧
        ∀ footprint, HasFootprint (Emits p) ir footprint ↔ footprint = e.footprint := by
  obtain ⟨n, hn⟩ := hunfolds
  refine
    ⟨⟨_, fun depth hdepth => extentOf_returns (finite_symbolsWithin_of_acc hn.acc) hdepth memo⟩,
    fun depth operation hrun depth' other e memo' hother hok => ?_, fun depth e memo' hrun => ?_⟩
  · have hsettles := settles_extentOf (n := depth) (tellsApart_writable hp) ht (.outermost t) memo
      (hmemo.sound hp)
    rw [hrun] at hsettles
    exact hsettles (untangled_of_acc hn.acc) ⟨e, sized_of_run hp ht hn.acc hother hok⟩
  · have hsized := sized_of_run hp ht hn.acc hmemo hrun
    exact ⟨p.ir t, Gen.run_irType ht, (agrees_of_sized hp ht hn.acc hn.faithful hsized).measures⟩

/-- A generic struct and enum, a value class with a base, a list behind a box, and a struct that
contains itself. -/
def gallery : Program where
  home := {
    structs := .ofList [
      { name := "Pair", generics := ["A"]
        fields := [{ name := "first", ty := .ofName "A" [] },
          { name := "flag", ty := .prim .bool }] },
      { name := "List"
        fields := [{ name := "head", ty := .prim .i16 },
          { name := "tail", ty := .ofName "Box" [.ofName "List" []] }] },
      { name := "Loop", fields := [{ name := "next", ty := .ofName "Loop" [] }] }]
    enums := .ofList [
      { name := "Choice", generics := ["A"]
        variants := [{ name := "None" }, { name := "One", payload := [.ofName "A" []] },
          { name := "Two", payload := [.ofName "A" [], .prim .i32] }] }]
    classes := .ofList [
      { name := "Shape", fields := [{ name := "area", ty := .prim .f64 }] },
      { name := "Circle", base := some "Shape", isDeclaredValue := true
        fields := [{ name := "radius", ty := .ofName "Pair" [.prim .i32] }] }] }

/-- Instances inside each other, one of them with a qualifier. -/
def exhibit : Ty :=
  .tuple [.array (.ofName "Pair" [.named "lib" "Choice" [.classRef "Circle"]]) 3,
    .ofName "List" [], .dyn "Show" [.prim .u8]]

/-- What is known after a query for a type that contains itself and one for a class. -/
def visited : Memo where
  known := [("class_Circle", ⟨24, 8⟩), ("Pair__I32", ⟨8, 4⟩), ("Loop", .pointer)]

theorem reachable_visited : Reachable gallery visited := by
  have hloop : (extentOf gallery 9 (.ofName "Loop" [])).run {} =
      .ok (.pointer, { known := [("Loop", .pointer)] }) := by decide +kernel
  have hcircle : (extentOf gallery 9 (.classRef "Circle")).run { known := [("Loop", .pointer)] } =
      .ok (⟨24, 8⟩, visited) := by decide +kernel
  exact .extentOf (.extentOf .initial (by decide) hloop) (by decide) hcircle

theorem extentOf_agrees_gallery :
    gallery.HasCleanTypes ∧ exhibit.Writable ∧ UnfoldsIn gallery 8 exhibit ∧
      Reachable gallery visited ∧
      ∃ memo', (extentOf gallery 9 exhibit).run visited = .ok (⟨176, 8⟩, memo') ∧
        ∃ ir, (∀ settings s, ∃ s',
            (Gen.irType exhibit).run (Step.perform ⟨gallery, settings⟩) s = .ok (ir, s')) ∧
          ∀ footprint, HasFootprint (Emits gallery) ir footprint ↔ footprint = ⟨176, 8⟩ := by
  have hp : gallery.HasCleanTypes := by decide +kernel
  have ht : exhibit.Writable := by decide +kernel
  have hunfolds : UnfoldsIn gallery 8 exhibit := by decide +kernel
  have hrun : (extentOf gallery 9 exhibit).run visited =
      .ok (⟨176, 8⟩,
        { known := [("List", ⟨16, 8⟩), ("Pair__Choice__1__class_Circle", ⟨48, 8⟩),
            ("Choice__class_Circle", ⟨40, 8⟩)] ++ visited.known }) := by decide +kernel
  exact ⟨hp, ht, hunfolds, reachable_visited, _, hrun,
    (extentOf_agrees hp ht ⟨8, hunfolds⟩ reachable_visited).2.2 9 _ _ hrun⟩

/-- A struct with one field. -/
def wrapping : Program where
  home := {
    structs := .ofList [
      { name := "Pair", generics := ["T"], fields := [{ name := "x", ty := .ofName "T" [] }] }] }

/-- The symbol of an unknown type can be that of an instance with clean names. The extent of the
instance is then that of a pointer, whatever is written for it. -/
theorem remembered_of_unclean :
    wrapping.HasCleanTypes ∧ (Ty.ofName "Pair" [.prim .i32]).Writable ∧
      UnfoldsIn wrapping 2 (.ofName "Pair" [.prim .i32]) ∧
      ∃ memo memo', (extentOf wrapping 9 (.ofName "Pair__I32" [])).run {} = .ok (⟨8, 8⟩, memo) ∧
        (extentOf wrapping 9 (.ofName "Pair" [.prim .i32])).run memo = .ok (⟨8, 8⟩, memo') ∧
        ∃ ir, (∀ settings s, ∃ s', (Gen.irType (.ofName "Pair" [.prim .i32])).run
            (Step.perform ⟨wrapping, settings⟩) s = .ok (ir, s')) ∧
          ∀ footprint, HasFootprint (Emits wrapping) ir footprint ↔ footprint = ⟨4, 4⟩ := by
  have hp : wrapping.HasCleanTypes := by decide +kernel
  have ht : (Ty.ofName "Pair" [.prim .i32]).Writable := by decide +kernel
  have hunfolds : UnfoldsIn wrapping 2 (.ofName "Pair" [.prim .i32]) := by decide +kernel
  have hsized : Sized wrapping none (.ofName "Pair" [.prim .i32]) ⟨4, 4⟩ := by
    refine .unfold (f := fun _ => ⟨4, 4⟩) (fun _ => (Option.some_ne_none _).symm)
      (List.forall_mem_singleton.2 ?_) rfl
    exact .unfold (f := fun _ => ⟨4, 4⟩) (fun h => absurd h (by decide)) (List.forall_mem_nil _) rfl
  have hunknown : (extentOf wrapping 9 (.ofName "Pair__I32" [])).run {} =
      .ok (⟨8, 8⟩, { known := [("Pair__I32", ⟨8, 8⟩)] }) := by decide +kernel
  have hremembered : (extentOf wrapping 9 (.ofName "Pair" [.prim .i32])).run
      { known := [("Pair__I32", ⟨8, 8⟩)] } =
      .ok (⟨8, 8⟩, { known := [("Pair__I32", ⟨8, 8⟩)] }) := by decide +kernel
  exact ⟨hp, ht, hunfolds, _, _, hunknown, hremembered, wrapping.ir _, Gen.run_irType ht,
    (agrees_of_sized hp ht hunfolds.acc hunfolds.faithful hsized).measures⟩

/-! ### Unions -/

/-- A union with finite containment is written as bytes: its size is that of its layout, but it has
no alignment. So the layout of the union is that of its body only if it asks for none. Types with
only such unions inside keep their layout. -/
theorem union_measures (hp : p.HasCleanTypes) (ht : t.Writable)
    (hacc : Acc (Part p) t.unqualified) {memo memo' : Memo} (hmemo : Reachable p memo)
    (he : (extentOf p n t).run memo = .ok (e, memo')) :
    (∀ name args d, t.declared? = some (name, args) → isWrapped name args = false →
      p.isOpenList args = false → p.struct? name = some d → d.isUnion = true →
        p.ir t = .named ("%union." ++ ofInstance name args) ∧
        (∀ f, HasFootprint (Emits p) (p.ir t) f ↔ f = ⟨e.size.toNat, 1⟩) ∧
        (Measures (Emits p) (p.ir t) e ↔ e.align = 1)) ∧
      (Faithful p t → Measures (Emits p) (p.ir t) e) := by
  have hsized := sized_of_run hp ht hacc hmemo he
  refine ⟨fun name args d hdeclared hwrapped hclosed hd hunion => ?_,
    fun hfaithful => (agrees_of_sized hp ht hacc hfaithful hsized).measures⟩
  have hkey := Gen.isCleanKey_of_declared? ht hdeclared
  have hmeasures := measures_union hp ht hdeclared ⟨hkey, hwrapped, hclosed⟩ hd hunion hacc hsized
  have hir : p.ir t = .named ("%union." ++ ofInstance name args) := by
    rw [p.ir_of_declared? hkey.base hdeclared, p.nominalIr_of_not_isWrapped hwrapped,
      Program.definedIr, hd]
    dsimp only
    rw [if_pos hunion, Program.symbolOf, hclosed, if_neg Bool.false_ne_true,
      Program.name_of_struct? (isBare_of_isClean hkey.base) hd]
  rw [hir]
  refine ⟨rfl, hmeasures, fun h => ?_, fun halign => ?_⟩
  · have halign := congrArg Footprint.align ((h _).1 ((hmeasures _).2 rfl))
    exact UInt64.toNat_inj.1 halign.symm
  · intro f
    rw [hmeasures f, Extent.footprint, Extent.footprint, halign]

/-- Two unions, one with an alignment to keep. -/
def overlays : Program where
  home := {
    structs := .ofList [
      { name := "Flags", isUnion := true
        fields := [{ name := "bits", ty := .prim .u8 }, { name := "on", ty := .prim .bool }] },
      { name := "Word", isUnion := true
        fields := [{ name := "number", ty := .prim .i64 }, { name := "byte", ty := .prim .u8 }] }] }

theorem acc_overlays {name : String}
    (h : ∀ u ∈ (shape overlays (.ofName name [])).parts, UnfoldsIn overlays 1 u) :
    Acc (Part overlays) (.ofName name []) :=
  ⟨_, by rintro _ ⟨u, hu, rfl⟩; exact (h u hu).acc⟩

theorem union_measures_overlays :
    overlays.ir (.ofName "Flags" []) = .named "%union.Flags" ∧
      (extentOf overlays 1 (.ofName "Flags" [])).run {} =
        .ok (⟨1, 1⟩, { known := [("Flags", ⟨1, 1⟩)] }) ∧
      ∀ f, HasFootprint (Emits overlays) (.named "%union.Flags") f ↔ f = ⟨1, 1⟩ := by
  have he : (extentOf overlays 1 (.ofName "Flags" [])).run {} =
      .ok (⟨1, 1⟩, { known := [("Flags", ⟨1, 1⟩)] }) := by decide +kernel
  obtain ⟨hir, hfootprint, -⟩ := (union_measures (t := .ofName "Flags" []) (by decide +kernel)
    (by decide +kernel) (acc_overlays (by decide +kernel)) .initial he).1 "Flags" [] _ rfl
    (by decide +kernel) (by decide +kernel) rfl rfl
  rw [hir] at hfootprint
  exact ⟨hir, he, hfootprint⟩

/-- A union of eight bytes that its layout aligns to eight bytes is written without alignment. -/
theorem union_misaligned :
    (extentOf overlays 1 (.ofName "Word" [])).run {} =
        .ok (⟨8, 8⟩, { known := [("Word", ⟨8, 8⟩)] }) ∧
      ∀ f, HasFootprint (Emits overlays) (.named "%union.Word") f ↔ f = ⟨8, 1⟩ := by
  have hp : overlays.HasCleanTypes := by decide +kernel
  have ht : (Ty.ofName "Word" []).Writable := by decide +kernel
  have hacc : Acc (Part overlays) (.ofName "Word" []) := acc_overlays (by decide +kernel)
  have he : (extentOf overlays 1 (.ofName "Word" [])).run {} =
      .ok (⟨8, 8⟩, { known := [("Word", ⟨8, 8⟩)] }) := by decide +kernel
  exact ⟨he, measures_union hp ht rfl ⟨Gen.isCleanKey_of_declared? ht rfl, by decide +kernel,
    by decide +kernel⟩ rfl rfl hacc (sized_of_run hp ht hacc .initial he)⟩

end Monomorph.Layout
