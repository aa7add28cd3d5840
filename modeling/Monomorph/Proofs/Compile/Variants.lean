import Monomorph.Proofs.Compile.FieldAddress
import Monomorph.Proofs.Layout.Enums

/-!
# What variants store

A value of an enum is made in a slot: the tag is stored in the first member, and the payload, if it
has any bytes, in the second. The body of the enum has a second member only if some payload has
bytes. The words for it are computed when the instance is generated, and the size of the payload
where the value is made. Both answers can be had again from the memo at the end of the compilation,
and so they agree.

## Main results

* `Compile.Performs.makeVariant_fits`.
-/

namespace Monomorph

open List Script Monomorph.Symbol

/-- The instructions among some events. -/
def instructions (events : List (Event Step.Answer)) : List IR.Instr :=
  events.filterMap fun
    | ⟨.emit i, _⟩ => some i
    | _ => none

theorem instructions_append (events later : Gen.Trace) :
    instructions (events ++ later) = instructions events ++ instructions later :=
  filterMap_append

/-- Code that ends with the making of a value of a variant: a slot is taken, the tag is stored in
its first member, other code follows, and the value is loaded. -/
def IR.EndsWithVariant (ir : Ty) (k slot out : Nat) (body code : List Instr) : Prop :=
  ∃ before tag, code = before ++ (.alloca slot ir :: .member tag ir (.temp slot) 0 ::
    .store ⟨.i32, .int k⟩ (.temp tag) :: (body ++ [.load out ir (.temp slot)]))

/-- The type arguments of a variant are found first. Where the type is closed, the payload is stored
in the second member, if it has any bytes. -/
theorem Lowering.runs_makeVariant {session : Session} {l : Lowering} {d : EnumDef} {k : Nat}
    {variant : VariantDef} {path : Path} {exprs : List Expr} {span : Span} {expected : Option Ty}
    {s s' : Build} {events : Gen.Trace} {value : Value}
    (hlength : exprs.length = variant.payload.length)
    (h : session.Runs (l.makeVariant d k variant path exprs span expected) s events
      value s') :
    ∃ args, (∃ own early mid, session.Runs
        (l.variantArgs d variant path exprs span expected) s own (args, early) mid) ∧
      value.ty = .ofName d.name args ∧ (session.program.isOpen value.ty = false →
        ∃ ir slot out body, value = { operand := .temp out, ir, ty := .ofName d.name args } ∧
          (∃ t own t', session.Runs (Gen.irType (.ofName d.name args)) t own ir t' ∧
            own <:+: events) ∧
          IR.EndsWithVariant ir k slot out body (instructions events) ∧
          ((body = [] ∧ ∀ t, d.payload? variant args = some t →
              ∃ e, ⟨.extent t, e⟩ ∈ events ∧ e.size = 0) ∨
            ∃ t e addr stores, d.payload? variant args = some t ∧ ⟨.extent t, e⟩ ∈ events ∧
              e.size ≠ 0 ∧ body = .member addr ir (.temp slot) 1 :: stores)) := by
  obtain ⟨binding, ⟨args, early⟩, s₁, _, hargs, h₁, hevents⟩ := h.of_bind
  obtain ⟨representing, ir, s₂, _, hir, h₂, rfl⟩ := h₁.of_bind
  rw [if_neg fun hne => hne hlength] at h₂
  obtain ⟨arguing, payload, s₃, _, -, h₃, rfl⟩ := h₂.of_bind
  obtain ⟨_, h₄, rfl⟩ := h₃.of_ask_bind rfl
  split at h₄
  next hopen =>
    obtain ⟨-, rfl, -⟩ := h₄.of_pure
    refine ⟨args, ⟨binding, early, s₁, hargs⟩, rfl, fun hclosed => ?_⟩
    cases hclosed.symm.trans hopen
  obtain ⟨_, _, s₄, _, halloca, h₅, rfl⟩ := h₄.of_bind
  obtain ⟨rfl, -, rfl⟩ := Gen.runs_result halloca
  obtain ⟨_, _, s₅, _, htag, h₆, rfl⟩ := h₅.of_bind
  obtain ⟨rfl, -, rfl⟩ := Gen.runs_result htag
  obtain ⟨rest, h₇, rfl⟩ := h₆.of_ask_bind rfl
  have hmem : ∀ {event}, event ∈ rest → event ∈ events := fun hevent => by
    rw [hevents]
    simp [hevent]
  -- What the code before the slot does is of no interest.
  have hends : ∀ {out body}, instructions rest = body ++ [.load out ir (.temp s₃.assembly.temps)] →
      IR.EndsWithVariant ir k s₃.assembly.temps out body (instructions events) := by
    intro out body hrest
    refine ⟨instructions (binding ++ (representing ++ arguing)), s₄.assembly.temps, ?_⟩
    rw [← hrest, hevents]
    simp only [instructions_append, append_assoc]
    rfl
  have hload : ∀ {t : Build} {own}, session.Runs (do
        return ({ operand := ← Gen.load ir (.temp s₃.assembly.temps), ir
                  ty := .ofName d.name args } : Value)) t own value s' →
      ∃ out, value = { operand := .temp out, ir, ty := .ofName d.name args } ∧
        instructions own = [.load out ir (.temp s₃.assembly.temps)] := by
    intro t own hrun
    obtain ⟨_, hload, rfl⟩ := hrun.of_bind_pure
    obtain ⟨rfl, -, rfl⟩ := Gen.runs_result hload
    exact ⟨_, rfl, rfl⟩
  have hrepresents : ∃ t own t', session.Runs (Gen.irType (.ofName d.name args)) t
      own ir t' ∧ own <:+: events :=
    ⟨s₁, representing, s₂, hir, hevents ▸ infix_append_left.trans infix_append_right⟩
  refine ⟨args, ⟨binding, early, s₁, hargs⟩, ?_⟩
  split at h₇
  next stored hstored =>
    obtain ⟨_, size, s₇, _, hsize, h₈, rfl⟩ := h₇.of_bind
    obtain ⟨e, hask, rfl⟩ := hsize.of_bind_pure
    obtain ⟨-, rfl⟩ := hask.of_ask
    have he : ⟨.extent stored, e⟩ ∈ events := hmem mem_cons_self
    obtain ⟨_, _, _, _, hpure, h₉, rfl⟩ := h₈.of_bind
    obtain ⟨rfl, rfl, rfl⟩ := hpure.of_pure
    dsimp only at h₉
    split at h₉
    · rename_i hne
      obtain ⟨reaching, _, s₈, _, hmember, h₁₀, rfl⟩ := h₉.of_bind
      obtain ⟨r, rfl⟩ : ∃ r, reaching = [⟨.fresh, r⟩,
          ⟨.emit (.member r ir (.temp s₃.assembly.temps) 1), ()⟩] :=
        ⟨_, (Gen.runs_result hmember).2.2⟩
      obtain ⟨storing, _, s₉, own, -, h₁₁, rfl⟩ := h₁₀.of_bind
      obtain ⟨out, hvalue, hown⟩ := hload h₁₁
      refine ⟨hvalue ▸ rfl, fun _ => ⟨ir, s₃.assembly.temps, out, .member r ir _ 1 ::
        instructions storing, hvalue, hrepresents, hends ?_,
        .inr ⟨stored, e, r, _, hstored, he, by simpa using hne, rfl⟩⟩⟩
      rw [← hown]
      exact congrArg (_ :: ·) (instructions_append storing own)
    · rename_i hzero
      obtain ⟨out, hvalue, hown⟩ := hload h₉
      refine ⟨hvalue ▸ rfl, fun _ => ⟨ir, s₃.assembly.temps, out, [], hvalue, hrepresents,
        hends hown, .inl ⟨rfl, fun t ht => ?_⟩⟩⟩
      cases hstored.symm.trans ht
      exact ⟨e, he, by simpa using hzero⟩
  next hnone =>
    obtain ⟨out, hvalue, hown⟩ := hload h₇
    exact ⟨hvalue ▸ rfl, fun _ => ⟨ir, s₃.assembly.temps, out, [], hvalue, hrepresents, hends hown,
      .inl ⟨rfl, fun t ht => by cases hnone.symm.trans ht⟩⟩⟩

/-! ### Answers that are had again -/

/-- The answer to a query is had again from a memo, which does not change. -/
def Step.Recalled (p : Program) (memo : Layout.Memo) : (step : Step) → step.Answer → Prop
  | .extent t, e => (Layout.extentOf p 0 t).run memo = .ok (e, memo)
  | .payloadWords d args, words => (Layout.payloadWords p 0 d args).run memo = .ok (words, memo)
  | _, _ => True

theorem Step.recalled_of_perform {session : Session} {step : Step} {answer : step.Answer}
    {s s' : Build} (hs : s.memo.unfolding = []) (h : step.perform session s = .ok (answer, s')) :
    Layout.Extends s.memo [] s'.memo ∧
      ∀ later, s'.memo.Grows later → step.Recalled session.program later answer := by
  cases step with
  | extent t =>
    obtain ⟨memo, hrun, rfl⟩ := Build.query_eq_ok h
    exact Layout.repeats_extentOf _ 0 t (fun _ _ _ => not_mem_nil) _ answer memo (.refl hs) hrun
  | payloadWords d args =>
    obtain ⟨memo, hrun, rfl⟩ := Build.query_eq_ok h
    exact Layout.repeats_payloadWords _ _ 0 d args _ answer memo (.refl hs) hrun
  | classExtent d args =>
    obtain ⟨memo, hrun, rfl⟩ := Build.query_eq_ok h
    exact ⟨(Layout.Follows.classExtent .refl hrun).extends hs, fun _ _ => trivial⟩
  | registerCtor key ctor =>
    cases h
    rw [Build.registerCtor]
    split <;> exact ⟨.refl hs, fun _ _ => trivial⟩
  | reportDefaulted item resolution span =>
    cases h
    split <;> exact ⟨.refl hs, fun _ _ => trivial⟩
  | _ =>
    cases h
    exact ⟨.refl hs, fun _ _ => trivial⟩

namespace Compile

variable {program : Program} {settings : Settings} {output : Output} {s s' : Build}
  {during : List (Script.Event Step.Answer)} {d : EnumDef} {args : List Ty}

/-- At the end of a compilation, all answers can be had again. -/
theorem recalled_of_runs {session : Session} {α : Type} {m : Compile α} {a : α}
    {events : List Event} (h : Runs (Move.perform session) m s events a s')
    (hs : s.memo.unfolding = []) :
    Layout.Extends s.memo [] s'.memo ∧ ∀ step answer, ⟨.step step, answer⟩ ∈ events →
      step.Recalled session.program s'.memo answer := by
  induction h with
  | done => exact ⟨.refl hs, fun _ _ hmem => by cases hmem⟩
  | @ask move next s mid last answer events a hmove _ ih =>
    have hfirst : Layout.Extends s.memo [] mid.memo ∧ ∀ step own,
        ⟨move, answer⟩ = (⟨.step step, own⟩ : Event) → ∀ later, mid.memo.Grows later →
          step.Recalled session.program later own := by
      cases move with
      | step own =>
        refine (Step.recalled_of_perform hs hmove).imp_right fun h step own heq => ?_
        cases heq
        exact h
      | takeRound =>
        obtain ⟨-, -, rfl⟩ | ⟨-, -, rfl⟩ := Build.takeRound_eq_ok hmove
        all_goals exact ⟨.refl hs, fun _ _ heq => by cases heq⟩
      | _ =>
        cases hmove
        exact ⟨.refl hs, fun _ _ heq => by cases heq⟩
    obtain ⟨hmid, hrecalled⟩ := hfirst
    obtain ⟨hlast, hrest⟩ := ih hmid.unfolding
    refine ⟨hmid.trans hlast, fun step own hmem => ?_⟩
    obtain heq | hmem := mem_cons.1 hmem
    · exact hrecalled step own heq.symm last.memo hlast.grows
    · exact hrest step own hmem

/-- A requested instance of an enum has words in the result that hold its payloads. -/
theorem Performs.definesAs_enum (hp : program.NamesBlocks) {α : Type} {m : Gen α} {a : α}
    (h : Performs program settings output m s during a s') (hd : program.enum? d.name = some d)
    (hblock : d.name ≠ Wrapper.blockName) {symbol : String}
    (hevent : ⟨.require (.plain .enum d.name args), symbol⟩ ∈ during) :
    ∃ words : UInt64, output.assembly.DefinesAs ("%struct." ++ ofInstance d.name args)
        (.anon (if words = 0 then [.i32] else [.i32, .array words .i64])) ∧
      ∀ variant ∈ d.variants, ∀ t e, d.payload? variant args = some t →
        ⟨.extent t, e⟩ ∈ during → e.size.toNat ≤ 8 * words.toNat := by
  have hargs : ∀ t ∈ args, t.Over .clean := (h.requests_clean hp.clean hevent).2
  have hname : TypeDefinitions.definedName? program (.plain .enum d.name args) =
      some ("%struct." ++ ofInstance d.name args) := congrArg (Option.map _) hd
  obtain ⟨_, _, _, _, _, hother, hdefine⟩ := h.generate_of_require hp hname hevent
  obtain ⟨events, last, hall, rfl, hpart⟩ := hother.occurs.part
  obtain ⟨events', last', hall', -, hpart'⟩ := h.occurs.part
  obtain ⟨rfl, -, rfl⟩ := hall.unique hall'
  obtain ⟨hextends, hrecalled⟩ := recalled_of_runs hall rfl
  obtain ⟨body, hwrites, hdefines⟩ := Compile.exists_definesAs
    (D := Naming.clean (.taking _ (Step.Recalled program last.memo)) hp.clean) trivial hall
    hrecalled (hpart.subset (mem_map_of_mem hdefine))
  have hname : d.name ∈ program.typeNames :=
    mem_append_left _ (mem_append_right _ (Program.mem_names_of_lookup hd))
  obtain ⟨ownArgs, heq, ⟨_, hstruct, -⟩ | ⟨d, words, hd', hwords, rfl⟩⟩ :=
    hp.block_cases hname hblock hargs hwrites
  · cases (hp.struct?_eq_none hname hd).symm.trans hstruct
  cases hd.symm.trans hd'
  refine ⟨words, hdefines, fun variant hvariant t e hpayload hsize => ?_⟩
  -- The payload under the arguments of the instance that was generated.
  obtain ⟨u, hu, htu⟩ : ∃ u, d.payload? variant ownArgs = some u ∧
      u.unqualified = t.unqualified := by
    have hmap := Layout.map_payload? heq d variant
    rw [hpayload] at hmap
    exact Option.map_eq_some_iff.1 hmap
  have hextent : (Layout.extentOf program 0 t).run last.memo = .ok (e, last.memo) :=
    hrecalled _ _ (hpart'.subset (mem_map_of_mem hsize))
  rw [← Layout.extentOf_zero_unqualified, ← htu, Layout.extentOf_zero_unqualified] at hextent
  exact Layout.size_le_of_payloadWords hextends.unfolding hwords
    (mem_filterMap.2 ⟨variant, hvariant, hu⟩) (.refl _) hextent

/-- A value of a variant is made inside of it: the position of the variant is stored as the tag. If
the second member is addressed, the body of the enum in the result has one, whose words hold the
payload. If it is not, the payload has no bytes. -/
theorem Performs.makeVariant_fits (hp : program.NamesBlocks) (hd : program.enum? d.name = some d)
    (hblock : d.name ≠ Wrapper.blockName) {k : Nat} {variant : VariantDef}
    (hvariant : d.variants[k]? = some variant) {l : Lowering} {path : Path} {exprs : List Expr}
    (hlength : exprs.length = variant.payload.length) {span : Span} {expected : Option Ty}
    {value : Value} (h : Performs program settings output
      (l.makeVariant d k variant path exprs span expected) s during value s')
    (hclosed : program.isOpen value.ty = false) :
    ∃ args name words slot out body, name = "%struct." ++ ofInstance d.name args ∧
      value = { operand := .temp out, ir := .named name, ty := .ofName d.name args } ∧
      output.assembly.DefinesAs name
        (.anon (if words = 0 then [.i32] else [.i32, .array words .i64])) ∧
      IR.EndsWithVariant (.named name) k slot out body (instructions during) ∧
      ((body = [] ∧ ∀ t, d.payload? variant args = some t →
          ∃ e, ⟨.extent t, e⟩ ∈ during ∧ e.size = 0) ∨
        ∃ t e addr stores, d.payload? variant args = some t ∧ ⟨.extent t, e⟩ ∈ during ∧
          body = .member addr (.named name) (.temp slot) 1 :: stores ∧ words ≠ 0 ∧
          e.size.toNat ≤ 8 * words.toNat) := by
  obtain ⟨args, -, -, hmade⟩ := Lowering.runs_makeVariant hlength h.runs
  obtain ⟨ir, slot, out, body, rfl, ⟨_, own, _, hir, hin⟩, hcode, hbody⟩ := hmade hclosed
  have hargs := Program.isOpenList_of_declared? rfl hclosed
  obtain ⟨hrequire, hname⟩ := Gen.runs_irType_of_denotes (hp.denotes_enum hargs hd) hir
  obtain rfl := hname rfl
  obtain ⟨words, hdefines, hfits⟩ := h.definesAs_enum hp hd hblock (hin.subset hrequire)
  refine ⟨args, _, words, slot, out, body, rfl, rfl, hdefines, hcode, hbody.imp_right ?_⟩
  rintro ⟨t, e, addr, stores, ht, he, hsize, hstores⟩
  have hle := hfits variant (mem_of_getElem? hvariant) t e ht he
  refine ⟨t, e, addr, stores, ht, he, hstores, ?_, hle⟩
  rintro rfl
  exact hsize (UInt64.toNat_inj.1 (Nat.le_zero.1 hle))

/-- Enums with payloads, one of them called like the block behind a reference-counted wrapper. -/
def boxes : Program where
  home := {
    structs := .ofList [{ name := "Pair", fields := [⟨"x", .prim .i32, none⟩] }]
    enums := .ofList [
      { name := Wrapper.blockName, generics := ["T"]
        variants := [{ name := "Full", payload := [.ofName "T" []] }] },
      { name := "Cell"
        variants := [{ name := "Empty" }, { name := "Hold", payload := [.ofName "Pair" []] }] }]
    functions := .ofList [
      { name := "f"
        params := [⟨"a", .ofName "Arc" [.ofName "Pair" []]⟩, ⟨"p", .ofName "Pair" []⟩]
        body := some (.mk [.eval (.field {} (.ident {} "a") "x"),
          .eval (.call {} (.path {} ⟨[Wrapper.blockName, "Full"], []⟩) [.ident {} "p"]),
          .eval (.call {} (.path {} ⟨["Cell", "Hold"], []⟩) [.ident {} "p"])] none) }] }

theorem namesBlocks_boxes : boxes.NamesBlocks where
  clean := by decide +kernel
  nodup := by decide
  unwrapped := by decide

/-- The payload of the second variant of the other enum fits. -/
theorem Performs.makeVariant_fits_cell :
    boxes.NamesBlocks ∧ ∃ output, compile boxes { depth := 9 } = .ok output ∧
      ∃ l s during value s', Performs boxes { depth := 9 } output (Lowering.makeVariant l
          (boxes.home.enums.items.getLastD default) 1
          { name := "Hold", payload := [.ofName "Pair" []] } ⟨["Cell", "Hold"], []⟩ [.ident {} "p"]
          .dummy none) s during value s' ∧
        value.ty = .ofName "Cell" [] ∧ ∃ words slot out body,
          output.assembly.DefinesAs "%struct.Cell"
            (.anon (if words = 0 then [.i32] else [.i32, .array words .i64])) ∧
          IR.EndsWithVariant (.named "%struct.Cell") 1 slot out body (instructions during) := by
  obtain ⟨output, hcompile, -⟩ := exists_of_compile (P := fun _ => True)
    (by decide +kernel : (compile boxes { depth := 9 }).toOption.any _)
  obtain ⟨t, own, _, t', hshape⟩ := performs_homeEval hcompile
    (f := boxes.home.functions.items.headD default) mem_cons_self rfl rfl rfl rfl
    (mem_cons_of_mem _ (mem_cons_of_mem _ mem_cons_self))
    (rfl : ({ depth := 9 } : Settings).depth = 8 + 1)
  have hcall : Performs boxes { depth := 9 } output
      ((Lowering.ofDepth .empty (.prim .unit) 8).callPath ⟨["Cell", "Hold"], []⟩ [.ident {} "p"] {}
        none) t own _ t' := hshape
  obtain ⟨_, _, _, _, hfirst, -, -⟩ := hcall.bind
  obtain ⟨_, _, _, _, hkind, hrest, -⟩ := hfirst.bind
  obtain ⟨-, rfl, -⟩ := runs_pure_iff.1 hkind.runs
  obtain ⟨_, _, _, _, hvariant, -, -⟩ := hrest.bind
  obtain ⟨_, hvariant⟩ := hvariant.program_bind
  obtain ⟨_, value, _, _, hmake, -, -⟩ := hvariant.bind
  refine ⟨namesBlocks_boxes, output, hcompile, _, _, _, value, _, hmake, ?_⟩
  obtain ⟨args, ⟨_, _, _, hargs⟩, hty, -⟩ := Lowering.runs_makeVariant rfl hmake.runs
  obtain ⟨-, ⟨⟩, -⟩ := runs_pure_iff.1 hargs
  obtain ⟨_, _, words, slot, out, body, rfl, rfl, hdefines, hcode, -⟩ :=
    Performs.makeVariant_fits namesBlocks_boxes rfl (by decide) rfl rfl hmake (by rw [hty]; rfl)
  cases hty
  exact ⟨rfl, words, slot, out, body, hdefines, hcode⟩

/-- Where an enum is called like the block behind a reference-counted wrapper, the block may be
written first. The second member that is addressed is then a counter. -/
theorem makeVariant_misses_block :
    boxes.NamesBlocks ∧ ∃ output, compile boxes { depth := 9 } = .ok output ∧
      ([.alloca 8 (.named "%struct.ArcInner__Pair"),
          .member 9 (.named "%struct.ArcInner__Pair") (.temp 8) 0,
          .store ⟨.i32, .int 0⟩ (.temp 9),
          .member 10 (.named "%struct.ArcInner__Pair") (.temp 8) 1,
          .store ⟨.named "%struct.Pair", .temp 7⟩ (.temp 10)].map IR.Line.instr <:+:
        output.assembly.functions.toList.flatMap fun f => f.lines.toList) ∧
      ∀ words : UInt64, ¬ output.assembly.DefinesAs "%struct.ArcInner__Pair"
        (.anon (if words = 0 then [.i32] else [.i32, .array words .i64])) := by
  refine ⟨namesBlocks_boxes, exists_of_compile_and (fun output hcompile _ words h => ?_)
    (by decide +kernel)⟩
  have hblock := of_compile_eq_ok (P := fun output => output.assembly.DefinesAs
    "%struct.ArcInner__Pair" (.anon [.i64, .i64, .named "%struct.Pair"])) hcompile
    (by decide +kernel)
  rw [IR.Assembly.DefinesAs, hblock] at h
  split at h
  · cases h
  · cases h

end Compile

end Monomorph
