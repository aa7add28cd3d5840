import Monomorph.Proofs.Ty.Occurrence
import Monomorph.Proofs.Ty.Qualifiers

/-!
# The names in types

Types reach the code from the items of a program, from annotations, and from each other through
substitution and matching. The two operations only put together what they are given: if all type
names in it are of a certain kind, then so are those in the result.
-/

namespace Monomorph

open List

variable {args : List Ty} {name : String} {t : Ty}

/-- The names that types and behaviors may have. -/
structure Vocabulary where
  /-- The names of nominal types and classes. -/
  type : String → Prop
  /-- The names of behaviors, where a type names one. -/
  behavior : String → Prop

namespace Vocabulary

variable {P : Vocabulary}

instance : CoeFun Vocabulary fun _ => String → Prop := ⟨type⟩

/-- Where only the names of nominal types and classes matter. -/
instance : Coe (String → Prop) Vocabulary := ⟨fun P => ⟨P, fun _ => True⟩⟩

/-- All names. -/
def full : Vocabulary := ⟨fun _ => True, fun _ => True⟩

/-- A vocabulary that holds all names of types and behaviors. -/
structure IsFull (P : Vocabulary) : Prop where
  type (name : String) : P.type name
  behavior (name : String) : P.behavior name

theorem IsFull.full : full.IsFull := ⟨fun _ => trivial, fun _ => trivial⟩

/-- Whether a name is in the vocabulary can be decided. -/
class IsDecidable (P : Vocabulary) where
  type (name : String) : Decidable (P.type name)
  behavior (name : String) : Decidable (P.behavior name)

instance [h : P.IsDecidable] (name : String) : Decidable (P.type name) := h.type name

instance {P Q : String → Prop} [DecidablePred P] [DecidablePred Q] : IsDecidable ⟨P, Q⟩ :=
  ⟨inferInstance, inferInstance⟩

end Vocabulary

variable {P : Vocabulary}

/-! ### Types -/

namespace Ty

mutual

/-- A type in which every nominal type, class and behavior has a name of a certain kind. -/
def Over (P : Vocabulary) : Ty → Prop
  | .prim _ => True
  | .named _ name args => P name ∧ OverList P args
  | .classRef name => P name
  | .dyn behavior args => P.behavior behavior ∧ OverList P args
  | .tuple args => OverList P args
  | .ref _ inner | .ptr inner | .slice inner | .array inner _ => inner.Over P
  | .func params ret | .closure params ret => OverList P params ∧ ret.Over P

/-- Types in which every nominal type, class and behavior has a name of a certain kind. -/
def OverList (P : Vocabulary) : List Ty → Prop
  | [] => True
  | t :: ts => t.Over P ∧ OverList P ts

end

mutual

/-- Whether the names in a type are of a certain kind can be decided. -/
def decideOver [h : P.IsDecidable] : (t : Ty) → Decidable (t.Over P)
  | .prim _ => inferInstanceAs (Decidable True)
  | .classRef name => h.type name
  | .named _ _ args => @instDecidableAnd _ _ _ (decideOverList args)
  | .dyn behavior args => @instDecidableAnd _ _ (h.behavior behavior) (decideOverList args)
  | .tuple args => decideOverList args
  | .ref _ inner | .ptr inner | .slice inner | .array inner _ => decideOver inner
  | .func params ret | .closure params ret =>
      @instDecidableAnd _ _ (decideOverList params) (decideOver ret)

/-- So it can for several types. -/
def decideOverList [P.IsDecidable] : (ts : List Ty) → Decidable (OverList P ts)
  | [] => inferInstanceAs (Decidable True)
  | t :: ts => @instDecidableAnd _ _ (decideOver t) (decideOverList ts)

end

instance [P.IsDecidable] (t : Ty) : Decidable (t.Over P) := decideOver t

theorem overList_iff {ts : List Ty} : OverList P ts ↔ ∀ t ∈ ts, t.Over P := by
  induction ts with
  | nil => simp [OverList]
  | cons t ts ih => simp [OverList, ih]

theorem over_param (h : P name) : (param name).Over P := ⟨h, trivial⟩

theorem over_ofName (h : P name) (hargs : ∀ t ∈ args, t.Over P) : (ofName name args).Over P :=
  ⟨h, overList_iff.2 hargs⟩

theorem over_tuple {elems : List Ty} : (tuple elems).Over P ↔ ∀ t ∈ elems, t.Over P :=
  overList_iff

mutual

/-- All types are over a vocabulary that holds all names of types and behaviors. -/
theorem over_of_isFull (h : P.IsFull) : (t : Ty) → t.Over P
  | .prim _ => trivial
  | .classRef name => h.type name
  | .named _ name args => ⟨h.type name, overList_of_isFull h args⟩
  | .dyn behavior args => ⟨h.behavior behavior, overList_of_isFull h args⟩
  | .tuple args => overList_of_isFull h args
  | .ref _ inner | .ptr inner | .slice inner | .array inner _ => over_of_isFull h inner
  | .func params ret | .closure params ret => ⟨overList_of_isFull h params, over_of_isFull h ret⟩

theorem overList_of_isFull (h : P.IsFull) : (ts : List Ty) → OverList P ts
  | [] => trivial
  | t :: ts => ⟨over_of_isFull h t, overList_of_isFull h ts⟩

end

theorem over_full (t : Ty) : t.Over .full := over_of_isFull .full t

/-- The name and the arguments of a type that a definition can declare. -/
theorem Over.declared? (h : t.Over P) (hdeclared : t.declared? = some (name, args)) :
    P name ∧ ∀ a ∈ args, a.Over P := by
  obtain ⟨qualifier, rfl⟩ | ⟨rfl, rfl⟩ := eq_of_declared? hdeclared
  · exact ⟨h.1, overList_iff.1 h.2⟩
  · exact ⟨h, nofun⟩

/-- The arguments under which the methods of a type are found. -/
theorem Over.nominal? (h : t.Over P) (hnominal : t.nominal? = some (name, args)) :
    ∀ a ∈ args, a.Over P := by
  cases t with
  | prim kind =>
    cases hnominal
    exact nofun
  | _ => exact (h.declared? hnominal).2

theorem Over.asNamed? (h : t.Over P) (hnamed : t.asNamed? = some (name, args)) :
    ∀ a ∈ args, a.Over P := by
  cases t with
  | named qualifier own ownArgs =>
    cases hnamed
    exact overList_iff.1 h.2
  | _ => cases hnamed

theorem Over.signature? (h : t.Over P) {params : List Ty} {ret : Ty}
    (hsignature : t.signature? = some (params, ret)) : (∀ a ∈ params, a.Over P) ∧ ret.Over P := by
  cases t with
  | func | closure =>
    cases hsignature
    exact ⟨overList_iff.1 h.1, h.2⟩
  | _ => cases hsignature

end Ty

/-! ### Bindings -/

namespace Bindings

variable {b : Bindings} {entries : List (String × Ty)}

/-- Bindings to types whose names are of a certain kind. -/
def Over (P : Vocabulary) (b : Bindings) : Prop := ∀ entry ∈ b.entries, entry.2.Over P

theorem over_empty : empty.Over P := nofun

theorem Over.find? (h : b.Over P) (hfind : b.find? name = some t) : t.Over P := by
  obtain ⟨pre, post, hentries, -⟩ := lookup_eq_some_iff.1 hfind
  exact h (name, t) (by rw [hentries]; simp)

theorem Over.insert (h : b.Over P) (name : String) (ht : t.Over P) : (b.insert name t).Over P := by
  intro entry hentry
  obtain rfl | hentry := mem_cons.1 hentry
  · exact ht
  · exact h entry (mem_filter.1 hentry).1

theorem Over.insertNew (h : b.Over P) (name : String) (ht : t.Over P) :
    (b.insertNew name t).Over P := by
  rw [Bindings.insertNew]
  split
  · exact h
  · exact h.insert name ht

theorem Over.insertAll (h : b.Over P) (hentries : ∀ entry ∈ entries, entry.2.Over P) :
    (entries.foldl (fun acc entry => acc.insert entry.1 entry.2) b).Over P := by
  induction entries generalizing b with
  | nil => exact h
  | cons entry entries ih =>
    obtain ⟨hentry, hentries⟩ := forall_mem_cons.1 hentries
    exact ih (h.insert entry.1 hentry) hentries

theorem Over.insertAllNew (h : b.Over P) (hentries : ∀ entry ∈ entries, entry.2.Over P) :
    (b.insertAllNew entries).Over P := by
  induction entries generalizing b with
  | nil => exact h
  | cons entry entries ih =>
    obtain ⟨hentry, hentries⟩ := forall_mem_cons.1 hentries
    exact ih (h.insertNew entry.1 hentry) hentries

theorem over_zip (h : ∀ t ∈ args, t.Over P) (params : List String) :
    ∀ entry ∈ params.zip args, entry.2.Over P :=
  fun _ hentry => h _ (of_mem_zip hentry).2

theorem over_ofArgs (h : ∀ t ∈ args, t.Over P) (params : List String) :
    (ofArgs params args).Over P :=
  over_empty.insertAll (over_zip h params)

/-- A name that is inserted is bound. -/
theorem isSome_find?_insertAll (h : (b.find? name).isSome ∨ name ∈ entries.map Prod.fst) :
    ((entries.foldl (fun acc entry => acc.insert entry.1 entry.2) b).find? name).isSome := by
  induction entries generalizing b with
  | nil => exact h.resolve_right nofun
  | cons entry entries ih =>
    refine ih ?_
    rw [find?_insert]
    by_cases hname : name = entry.1
    · exact .inl (by rw [if_pos hname]; rfl)
    · rw [if_neg hname]
      exact h.imp_right fun hmem => (mem_cons.1 hmem).resolve_left hname

/-- Each parameter is bound when there are enough arguments. -/
theorem isSome_find?_ofArgs {params : List String} (hlength : params.length ≤ args.length)
    (h : name ∈ params) : ((ofArgs params args).find? name).isSome := by
  refine isSome_find?_insertAll (.inr ?_)
  rwa [map_fst_zip hlength]

theorem Over.extend {later : Bindings} (h : b.Over P) (hlater : later.Over P) :
    (b.extend later).Over P := by
  obtain ⟨entries⟩ := later
  rw [Bindings.extend]
  induction entries with
  | nil => exact h
  | cons entry entries ih =>
    obtain ⟨hentry, hentries⟩ := forall_mem_cons.1 hlater
    exact (ih hentries).insert entry.1 hentry

end Bindings

namespace Ty

variable {b : Bindings}

mutual

theorem over_subst (hb : b.Over P) : (t : Ty) → t.Over P → (t.subst b).Over P
  | .prim _, _ => trivial
  | .classRef _, h => h
  | .named qualifier name args, h => by
      rw [Ty.subst.eq_def]
      dsimp only
      split
      next t hfind => exact hb.find? hfind
      · exact ⟨h.1, overList_substList hb _ h.2⟩
  | .dyn _ args, h => ⟨h.1, overList_substList hb args h.2⟩
  | .tuple args, h => overList_substList hb args h
  | .ref _ inner, h | .ptr inner, h | .slice inner, h | .array inner _, h =>
      over_subst hb inner h
  | .func params ret, h | .closure params ret, h =>
      ⟨overList_substList hb params h.1, over_subst hb ret h.2⟩

theorem overList_substList (hb : b.Over P) : (ts : List Ty) → OverList P ts →
    OverList P (substList b ts)
  | [], _ => trivial
  | t :: ts, h => ⟨over_subst hb t h.1, overList_substList hb ts h.2⟩

end

/-- Substitution keeps the kind of the names. -/
theorem Over.subst (h : t.Over P) (hb : b.Over P) : (t.subst b).Over P :=
  over_subst hb t h

/-- A bound parameter becomes what it is bound to. -/
theorem over_subst_param (hb : b.Over P) (h : (b.find? name).isSome) :
    ((param name).subst b).Over P := by
  obtain ⟨t, ht⟩ := Option.isSome_iff_exists.1 h
  have hsubst : (param name).subst b = t := by
    rw [param, Ty.subst.eq_def]
    dsimp only
    rw [ht]
  rw [hsubst]
  exact hb.find? ht

theorem over_substList (hb : b.Over P) {ts : List Ty} (h : ∀ t ∈ ts, t.Over P) :
    ∀ t ∈ substList b ts, t.Over P :=
  overList_iff.1 (overList_substList hb ts (overList_iff.2 h))

/-- A type that occurs in another has only names of it. -/
theorem Over.of_occurs {whole : Ty} (h : t.Occurs whole) (hwhole : whole.Over P) : t.Over P := by
  induction h with
  | whole => exact hwhole
  | @child part whole hpart _ ih =>
    refine ih ?_
    cases whole with
    | prim | classRef => cases hpart
    | named | dyn => exact overList_iff.1 hwhole.2 part hpart
    | tuple => exact overList_iff.1 hwhole part hpart
    | ref | ptr | slice | array => exact mem_singleton.1 hpart ▸ hwhole
    | func params ret | closure params ret =>
      obtain hpart | hpart := mem_append.1 hpart
      · exact overList_iff.1 hwhole.1 part hpart
      · exact mem_singleton.1 hpart ▸ hwhole.2

/-- Matching binds parameters to parts of the concrete type. -/
theorem Over.matchInto (params : List String) (pattern : Ty) {concrete : Ty} (hc : concrete.Over P)
    (hb : b.Over P) : (pattern.matchInto params concrete b).Over P := by
  rw [matchInto_eq_insertAllNew]
  exact hb.insertAllNew fun entry hentry =>
    .of_occurs (of_mem_pairs pattern concrete hentry).2.2 hc

end Ty

namespace Binder

variable {binder : Binder}

/-- A binder whose sources are of a certain kind. -/
structure Over (P : Vocabulary) (binder : Binder) : Prop where
  explicit : binder.explicit.Over P
  inferred : binder.inferred.Over P
  contextual : binder.contextual.Over P

theorem over_new (params : List String) : ({ params } : Binder).Over P :=
  ⟨Bindings.over_empty, Bindings.over_empty, Bindings.over_empty⟩

theorem Over.explicitly (h : binder.Over P) (hargs : ∀ t ∈ args, t.Over P) :
    (binder.explicitly args).Over P :=
  { h with explicit := h.explicit.insertAll (Bindings.over_zip hargs _) }

theorem Over.infer (h : binder.Over P) (pattern : Ty) (ht : t.Over P) :
    (binder.infer pattern t).Over P :=
  { h with inferred := ht.matchInto binder.params pattern h.inferred }

theorem Over.expect (h : binder.Over P) (pattern : Ty) (ht : t.Over P) :
    (binder.expect pattern t).Over P :=
  { h with contextual := ht.matchInto binder.params pattern h.contextual }

theorem Over.expectAll (h : binder.Over P) (patterns : List Ty) (ht : t.Over P) :
    (patterns.foldl (fun acc pattern => Binder.expect acc pattern t) binder).Over P := by
  induction patterns generalizing binder with
  | nil => exact h
  | cons pattern patterns ih => exact ih (h.expect pattern ht)

theorem params_expectAll (binder : Binder) (patterns : List Ty) (t : Ty) :
    (patterns.foldl (fun acc pattern => Binder.expect acc pattern t) binder).params =
      binder.params := by
  induction patterns generalizing binder with
  | nil => rfl
  | cons pattern patterns ih => exact ih _

/-- The arguments that a binder resolves to. -/
theorem Over.args_resolve (h : binder.Over P) {fallback : Ty} (hfallback : fallback.Over P) :
    ∀ t ∈ (binder.resolve fallback).args, t.Over P := by
  intro t ht
  obtain ⟨name, -, rfl⟩ := mem_map.1 ht
  cases hfind : binder.find? name with
  | none => exact hfallback
  | some found =>
    rw [Option.getD_some]
    rw [Binder.find?, Option.or_eq_some_iff, Option.or_eq_some_iff] at hfind
    obtain (hfind | ⟨-, hfind⟩) | ⟨-, hfind⟩ := hfind
    · exact h.explicit.find? hfind
    · exact h.inferred.find? hfind
    · exact h.contextual.find? hfind

end Binder

end Monomorph
