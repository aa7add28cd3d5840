import Monomorph.Proofs.IR.Parts
import Monomorph.Proofs.IR.Tables
import Monomorph.Proofs.Symbol.Clean

/-!
# Constants that hold strings

Equal strings share one constant, which one line of the module defines, and the text of that line
reads back as the bytes of the string and a final zero. This holds after any sequence of edits of
an assembly, provided that no constant added by its text takes one of the numbered names.

## Main results

* `IR.Assembly.Extends.foldl`, `IR.Assembly.stringGlobal_holds`.
-/

namespace Monomorph

open List

namespace Hex

/-- The value of a hexadecimal digit. -/
def value? (c : Char) : Option Nat := (range 16).find? fun n => digit n = c.toUpper

/-- The bytes of an escaped string: a backslash and two digits are one byte, and any other character
is itself. -/
def decode : List Char → List UInt8
  | '\\' :: high :: low :: rest =>
      match value? high, value? low with
      | some h, some l => UInt8.ofNat (16 * h + l) :: decode rest
      | _, _ => 0x5C :: decode (high :: low :: rest)
  | c :: rest => String.utf8EncodeChar c ++ decode rest
  | [] => []

private theorem value?_digit : ∀ n < 16, value? (digit n) = some n := by decide

private theorem utf8EncodeChar_plain : ∀ n < 256, isPlain (UInt8.ofNat n) = true →
    Char.ofNat n ≠ '\\' ∧ String.utf8EncodeChar (Char.ofNat n) = [UInt8.ofNat n] := by
  decide +kernel

theorem decode_escapeByte (byte : UInt8) (rest : List Char) :
    decode (escapeByte byte ++ rest) = byte :: decode rest := by
  have hlt := byte.toNat_lt
  rw [escapeByte]
  split
  · next hplain =>
    obtain ⟨hne, hutf8⟩ := utf8EncodeChar_plain _ hlt (by rwa [UInt8.ofNat_toNat])
    rw [singleton_append, decode, hutf8, UInt8.ofNat_toNat, singleton_append]
    exact fun _ _ _ h => absurd h hne
  · change decode ('\\' :: digit (byte.toNat / 16 % 16) :: digit (byte.toNat % 16) :: rest) = _
    rw [decode, value?_digit _ (by omega), value?_digit _ (by omega)]
    have hvalue : 16 * (byte.toNat / 16 % 16) + byte.toNat % 16 = byte.toNat := by omega
    simp only [hvalue, UInt8.ofNat_toNat]

theorem decode_escape_append (bytes : List UInt8) (rest : List Char) :
    decode (escape bytes ++ rest) = bytes ++ decode rest := by
  induction bytes with
  | nil => rfl
  | cons byte bytes ih =>
    rw [escape, flatMap_cons, append_assoc, decode_escapeByte, ← escape, ih, cons_append]

theorem quote_notMem_escape (bytes : List UInt8) : '"' ∉ escape bytes := by
  have hbyte : ∀ n < 256, '"' ∉ escapeByte (UInt8.ofNat n) := by decide +kernel
  rw [escape, mem_flatMap]
  rintro ⟨byte, -, hmem⟩
  exact hbyte byte.toNat byte.toNat_lt (by rwa [UInt8.ofNat_toNat])

end Hex

namespace IR

/-! ### Numbered constants -/

/-- Of the numbered names, those of the values are defined once, by their values, and no other. -/
def Pool (name : Nat → String) (values : List String) (globals : Array Global) : Prop :=
  ∀ i, globals.toList.filter (·.defines (name i)) = (values[i]?.map (.bytes (name i))).toList

namespace Pool

variable {name : Nat → String} {values : List String} {globals : Array Global}
  (h : Pool name values globals)

include h

theorem add {g : Global} (hg : ∀ i, g.defines (name i) = false) :
    Pool name values (globals.push g) := fun i => by
  rw [Array.toList_push, filter_append, h i, filter_singleton, hg i]
  exact append_nil _

theorem push (hname : name.Injective) (value : String) :
    Pool name (values ++ [value]) (globals.push (.bytes (name values.length) value)) := fun i => by
  rw [Array.toList_push, filter_append, h i, filter_singleton, Global.defines]
  obtain hlt | rfl | hlt := Nat.lt_trichotomy i values.length
  · rw [getElem?_append_left hlt, decide_eq_false (hname.ne (Nat.ne_of_gt hlt))]
    exact append_nil _
  · rw [getElem?_concat_length, getElem?_eq_none (Nat.le_refl _)]
    simp
  · rw [getElem?_eq_none (Nat.le_of_lt hlt),
      getElem?_eq_none (by simpa using Nat.succ_le_of_lt hlt),
      decide_eq_false (hname.ne (Nat.ne_of_lt hlt))]
    rfl

theorem filter_idxOf {value : String} (hvalue : value ∈ values) :
    globals.toList.filter (·.defines (name (values.idxOf value))) =
      [.bytes (name (values.idxOf value)) value] := by
  rw [h, getElem?_idxOf hvalue]
  rfl

end Pool

namespace Assembly

theorem stringName_injective : stringName.Injective := fun _ _ h =>
  Symbol.numeral_injective ((String.append_right_inj _).1 h)

theorem markerName_injective : markerName.Injective := fun _ _ h =>
  Symbol.numeral_injective ((String.append_right_inj _).1 h)

theorem defines_markerName (n i : Nat) (value : String) :
    (Global.bytes (stringName n) value).defines (markerName i) = false := by
  simp [Global.defines, ← String.toList_inj, stringName, markerName]

theorem defines_stringName (n i : Nat) (value : String) :
    (Global.bytes (markerName n) value).defines (stringName i) = false := by
  simp [Global.defines, ← String.toList_inj, stringName, markerName]

/-- What edits keep: the strings and markers so far, and that they are the numbered constants. -/
structure Extends (a b : Assembly) : Prop where
  coverage : b.coverage = a.coverage
  strings : a.strings <+: b.strings
  markers : a.markers <+: b.markers
  stringPool : Pool stringName a.strings a.globals → Pool stringName b.strings b.globals
  markerPool : Pool markerName a.markers a.globals → Pool markerName b.markers b.globals

variable {a b c : Assembly}

theorem Extends.trans (h : a.Extends b) (h' : b.Extends c) : a.Extends c :=
  ⟨h'.coverage.trans h.coverage, h.strings.trans h'.strings, h.markers.trans h'.markers,
    h'.stringPool ∘ h.stringPool, h'.markerPool ∘ h.markerPool⟩

theorem Extends.of_eq (hcoverage : b.coverage = a.coverage) (hglobals : b.globals = a.globals)
    (hstrings : b.strings = a.strings) (hmarkers : b.markers = a.markers) : a.Extends b :=
  ⟨hcoverage, hstrings ▸ prefix_rfl, hmarkers ▸ prefix_rfl, hstrings ▸ hglobals ▸ id,
    hmarkers ▸ hglobals ▸ id⟩

/-- A value that is looked up among others, and added to them if it is not there. -/
theorem findIdx?_eq_idxOf (values : List String) (value : String) :
    value ∈ values ∧ values.findIdx? (· = value) = some (values.idxOf value) ∨
      values.findIdx? (· = value) = none ∧ (values ++ [value]).idxOf value = values.length := by
  by_cases h : value ∈ values
  · refine .inl ⟨h, findIdx?_eq_some_iff_findIdx_eq.2 ⟨idxOf_lt_length_of_mem h, ?_⟩⟩
    exact congrArg (findIdx · values) (funext fun s => (beq_eq_decide s value).symm)
  · refine .inr ⟨findIdx?_eq_none_iff.2 fun s hs => decide_eq_false fun heq => h (heq ▸ hs), ?_⟩
    rw [idxOf_append_of_notMem h, idxOf_cons_self, Nat.add_zero]

theorem stringGlobal_eq (a : Assembly) (value : String) : ∃ globals strings,
    a.stringGlobal value = (stringName (strings.idxOf value), { a with globals, strings }) ∧
      a.Extends { a with globals, strings } ∧ value ∈ strings := by
  rw [stringGlobal]
  obtain ⟨hmem, hfind⟩ | ⟨hfind, hindex⟩ := findIdx?_eq_idxOf a.strings value
  · exact ⟨a.globals, a.strings, by rw [hfind], .of_eq rfl rfl rfl rfl, hmem⟩
  · exact ⟨_, a.strings ++ [value], by rw [hfind, hindex]; rfl, ⟨rfl, prefix_append _ _,
      prefix_rfl, fun h => h.push stringName_injective value,
      fun h => h.add fun i => defines_markerName _ i value⟩, mem_concat_self⟩

theorem markerGlobal_eq (a : Assembly) (name : String) : ∃ globals markers,
    a.markerGlobal name = (markerName (markers.idxOf name), { a with globals, markers }) ∧
      a.Extends { a with globals, markers } ∧ name ∈ markers := by
  rw [markerGlobal]
  obtain ⟨hmem, hfind⟩ | ⟨hfind, hindex⟩ := findIdx?_eq_idxOf a.markers name
  · exact ⟨a.globals, a.markers, by rw [hfind], .of_eq rfl rfl rfl rfl, hmem⟩
  · exact ⟨_, a.markers ++ [name], by rw [hfind, hindex]; rfl, ⟨rfl, prefix_rfl,
      prefix_append _ _, fun h => h.add fun i => defines_stringName _ i name,
      fun h => h.push markerName_injective name⟩, mem_concat_self⟩

theorem declare_eq (a : Assembly) (symbol : String) (ret : Ty) (params : List Ty) :
    ∃ declarations, a.declare symbol ret params = { a with declarations } := by
  rw [declare]
  split
  · exact ⟨_, rfl⟩
  · exact ⟨_, rfl⟩

/-- Recording an entry adds a call with a marker that holds the name. -/
theorem cover_eq (h : a.coverage = true) (name : String) : ∃ declarations globals markers,
    a.cover name = { a with declarations, globals, markers }.append
      (.covers (markerName (markers.idxOf name))) ∧
    a.Extends { a with declarations, globals, markers } ∧ name ∈ markers := by
  obtain ⟨declarations, hdeclare⟩ := a.declare_eq coverSymbol .void [.ptr]
  obtain ⟨globals, markers, hmarker, hextends, hmem⟩ :=
    { a with declarations }.markerGlobal_eq name
  refine ⟨declarations, globals, markers, ?_,
    (Extends.of_eq rfl rfl rfl rfl : a.Extends { a with declarations }).trans hextends, hmem⟩
  simp only [cover, if_pos h, hdeclare, hmarker]
  rfl

/-! ### Edits -/

/-- The operations on an assembly. -/
inductive Edit
  | freshTemp
  | freshLabel
  | freshLabelNamed (stem : String)
  | defineType (name : String) (body : Ty)
  | declare (symbol : String) (ret : Ty) (params : List Ty)
  | addGlobal (g : Global)
  | stringGlobal (value : String)
  | begin (header : Header)
  | append (line : Line)
  | cover (name : String)
  | finish

namespace Edit

/-- The assembly after an operation. -/
def perform (a : Assembly) : Edit → Assembly
  | freshTemp => a.freshTemp.2
  | freshLabel => a.freshLabel.2
  | freshLabelNamed stem => (a.freshLabelNamed stem).2
  | defineType name body => a.defineType name body
  | declare symbol ret params => a.declare symbol ret params
  | addGlobal g => a.addGlobal g
  | stringGlobal value => (a.stringGlobal value).2
  | begin header => a.begin header
  | append line => a.append line
  | cover name => a.cover name
  | finish => a.finish

/-- An operation that takes no numbered name for a constant of its own. -/
def Spares : Edit → Prop
  | addGlobal g => ∀ i, g.defines (stringName i) = false ∧ g.defines (markerName i) = false
  | _ => True

end Edit

theorem Extends.perform {edit : Edit} (h : edit.Spares) (a : Assembly) :
    a.Extends (edit.perform a) := by
  cases edit with
  | stringGlobal value =>
    obtain ⟨_, _, heq, hextends, -⟩ := a.stringGlobal_eq value
    rwa [Edit.perform, heq]
  | declare symbol ret params =>
    obtain ⟨_, heq⟩ := a.declare_eq symbol ret params
    rw [Edit.perform, heq]
    exact .of_eq rfl rfl rfl rfl
  | defineType name body =>
    rw [Edit.perform, defineType]
    split <;> exact .of_eq rfl rfl rfl rfl
  | addGlobal g =>
    exact ⟨rfl, prefix_rfl, prefix_rfl, fun hpool => hpool.add fun i => (h i).1,
      fun hpool => hpool.add fun i => (h i).2⟩
  | cover name =>
    by_cases hcoverage : a.coverage = true
    · obtain ⟨_, _, _, heq, hextends, -⟩ := cover_eq hcoverage name
      rw [Edit.perform, heq]
      exact hextends.trans (.of_eq rfl rfl rfl rfl)
    · rw [Edit.perform, cover, if_neg hcoverage]
      exact .of_eq rfl rfl rfl rfl
  | _ => exact .of_eq rfl rfl rfl rfl

theorem Extends.foldl {edits : List Edit} (h : ∀ edit ∈ edits, edit.Spares) (a : Assembly) :
    a.Extends (edits.foldl Edit.perform a) := by
  induction edits generalizing a with
  | nil => exact .of_eq rfl rfl rfl rfl
  | cons edit edits ih =>
    rw [forall_mem_cons] at h
    exact (Extends.perform h.1 a).trans (ih h.2 _)

/-- One constant has the name; its text declares as many bytes as stand between its quotes, and
these are the bytes of the value and a zero. -/
def Holds (a : Assembly) (name value : String) : Prop :=
  ∃ content,
    (a.globals.toList.filter (Global.defines name)).map Global.text =
      [name ++ " = private unnamed_addr constant [" ++ toString (Hex.decode content).length ++
        " x i8] c\"" ++ String.ofList content ++ "\""] ∧
    '"' ∉ content ∧ Hex.decode content = value.toUTF8.toList ++ [0]

theorem Holds.of_filter {a : Assembly} {name value : String}
    (h : a.globals.toList.filter (·.defines name) = [.bytes name value]) : a.Holds name value := by
  have hdecode : Hex.decode (Hex.escape value.toUTF8.toList ++ ['\\', '0', '0']) =
      value.toUTF8.toList ++ [0] := Hex.decode_escape_append _ _
  refine ⟨_, ?_, ?_, hdecode⟩
  · rw [h, hdecode, map_singleton, length_append, Global.text, Global.bytesText]
    simp [← String.toList_inj]
  · simp [Hex.quote_notMem_escape]

/-- The assembly that edits of an empty one make. -/
def ofEdits (coverage : Bool) (edits : List Edit) : Assembly :=
  edits.foldl Edit.perform { coverage := coverage }

section

variable (coverage : Bool) {edits before after : List Edit} {value name : String}
  (h : ∀ edit ∈ edits, edit.Spares)

include h

theorem extends_ofEdits (edit : Edit) (hedits : edits = before ++ edit :: after) :
    (edit.perform (ofEdits coverage before)).Extends (ofEdits coverage edits) := by
  subst hedits
  rw [ofEdits, ofEdits, foldl_append, foldl_cons]
  exact .foldl (fun edit hedit => h edit (mem_append_right _ (mem_cons_of_mem _ hedit))) _

theorem stringGlobal_ofEdits (hedits : edits = before ++ .stringGlobal value :: after) :
    value ∈ (ofEdits coverage edits).strings ∧
      ((ofEdits coverage before).stringGlobal value).1 =
        stringName ((ofEdits coverage edits).strings.idxOf value) := by
  obtain ⟨_, strings, heq, -, hmem⟩ := (ofEdits coverage before).stringGlobal_eq value
  have hstrings : strings <+: (ofEdits coverage edits).strings := by
    simpa only [Edit.perform, heq] using (extends_ofEdits coverage h _ hedits).strings
  exact ⟨hstrings.mem hmem, by rw [heq, hstrings.idxOf_eq_of_mem hmem]⟩

end

theorem stringGlobal_holds (coverage : Bool) (edits : List Edit)
    (h : ∀ edit ∈ edits, edit.Spares) :
    (∀ before value after, edits = before ++ .stringGlobal value :: after →
      (ofEdits coverage edits).Holds ((ofEdits coverage before).stringGlobal value).1 value ∧
      ∀ before' value' after', edits = before' ++ .stringGlobal value' :: after' →
        (((ofEdits coverage before).stringGlobal value).1 =
          ((ofEdits coverage before').stringGlobal value').1 ↔ value = value')) ∧
    ∀ before name after, edits = before ++ .cover name :: after → coverage = true →
      ∃ g, ((ofEdits coverage before).cover name).draft =
          ((ofEdits coverage before).append (.covers g)).draft ∧
        (ofEdits coverage edits).Holds g name := by
  have hextends := Extends.foldl h { coverage := coverage }
  have hpool := hextends.stringPool fun _ => rfl
  have hmarkerPool := hextends.markerPool fun _ => rfl
  refine ⟨fun before value after hedits => ?_, fun before name after hedits hcoverage => ?_⟩
  · obtain ⟨hmem, hname⟩ := stringGlobal_ofEdits coverage h hedits
    rw [hname]
    refine ⟨.of_filter (hpool.filter_idxOf hmem),
      fun before' value' after' hedits' => ?_⟩
    obtain ⟨-, hname'⟩ := stringGlobal_ofEdits coverage h hedits'
    rw [hname', stringName_injective.eq_iff, idxOf_inj hmem]
  · have hbefore : (ofEdits coverage before).coverage = true :=
      (Extends.foldl (fun edit hedit => h edit (hedits ▸ mem_append_left _ hedit)) _).coverage.trans
        hcoverage
    obtain ⟨_, _, markers, heq, -, hmem⟩ := cover_eq hbefore name
    have hmarkers : markers <+: (ofEdits coverage edits).markers := by
      simpa only [Edit.perform, heq, append] using (extends_ofEdits coverage h _ hedits).markers
    refine ⟨_, by rw [heq]; rfl, .of_filter ?_⟩
    rw [hmarkers.idxOf_eq_of_mem hmem]
    exact hmarkerPool.filter_idxOf (hmarkers.mem hmem)

/-- A string with a quote and a character of two bytes, after a constant given by its text. -/
theorem stringGlobal_holds_quoted :
    let edits : List Edit :=
      [.addGlobal (.verbatim "@x = global i8 0"), .stringGlobal "\"é", .cover "main"]
    (ofEdits true edits).Holds (stringName 0) "\"é" ∧ ∃ g, (ofEdits true edits).Holds g "main" := by
  obtain ⟨hstring, hmarker⟩ := stringGlobal_holds true
    [.addGlobal (.verbatim "@x = global i8 0"), .stringGlobal "\"é", .cover "main"]
    (by simp [Edit.Spares, Global.defines, stringName, markerName, isPrefixOf])
  obtain ⟨g, -, hg⟩ := hmarker [_, _] _ [] rfl rfl
  exact ⟨(hstring [_] _ [_] rfl).1, g, hg⟩

end Assembly

end IR

end Monomorph
