import LuaChecker.Proofs.Json.RoundTrip

/-!
# The grammar of JSON

Which texts are JSON, told by a grammar that knows nothing about reading or writing. A value
may have white space around it; numbers have no needless zeros at their start; in strings,
quotes, backslashes and control characters are escaped.

* `IsNumber`, `IsString`, `IsValue`, `IsJson`: the grammar;
* `isNumber_render`, `isString_renderText`, `isValue_render`: what is written obeys it;
* `isJson_pretty`: whole texts.
-/

namespace LuaChecker.Json

open Decimal

/-! ## Rules -/

def IsSpaces (text : List Char) : Prop :=
  ∀ c ∈ text, isSpace c = true

/-- One digit or more. -/
def IsDigits (text : List Char) : Prop :=
  text ≠ [] ∧ ∀ c ∈ text, c.isDigit = true

inductive IsFraction : List Char → Prop
  | absent : IsFraction []
  | point {ds : List Char} (hds : IsDigits ds) : IsFraction ('.' :: ds)

inductive IsExponent : List Char → Prop
  | absent : IsExponent []
  | mark {m : Char} {sign ds : List Char} (hm : m = 'e' ∨ m = 'E')
      (hsign : sign = [] ∨ sign = ['+'] ∨ sign = ['-']) (hds : IsDigits ds) :
      IsExponent (m :: (sign ++ ds))

inductive IsNumber : List Char → Prop
  | mk {sign whole fraction exponent : List Char} (hsign : sign = [] ∨ sign = ['-'])
      (hwhole : IsDigits whole) (hlead : whole.head? = some '0' → whole = ['0'])
      (hfraction : IsFraction fraction) (hexponent : IsExponent exponent) :
      IsNumber (sign ++ (whole ++ (fraction ++ exponent)))

def IsHexDigit (c : Char) : Prop :=
  c.isDigit = true ∨ 'a' ≤ c ∧ c ≤ 'f' ∨ 'A' ≤ c ∧ c ≤ 'F'

/-- What may stand in a string for one character or for half a surrogate pair. -/
inductive IsCharacter : List Char → Prop
  | plain {c : Char} (hcontrol : 32 ≤ c.toNat) (hquote : c ≠ '"') (hslash : c ≠ '\\') :
      IsCharacter [c]
  | escaped {c : Char} (hc : c ∈ ['"', '\\', '/', 'b', 'f', 'n', 'r', 't']) :
      IsCharacter ['\\', c]
  | code {ds : List Char} (hlength : ds.length = 4) (hds : ∀ d ∈ ds, IsHexDigit d) :
      IsCharacter ('\\' :: 'u' :: ds)

inductive IsString : List Char → Prop
  | mk {parts : List (List Char)} (hparts : ∀ part ∈ parts, IsCharacter part) :
      IsString ('"' :: (parts.flatten ++ ['"']))

/-- Something with white space around it. -/
inductive Spaced (P : List Char → Prop) : List Char → Prop
  | mk {before text after : List Char} (hbefore : IsSpaces before) (htext : P text)
      (hafter : IsSpaces after) : Spaced P (before ++ (text ++ after))

/-- One element or more, with commas between them. -/
inductive Separated (P : List Char → Prop) : List Char → Prop
  | last {text : List Char} (htext : Spaced P text) : Separated P text
  | more {text rest : List Char} (htext : Spaced P text) (hrest : Separated P rest) :
      Separated P (text ++ ',' :: rest)

/-- A member of an object whose values are told by `P`. -/
inductive IsMember (P : List Char → Prop) : List Char → Prop
  | mk {key space value : List Char} (hkey : IsString key) (hspace : IsSpaces space)
      (hvalue : Spaced P value) : IsMember P (key ++ (space ++ ':' :: value))

inductive IsValue : List Char → Prop
  | null : IsValue ['n', 'u', 'l', 'l']
  | true : IsValue ['t', 'r', 'u', 'e']
  | false : IsValue ['f', 'a', 'l', 's', 'e']
  | number {text : List Char} (htext : IsNumber text) : IsValue text
  | string {text : List Char} (htext : IsString text) : IsValue text
  | emptyArray {space : List Char} (hspace : IsSpaces space) : IsValue ('[' :: (space ++ [']']))
  | array {items : List Char} (hitems : Separated IsValue items) :
      IsValue ('[' :: (items ++ [']']))
  | emptyObject {space : List Char} (hspace : IsSpaces space) :
      IsValue ('\x7b' :: (space ++ ['\x7d']))
  | object {members : List Char} (hmembers : Separated (IsMember IsValue) members) :
      IsValue ('\x7b' :: (members ++ ['\x7d']))

/-- A text that is JSON. -/
def IsJson (text : String) : Prop :=
  Spaced IsValue text.toList

/-! ## Numbers and strings -/

theorem isDigits_map {ds : List Digit} (h : ds ≠ []) : IsDigits (ds.map Digit.toChar) := by
  refine ⟨by simpa using h, fun c hc => ?_⟩
  obtain ⟨d, -, rfl⟩ := List.mem_map.mp hc
  exact Digit.isDigit_toChar d

theorem isFraction_render (ds : List Digit) : IsFraction (Numeral.renderFraction ds) := by
  cases ds with
  | nil => exact .absent
  | cons d ds => exact .point (isDigits_map (List.cons_ne_nil d ds))

theorem isExponent_render (e : Option Int) : IsExponent (Numeral.renderExponent e) := by
  cases e with
  | none => exact .absent
  | some e =>
    have hsign : [if e < 0 then '-' else '+'] = ['+'] ∨ [if e < 0 then '-' else '+'] = ['-'] := by
      split
      · exact .inr rfl
      · exact .inl rfl
    exact .mark (.inl rfl) (.inr hsign) (isDigits_map (digits_ne_nil e.natAbs))

theorem isNumber_render {n : Numeral} (hn : IsNumeral n) : IsNumber n.render := by
  have hsign : (if n.negative then ['-'] else []) = [] ∨
      (if n.negative then ['-'] else []) = ['-'] := by
    split
    · exact .inr rfl
    · exact .inl rfl
  have hlead : (n.whole.map Digit.toChar).head? = some '0' → n.whole.map Digit.toChar = ['0'] := by
    intro h
    rw [List.head?_map, Option.map_eq_some_iff] at h
    obtain ⟨d, hd, hzero⟩ := h
    rw [hn.lead (hd.trans (congrArg some (toChar_eq_zero hzero)))]
    rfl
  rw [Numeral.render, List.append_assoc, List.append_assoc]
  exact .mk hsign (isDigits_map hn.whole_ne) hlead (isFraction_render _) (isExponent_render _)

theorem isHexDigit_hexDigit : ∀ n : Fin 16, IsHexDigit (hexDigit n) := by
  unfold IsHexDigit
  decide

theorem isCharacter_escape (c : Char) : IsCharacter (escape c) := by
  by_cases hshort : c ∈ ['"', '\\', '\x08', '\x0c', '\n', '\r', '\t']
  · simp only [List.mem_cons, List.not_mem_nil, or_false] at hshort
    rcases hshort with rfl | rfl | rfl | rfl | rfl | rfl | rfl <;> exact .escaped (by decide)
  · simp only [List.mem_cons, List.not_mem_nil, or_false, not_or] at hshort
    obtain ⟨hquote, hslash, hb, hf, hn, hr, ht⟩ := hshort
    simp only [escape, hquote, hslash, hb, hf, hn, hr, ht, if_false]
    split
    · rename_i hcontrol
      have hhigh := isHexDigit_hexDigit ⟨c.toNat / 16, by omega⟩
      have hlow := isHexDigit_hexDigit ⟨c.toNat % 16, by omega⟩
      have hzero : IsHexDigit '0' := .inl rfl
      refine .code rfl ?_
      simp only [List.forall_mem_cons, List.not_mem_nil, false_imp_iff, implies_true, and_true]
      exact ⟨hzero, hzero, hhigh, hlow⟩
    · rename_i hcontrol
      exact .plain (Nat.le_of_not_lt hcontrol) hquote hslash

theorem isString_renderText (s : String) : IsString (renderText (some s)) := by
  rw [renderText, List.flatMap_def]
  refine .mk fun part hpart => ?_
  obtain ⟨c, -, rfl⟩ := List.mem_map.mp hpart
  exact isCharacter_escape c

/-! ## Values -/

theorem isSpaces_nil : IsSpaces [] := by
  intro c hc
  cases hc

theorem Spaced.of {P : List Char → Prop} {text : List Char} (h : P text) : Spaced P text := by
  have hspaced := Spaced.mk isSpaces_nil h isSpaces_nil
  rwa [List.nil_append, List.append_nil] at hspaced

/-- Lines are separated by commas, and the line ends are white space. -/
theorem separated_lines {P : List Char → Prop} (indent : Nat) {ls : List (List Char)}
    (hne : ls ≠ []) (h : ∀ l ∈ ls, P l) {tail : List Char} (htail : IsSpaces tail) :
    Separated P (lines indent ls ++ tail) := by
  match ls with
  | [] => exact absurd rfl hne
  | [l] =>
    rw [lines_singleton, List.append_assoc]
    exact .last (.mk (isSpace_newline indent) (h l List.mem_cons_self) htail)
  | l :: l' :: ls =>
    have hfirst : Spaced P (newline indent ++ (l ++ [])) :=
      .mk (isSpace_newline indent) (h l List.mem_cons_self) isSpaces_nil
    have hrest := separated_lines indent (List.cons_ne_nil l' ls)
      (fun k hk => h k (List.mem_cons_of_mem l hk)) htail
    have hmore := Separated.more hfirst hrest
    rw [List.append_nil] at hmore
    rw [lines_cons_cons]
    simpa using hmore

theorem isValue_array (indent : Nat) {ls : List (List Char)} (h : ∀ l ∈ ls, IsValue l) :
    IsValue (enclose '[' ']' indent ls) := by
  cases ls with
  | nil => exact .emptyArray isSpaces_nil
  | cons l ls =>
    rw [enclose_cons, ← List.append_assoc]
    exact .array
      (separated_lines (indent + 1) (List.cons_ne_nil l ls) h (isSpace_newline indent))

theorem isValue_object (indent : Nat) {ls : List (List Char)} (h : ∀ l ∈ ls, IsMember IsValue l) :
    IsValue (enclose '\x7b' '\x7d' indent ls) := by
  cases ls with
  | nil => exact .emptyObject isSpaces_nil
  | cons l ls =>
    rw [enclose_cons, ← List.append_assoc]
    exact .object
      (separated_lines (indent + 1) (List.cons_ne_nil l ls) h (isSpace_newline indent))

theorem isMember_render (key : String) {value : List Char} (h : IsValue value) :
    IsMember IsValue (renderText (some key) ++ ':' :: ' ' :: value) := by
  have hspace : IsSpaces [' '] := by
    intro c hc
    rw [List.mem_singleton.mp hc]
    rfl
  have hvalue : Spaced IsValue ([' '] ++ (value ++ [])) := .mk hspace h isSpaces_nil
  rw [List.append_nil] at hvalue
  exact .mk (isString_renderText key) isSpaces_nil hvalue

mutual

theorem isValue_render (indent : Nat) (j : Json) (hj : j.IsPlain) : IsValue (render indent j) := by
  match j with
  | .null => exact .null
  | .bool true => exact .true
  | .bool false => exact .false
  | .number n => exact .number (isNumber_render hj)
  | .string (some s) => exact .string (isString_renderText s)
  | .array items => exact isValue_array indent (isValue_renderItems (indent + 1) items hj)
  | .object members => exact isValue_object indent (isMember_renderMembers (indent + 1) members hj)

theorem isValue_renderItems (indent : Nat) (items : List Json) (h : ArePlain items) :
    ∀ l ∈ renderItems indent items, IsValue l := by
  match items with
  | [] =>
    intro l hl
    cases hl
  | item :: items =>
    exact List.forall_mem_cons.mpr
      ⟨isValue_render indent item h.1, isValue_renderItems indent items h.2⟩

theorem isMember_renderMembers (indent : Nat) (members : List (Text × Json))
    (h : AreMembersPlain members) : ∀ l ∈ renderMembers indent members, IsMember IsValue l := by
  match members with
  | [] =>
    intro l hl
    cases hl
  | (none, value) :: members => cases h.1
  | (some key, value) :: members =>
    exact List.forall_mem_cons.mpr
      ⟨isMember_render key (isValue_render indent value h.2.1),
        isMember_renderMembers indent members h.2.2⟩

end

/-- What is written is JSON. -/
theorem isJson_pretty {j : Json} (hj : j.IsPlain) : IsJson j.pretty := by
  unfold IsJson pretty
  rw [String.toList_ofList]
  exact .of (isValue_render 0 j hj)

end LuaChecker.Json
