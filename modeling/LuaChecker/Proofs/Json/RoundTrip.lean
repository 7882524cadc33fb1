import LuaChecker.Json.Pretty
import LuaChecker.Json.Read

/-!
# Reading what was written

A value that is written is read again as the same value, whatever follows it. A number has to
be a numeral of JSON for that, without needless zeros at its start, and must not be followed
by something that would go on with it; a string has to stand for a text.

* `numeral?_render`, `text?_renderText`: numbers and strings;
* `IsPlain`: the values that JSON texts stand for;
* `value?_render`: values, with a step for every character;
* `read?_pretty`: whole texts.
-/

namespace LuaChecker.Json

open Decimal

/-! ## Numbers -/

/-- A numeral with a digit before its point, and no zero before other digits there. -/
structure IsNumeral (n : Numeral) : Prop where
  whole_ne : n.whole ≠ []
  lead : n.whole.head? = some Digit.zero → n.whole = [Digit.zero]

/-- A text that does not go on with the digits before it. -/
def EndsDigits (rest : List Char) : Prop :=
  ∀ c, rest.head? = some c → c.isDigit = false

/-- A text that does not go on with the numeral before it. -/
def EndsNumeral (rest : List Char) : Prop :=
  ∀ c, rest.head? = some c → c.isDigit = false ∧ c ≠ '.' ∧ c ≠ 'e' ∧ c ≠ 'E'

theorem endsNumeral_nil : EndsNumeral [] := by
  intro c h
  cases h

theorem endsNumeral_cons {c : Char} {rest : List Char}
    (h : c.isDigit = false ∧ c ≠ '.' ∧ c ≠ 'e' ∧ c ≠ 'E') : EndsNumeral (c :: rest) := by
  rintro d hd
  cases hd
  exact h

theorem endsDigits_cons {c : Char} {rest : List Char} (h : c.isDigit = false) :
    EndsDigits (c :: rest) := by
  rintro d hd
  cases hd
  exact h

theorem EndsNumeral.endsDigits {rest : List Char} (h : EndsNumeral rest) : EndsDigits rest :=
  fun c hc => (h c hc).1

theorem leadingDigits_append (ds : List Digit) {rest : List Char} (h : EndsDigits rest) :
    leadingDigits (ds.map Digit.toChar ++ rest) = ds ∧
      afterDigits (ds.map Digit.toChar ++ rest) = rest := by
  unfold leadingDigits afterDigits
  induction ds with
  | nil =>
    cases rest with
    | nil => exact ⟨rfl, rfl⟩
    | cons c rest => simp [h c rfl]
  | cons d ds ih => simpa using ih

theorem digits?_append {ds : List Digit} (hds : ds ≠ []) {rest : List Char} (h : EndsDigits rest) :
    digits? (ds.map Digit.toChar ++ rest) = some (ds, rest) := by
  obtain ⟨hlead, hafter⟩ := leadingDigits_append ds h
  unfold digits?
  rw [hlead, hafter]
  simp [hds]

theorem toChar_eq_zero {d : Digit} (h : d.toChar = '0') : d = Digit.zero := by
  revert d
  decide

theorem whole?_append {ds : List Digit} (hds : ds ≠ [])
    (hlead : ds.head? = some Digit.zero → ds = [Digit.zero]) {rest : List Char}
    (h : EndsDigits rest) : whole? (ds.map Digit.toChar ++ rest) = some (ds, rest) := by
  cases ds with
  | nil => exact absurd rfl hds
  | cons d ds =>
    by_cases hd : d = Digit.zero
    · subst hd
      cases hlead rfl
      rfl
    · have hdigits := digits?_append hds h
      rw [List.map_cons, List.cons_append] at hdigits ⊢
      unfold whole?
      split
      · rename_i heq
        exact absurd (toChar_eq_zero (List.cons.inj heq).1) hd
      · exact hdigits

theorem fraction?_append (ds : List Digit) {rest : List Char} (h : EndsDigits rest)
    (hpoint : rest.head? ≠ some '.') :
    fraction? (Numeral.renderFraction ds ++ rest) = some (ds, rest) := by
  cases ds with
  | nil =>
    rw [Numeral.renderFraction, List.nil_append]
    unfold fraction?
    split
    · exact absurd rfl hpoint
    · rfl
  | cons d ds => exact digits?_append (List.cons_ne_nil d ds) h

theorem digits_ne_nil (n : Nat) : digits n ≠ [] := by
  rw [digits]
  split <;> simp

/-- The digits of a number other than zero do not start with a zero. -/
theorem head?_digits {n : Nat} (h : 0 < n) : (digits n).head? ≠ some Digit.zero := by
  rw [digits]
  split
  · simp only [List.head?_cons, ne_eq, Option.some.injEq, Digit.zero, Fin.ext_iff, Fin.val_zero]
    omega
  · have ih := head?_digits (n := n / 10) (by omega)
    cases hds : digits (n / 10) with
    | nil => exact absurd hds (digits_ne_nil _)
    | cons d ds =>
      rw [hds] at ih
      exact ih

theorem exponent?_append (e : Option Int) {rest : List Char} (h : EndsNumeral rest) :
    exponent? (Numeral.renderExponent e ++ rest) = some (e, rest) := by
  cases e with
  | none =>
    rw [Numeral.renderExponent, List.nil_append]
    unfold exponent?
    split
    · exact absurd rfl (h 'e' rfl).2.2.1
    · exact absurd rfl (h 'E' rfl).2.2.2
    · rfl
  | some e =>
    have hdigits := digits?_append (digits_ne_nil e.natAbs) h.endsDigits
    rw [Numeral.renderExponent]
    by_cases he : e < 0
    · rw [if_pos he, List.cons_append, List.cons_append, exponent?, signedExponent?, hdigits]
      simp only [Option.map_some, ofDigits_digits, Option.some.injEq, Prod.mk.injEq, and_true]
      omega
    · rw [if_neg he, List.cons_append, List.cons_append, exponent?, signedExponent?, hdigits]
      simp only [Option.map_some, ofDigits_digits, Option.some.injEq, Prod.mk.injEq, and_true]
      omega

theorem unsigned?_append {n : Numeral} (hn : IsNumeral n) {rest : List Char}
    (h : EndsNumeral rest) :
    unsigned? n.negative (n.whole.map Digit.toChar ++
      (Numeral.renderFraction n.fraction ++ (Numeral.renderExponent n.exponent ++ rest))) =
        some (n, rest) := by
  have hexponent : EndsDigits (Numeral.renderExponent n.exponent ++ rest) ∧
      (Numeral.renderExponent n.exponent ++ rest).head? ≠ some '.' := by
    cases n.exponent with
    | none => exact ⟨h.endsDigits, fun hc => (h '.' hc).2.1 rfl⟩
    | some e => exact ⟨endsDigits_cons rfl, by simp [Numeral.renderExponent]⟩
  have hfraction : EndsDigits (Numeral.renderFraction n.fraction ++
      (Numeral.renderExponent n.exponent ++ rest)) := by
    cases n.fraction with
    | nil => exact hexponent.1
    | cons d ds => exact endsDigits_cons rfl
  unfold unsigned?
  rw [whole?_append hn.whole_ne hn.lead hfraction]
  simp only [Option.bind_eq_bind, Option.bind_some]
  rw [fraction?_append _ hexponent.1 hexponent.2]
  simp only [Option.bind_some]
  rw [exponent?_append _ h]
  rfl

/-- A numeral starts with a sign or with a digit. -/
theorem render_head {n : Numeral} (hn : IsNumeral n) :
    ∃ c cs, n.render = c :: cs ∧ (c = '-' ∨ c.isDigit = true) := by
  unfold Numeral.render
  cases n.negative with
  | true => exact ⟨_, _, rfl, .inl rfl⟩
  | false =>
    obtain ⟨d, ds, hds⟩ := List.exists_cons_of_ne_nil hn.whole_ne
    rw [hds]
    exact ⟨_, _, rfl, .inr (Digit.isDigit_toChar d)⟩

theorem numeral?_render {n : Numeral} (hn : IsNumeral n) {rest : List Char}
    (h : EndsNumeral rest) : numeral? (n.render ++ rest) = some (n, rest) := by
  have hunsigned := unsigned?_append hn h
  obtain ⟨d, ds, hds⟩ := List.exists_cons_of_ne_nil hn.whole_ne
  unfold Numeral.render
  simp only [List.append_assoc]
  cases hnegative : n.negative with
  | true =>
    rw [hnegative] at hunsigned
    exact hunsigned
  | false =>
    rw [hnegative, hds, List.map_cons, List.cons_append] at hunsigned
    rw [if_neg Bool.false_ne_true, List.nil_append, hds, List.map_cons, List.cons_append]
    unfold numeral?
    split
    · rename_i heq
      have hdigit := Digit.isDigit_toChar d
      rw [(List.cons.inj heq).1] at hdigit
      cases hdigit
    · exact hunsigned

/-! ## Strings -/

/-- How a character comes back from a string literal. -/
def partOf (c : Char) : Part :=
  if c.toNat < 32 ∧ ¬ c ∈ ['\x08', '\x0c', '\n', '\r', '\t'] then .unit c.toNat else .plain c

theorem hexValue?_hexDigit : ∀ n : Fin 16, hexValue? (hexDigit n) = some n := by
  decide

theorem hexCode?_control {c : Char} (h : c.toNat < 32) :
    hexCode? '0' '0' (hexDigit (c.toNat / 16)) (hexDigit (c.toNat % 16)) = some c.toNat := by
  have hhigh := hexValue?_hexDigit ⟨c.toNat / 16, by omega⟩
  have hlow := hexValue?_hexDigit ⟨c.toNat % 16, by omega⟩
  have hzero : hexValue? '0' = some 0 := by decide
  simp only at hhigh hlow
  unfold hexCode?
  rw [hhigh, hlow, hzero]
  simp only [Option.bind_eq_bind, Option.bind_some, Option.pure_def, Option.some.injEq]
  omega

theorem partsOnto?_escape (acc : List Part) (c : Char) (rest : List Char) :
    partsOnto? acc (escape c ++ rest) = partsOnto? (partOf c :: acc) rest := by
  by_cases hshort : c ∈ ['"', '\\', '\x08', '\x0c', '\n', '\r', '\t']
  · simp only [List.mem_cons, List.not_mem_nil, or_false] at hshort
    rcases hshort with rfl | rfl | rfl | rfl | rfl | rfl | rfl <;>
      simp [escape, partsOnto?, escaped?, partOf]
  · simp only [List.mem_cons, List.not_mem_nil, or_false, not_or] at hshort
    obtain ⟨hquote, hslash, hb, hf, hn, hr, ht⟩ := hshort
    simp only [escape, hquote, hslash, hb, hf, hn, hr, ht, if_false]
    by_cases hcontrol : c.toNat < 32
    · have hpart : partOf c = .unit c.toNat := if_pos ⟨hcontrol, by simp [hb, hf, hn, hr, ht]⟩
      rw [if_pos hcontrol, hpart]
      simp only [List.cons_append, List.nil_append]
      rw [partsOnto?, hexCode?_control hcontrol]
    · have hpart : partOf c = .plain c := if_neg (by simp [hcontrol])
      rw [if_neg hcontrol, hpart, List.singleton_append, partsOnto?.eq_def]
      split
      · rename_i heq
        cases heq
      · rename_i heq
        exact absurd (List.cons.inj heq).1 hquote
      · rename_i heq
        exact absurd (List.cons.inj heq).1 hslash
      · rename_i heq
        exact absurd (List.cons.inj heq).1 hslash
      · rename_i heq
        cases heq
        simp [hslash, hcontrol]

theorem partsOnto?_flatMap (acc : List Part) (cs rest : List Char) :
    partsOnto? acc (cs.flatMap escape ++ '"' :: rest) =
      some (acc.reverse ++ cs.map partOf, rest) := by
  induction cs generalizing acc with
  | nil => simp [partsOnto?]
  | cons c cs ih =>
    rw [List.flatMap_cons, List.append_assoc, partsOnto?_escape, ih, List.map_cons]
    simp

theorem joinParts_partOf (c : Char) {ps : List Part} {cs : List Char}
    (h : joinParts ps = some cs) : joinParts (partOf c :: ps) = some (c :: cs) := by
  unfold partOf
  split
  · rename_i hcontrol
    have hhigh : isHigh c.toNat = false := by
      simp only [isHigh, Bool.and_eq_false_iff, decide_eq_false_iff_not]
      omega
    have hlow : isLow c.toNat = false := by
      simp only [isLow, Bool.and_eq_false_iff, decide_eq_false_iff_not]
      omega
    cases ps with
    | nil => simp_all [joinParts]
    | cons p ps => cases p <;> simp_all [joinParts]
  · simp [joinParts, h]

theorem joinParts_map (cs : List Char) : joinParts (cs.map partOf) = some cs := by
  induction cs with
  | nil => rfl
  | cons c cs ih => exact joinParts_partOf c ih

theorem text?_renderText (s : String) (rest : List Char) :
    ∃ cs, renderText (some s) ++ rest = '"' :: cs ∧ text? cs = some (some s, rest) := by
  refine ⟨s.toList.flatMap escape ++ '"' :: rest, by simp [renderText], ?_⟩
  unfold text?
  rw [partsOnto?_flatMap, List.reverse_nil, List.nil_append, Option.map_some, joinParts_map,
    Option.map_some, String.ofList_toList]

/-! ## Values -/

mutual

/-- A value whose numbers are numerals and whose strings stand for texts. -/
def IsPlain : Json → Prop
  | null => True
  | bool _ => True
  | number n => IsNumeral n
  | string text => text.isSome = true
  | array items => ArePlain items
  | object members => AreMembersPlain members

def ArePlain : List Json → Prop
  | [] => True
  | item :: items => IsPlain item ∧ ArePlain items

def AreMembersPlain : List (Text × Json) → Prop
  | [] => True
  | (key, value) :: members => key.isSome = true ∧ IsPlain value ∧ AreMembersPlain members

end

theorem skipSpace_append {ws : List Char} (h : ∀ c ∈ ws, isSpace c = true) (text : List Char) :
    skipSpace (ws ++ text) = skipSpace text := by
  induction ws with
  | nil => rfl
  | cons c ws ih =>
    have hc : isSpace c = true := h c List.mem_cons_self
    rw [List.cons_append, skipSpace, List.dropWhile_cons_of_pos hc]
    exact ih fun d hd => h d (List.mem_cons_of_mem c hd)

theorem skipSpace_cons {c : Char} (h : isSpace c = false) (text : List Char) :
    skipSpace (c :: text) = c :: text := by
  rw [skipSpace, List.dropWhile_cons_of_neg (by simp [h])]

theorem isSpace_newline (indent : Nat) : ∀ c ∈ newline indent, isSpace c = true := by
  intro c hc
  rw [newline, List.mem_cons, List.mem_replicate] at hc
  rcases hc with rfl | ⟨-, rfl⟩ <;> rfl

/-- White space before a value is skipped. -/
theorem value?_space (steps : Nat) {ws : List Char} (h : ∀ c ∈ ws, isSpace c = true)
    (text : List Char) : value? steps (ws ++ text) = value? steps text := by
  cases steps with
  | zero => rfl
  | succ steps => rw [value?, value?, skipSpace_append h]

/-- A sign or a digit starts a number. -/
theorem value?_numeral (steps : Nat) {c : Char} (h : c = '-' ∨ c.isDigit = true)
    (cs : List Char) :
    value? (steps + 1) (c :: cs) = (numeral? (c :: cs)).map fun r => (number r.1, r.2) := by
  have hne : ∀ d, d ≠ '-' → d.isDigit = false → c ≠ d := by
    rintro d hsign hdigit rfl
    rcases h with h | h
    · exact hsign h
    · rw [hdigit] at h
      cases h
  have hspace : isSpace c = false := by
    simp [isSpace, hne ' ' (by decide) rfl, hne '\t' (by decide) rfl, hne '\n' (by decide) rfl,
      hne '\r' (by decide) rfl]
  rw [value?, skipSpace_cons hspace]
  split
  case h_7 => rfl
  all_goals
    rename_i heq
    exact absurd (List.cons.inj heq).1 (hne _ (by decide) rfl)

/-- What a value starts with. -/
theorem render_start (indent : Nat) (j : Json) (hj : j.IsPlain) :
    ∃ c cs, render indent j = c :: cs ∧ isSpace c = false ∧ c ≠ ']' := by
  cases j with
  | null => exact ⟨_, _, rfl, rfl, by decide⟩
  | bool b => cases b <;> exact ⟨_, _, rfl, rfl, by decide⟩
  | number n =>
    obtain ⟨c, cs, hcs, hc⟩ := render_head hj
    refine ⟨c, cs, by rw [render, hcs], ?_⟩
    rcases hc with rfl | hc
    · exact ⟨rfl, by decide⟩
    · constructor
      · rw [← Bool.not_eq_true]
        intro hspace
        simp only [isSpace, Bool.or_eq_true, decide_eq_true_eq] at hspace
        rcases hspace with ((rfl | rfl) | rfl) | rfl <;> cases hc
      · rintro rfl
        cases hc
  | string text =>
    cases text with
    | none => cases hj
    | some s => exact ⟨_, _, rfl, rfl, by decide⟩
  | array items => cases items <;> exact ⟨_, _, rfl, rfl, by decide⟩
  | object members =>
    cases members with
    | nil => exact ⟨_, _, rfl, rfl, by decide⟩
    | cons m members => exact ⟨_, _, rfl, rfl, by decide⟩

/-- Lines with separators between them and a line end before each. -/
def lines (indent : Nat) (ls : List (List Char)) : List Char :=
  newline indent ++ List.intercalate (',' :: newline indent) ls

theorem lines_cons_cons (indent : Nat) (l l' : List Char) (ls : List (List Char)) :
    lines indent (l :: l' :: ls) = newline indent ++ (l ++ ',' :: lines indent (l' :: ls)) := by
  simp [lines, List.intercalate_cons_cons]

theorem lines_singleton (indent : Nat) (l : List Char) :
    lines indent [l] = newline indent ++ l := by
  simp [lines]

/-- The first character of the first line follows the white space before it. -/
theorem skipSpace_lines (indent : Nat) {c : Char} (hc : isSpace c = false) (l : List Char)
    (ls : List (List Char)) (tail : List Char) :
    ∃ text, skipSpace (lines indent ((c :: l) :: ls) ++ tail) = c :: text := by
  cases ls with
  | nil =>
    refine ⟨l ++ tail, ?_⟩
    rw [lines_singleton, List.append_assoc, skipSpace_append (isSpace_newline indent)]
    exact skipSpace_cons hc _
  | cons l' ls =>
    refine ⟨l ++ (',' :: lines indent (l' :: ls) ++ tail), ?_⟩
    rw [lines_cons_cons, List.append_assoc, skipSpace_append (isSpace_newline indent),
      List.append_assoc]
    exact skipSpace_cons hc _

theorem enclose_cons (opening closing : Char) (indent : Nat) (l : List Char)
    (ls : List (List Char)) :
    enclose opening closing indent (l :: ls) =
      opening :: (lines (indent + 1) (l :: ls) ++ (newline indent ++ [closing])) := by
  simp [enclose, lines]

theorem endsNumeral_newline (indent : Nat) (text : List Char) :
    EndsNumeral (newline indent ++ text) :=
  endsNumeral_cons (by decide)

/-- The members of an object are read up to the value of the first one. -/
theorem members?_key (steps indent : Nat) (acc : List (Text × Json)) (key : String)
    (text : List Char) :
    members? (steps + 1) acc (newline indent ++ (renderText (some key) ++ ':' :: ' ' :: text)) =
      match value? steps text with
      | none => none
      | some (value, text) =>
        match skipSpace text with
        | ',' :: rest => members? steps ((some key, value) :: acc) rest
        | '\x7d' :: rest => some (((some key, value) :: acc).reverse, rest)
        | _ => none := by
  obtain ⟨cs, hcs, hkey⟩ := text?_renderText key (':' :: ' ' :: text)
  have hstart : skip? ['"'] ('"' :: cs) = some cs := rfl
  have hcolon : skip? [':'] (':' :: ' ' :: text) = some (' ' :: text) := rfl
  have hspace : value? steps (' ' :: text) = value? steps text :=
    value?_space steps (List.forall_mem_singleton.mpr (rfl : isSpace ' ' = true)) text
  have hread : (skip? [':'] (skipSpace (':' :: ' ' :: text))).bind (value? steps) =
      value? steps text := by
    rw [skipSpace_cons rfl, hcolon, Option.bind_some, hspace]
  rw [members?, skipSpace_append (isSpace_newline indent), hcs, skipSpace_cons rfl, hstart,
    Option.bind_some, hkey]
  simp only
  exact hread ▸ rfl

theorem render_array (indent : Nat) (item : Json) (items : List Json) :
    render indent (array (item :: items)) =
      '[' :: (lines (indent + 1) (renderItems (indent + 1) (item :: items)) ++
        (newline indent ++ [']'])) := by
  rw [render, renderItems, enclose_cons]

theorem render_object (indent : Nat) (key : String) (value : Json)
    (members : List (Text × Json)) :
    render indent (object ((some key, value) :: members)) =
      '\x7b' :: (lines (indent + 1) (renderMembers (indent + 1) ((some key, value) :: members)) ++
        (newline indent ++ ['\x7d'])) := by
  rw [render, renderMembers, enclose_cons]

/-- An array is read if its items are. -/
theorem value?_array {indent steps : Nat} {item : Json} {items : List Json} {rest : List Char}
    (hitem : item.IsPlain)
    (hread : items? steps [] (lines (indent + 1) (renderItems (indent + 1) (item :: items)) ++
      (newline indent ++ ']' :: rest)) = some (item :: items, rest)) :
    value? (steps + 1) (render indent (array (item :: items)) ++ rest) =
      some (array (item :: items), rest) := by
  obtain ⟨c, cs, hcs, hspace, hne⟩ := render_start (indent + 1) item hitem
  obtain ⟨text, htext⟩ := skipSpace_lines (indent + 1) hspace cs
    (renderItems (indent + 1) items) (newline indent ++ ']' :: rest)
  rw [← hcs, ← renderItems] at htext
  rw [render_array, List.cons_append, List.append_assoc, List.append_assoc,
    List.singleton_append, value?, skipSpace_cons rfl]
  simp only [htext, hread, Option.map_some]
  split
  · rename_i heq
    exact absurd (List.cons.inj heq).1 hne
  · rfl

/-- An object is read if its members are. -/
theorem value?_object {indent steps : Nat} {key : String} {value : Json}
    {members : List (Text × Json)} {rest : List Char}
    (hread : members? steps []
      (lines (indent + 1) (renderMembers (indent + 1) ((some key, value) :: members)) ++
        (newline indent ++ '\x7d' :: rest)) = some ((some key, value) :: members, rest)) :
    value? (steps + 1) (render indent (object ((some key, value) :: members)) ++ rest) =
      some (object ((some key, value) :: members), rest) := by
  obtain ⟨cs, hcs, -⟩ := text?_renderText key (':' :: ' ' :: render (indent + 1) value)
  obtain ⟨text, htext⟩ := skipSpace_lines (indent + 1) (c := '"') rfl cs
    (renderMembers (indent + 1) members) (newline indent ++ '\x7d' :: rest)
  rw [← hcs, ← renderMembers] at htext
  rw [render_object, List.cons_append, List.append_assoc, List.append_assoc,
    List.singleton_append, value?, skipSpace_cons rfl]
  simp only [htext, hread]
  simp

mutual

theorem value?_render (indent : Nat) (j : Json) (hj : j.IsPlain) (steps : Nat) (rest : List Char)
    (hsteps : (render indent j).length ≤ steps) (hrest : EndsNumeral rest) :
    value? steps (render indent j ++ rest) = some (j, rest) := by
  obtain ⟨steps, rfl⟩ : ∃ s, steps = s + 1 := by
    obtain ⟨c, cs, hcs, -⟩ := render_start indent j hj
    rw [hcs, List.length_cons] at hsteps
    exact ⟨steps - 1, by omega⟩
  match j with
  | null => rfl
  | bool true => rfl
  | bool false => rfl
  | number n =>
    have hread := numeral?_render hj hrest
    obtain ⟨c, cs, hcs, hc⟩ := render_head hj
    rw [render]
    rw [hcs, List.cons_append] at hread ⊢
    rw [value?_numeral steps hc, hread]
    rfl
  | string (some s) =>
    obtain ⟨cs, hcs, hread⟩ := text?_renderText s rest
    rw [render, hcs, value?, skipSpace_cons rfl]
    simp only [hread, Option.map_some]
  | array [] => rfl
  | array (item :: items) =>
    rw [render_array, List.length_cons, List.length_append] at hsteps
    refine value?_array hj.1 ?_
    exact items?_render (indent + 1) (item :: items) (List.cons_ne_nil _ _) hj steps []
      (skipSpace_append (isSpace_newline indent) (']' :: rest)) (endsNumeral_newline indent _)
      (by omega)
  | object [] => rfl
  | object ((none, value) :: members) => cases hj.1
  | object ((some key, value) :: members) =>
    rw [render_object, List.length_cons, List.length_append] at hsteps
    refine value?_object ?_
    exact members?_render (indent + 1) ((some key, value) :: members) (List.cons_ne_nil _ _) hj
      steps [] (skipSpace_append (isSpace_newline indent) ('\x7d' :: rest))
      (endsNumeral_newline indent _) (by omega)

theorem items?_render (indent : Nat) (items : List Json) (hne : items ≠ [])
    (hitems : ArePlain items) (steps : Nat) (acc : List Json) {tail rest : List Char}
    (htail : skipSpace tail = ']' :: rest) (hends : EndsNumeral tail)
    (hsteps : (lines indent (renderItems indent items)).length ≤ steps) :
    items? steps acc (lines indent (renderItems indent items) ++ tail) =
      some (acc.reverse ++ items, rest) := by
  match items with
  | [] => exact absurd rfl hne
  | [item] =>
    rw [renderItems, renderItems, lines_singleton] at hsteps ⊢
    obtain ⟨steps, rfl⟩ : ∃ s, steps = s + 1 := ⟨steps - 1, by simp [newline] at hsteps; omega⟩
    have hvalue := value?_render indent item hitems.1 steps tail
      (by simp [newline] at hsteps; omega) hends
    rw [items?, List.append_assoc, value?_space steps (isSpace_newline indent), hvalue]
    simp only [htail, List.reverse_cons]
  | item :: next :: items =>
    rw [renderItems, renderItems, lines_cons_cons, ← renderItems] at hsteps ⊢
    obtain ⟨steps, rfl⟩ : ∃ s, steps = s + 1 := ⟨steps - 1, by simp [newline] at hsteps; omega⟩
    have hvalue := value?_render indent item hitems.1 steps
      (',' :: (lines indent (renderItems indent (next :: items)) ++ tail))
      (by simp [newline] at hsteps; omega) (endsNumeral_cons (by decide))
    have hread := items?_render indent (next :: items) (List.cons_ne_nil _ _) hitems.2
      steps (item :: acc) htail hends (by simp [newline] at hsteps; omega)
    rw [items?, List.append_assoc, value?_space steps (isSpace_newline indent), List.append_assoc,
      List.cons_append, hvalue]
    simp only [skipSpace_cons (c := ',') rfl, hread]
    simp

theorem members?_render (indent : Nat) (members : List (Text × Json)) (hne : members ≠ [])
    (hmembers : AreMembersPlain members) (steps : Nat) (acc : List (Text × Json))
    {tail rest : List Char} (htail : skipSpace tail = '\x7d' :: rest) (hends : EndsNumeral tail)
    (hsteps : (lines indent (renderMembers indent members)).length ≤ steps) :
    members? steps acc (lines indent (renderMembers indent members) ++ tail) =
      some (acc.reverse ++ members, rest) := by
  match members with
  | [] => exact absurd rfl hne
  | (none, value) :: members => cases hmembers.1
  | [(some key, value)] =>
    rw [renderMembers, renderMembers, lines_singleton] at hsteps ⊢
    obtain ⟨steps, rfl⟩ : ∃ s, steps = s + 1 := ⟨steps - 1, by simp [newline] at hsteps; omega⟩
    have hvalue := value?_render indent value hmembers.2.1 steps tail
      (by simp [newline] at hsteps; omega) hends
    rw [List.append_assoc, List.append_assoc, List.cons_append, List.cons_append, members?_key,
      hvalue]
    simp only [htail, List.reverse_cons]
  | (some key, value) :: (next, value') :: members =>
    rw [renderMembers, renderMembers, lines_cons_cons, ← renderMembers] at hsteps ⊢
    obtain ⟨steps, rfl⟩ : ∃ s, steps = s + 1 := ⟨steps - 1, by simp [newline] at hsteps; omega⟩
    have hvalue := value?_render indent value hmembers.2.1 steps
      (',' :: (lines indent (renderMembers indent ((next, value') :: members)) ++ tail))
      (by simp [newline] at hsteps; omega) (endsNumeral_cons (by decide))
    have hread := members?_render indent ((next, value') :: members) (List.cons_ne_nil _ _) hmembers.2.2
      steps ((some key, value) :: acc) htail hends
      (by simp [newline] at hsteps; omega)
    rw [List.append_assoc, List.append_assoc, List.append_assoc, List.cons_append,
      List.cons_append, List.cons_append, members?_key, hvalue]
    simp only [skipSpace_cons (c := ',') rfl, hread]
    simp

end

/-- A value is read from its text, and nothing else. -/
theorem read?_pretty {j : Json} (hj : j.IsPlain) : read? j.pretty = some j := by
  have hread := value?_render 0 j hj (2 * (render 0 j).length + 2) [] (by omega)
    endsNumeral_nil
  rw [List.append_nil] at hread
  unfold read? pretty
  rw [String.toList_ofList, hread]
  rfl

end LuaChecker.Json
