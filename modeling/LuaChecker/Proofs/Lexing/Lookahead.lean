import LuaChecker.Proofs.Lexing.Contract

/-!
# How far a piece looks ahead

A piece without flaws is found by the characters that it covers and by the one behind them,
although some searches for a closing go through the whole source. So the text behind such a
piece may be exchanged for one that starts with the same character. A token may also be
followed by white space, or by nothing, whatever came behind it.

* `Exchanges`: when one text may stand for another behind a token;
* `word_again`, `number_again`, `string_again`, `symbol_again`, `comment_again`: each scanner
  reads the same piece again;
* `scan_again`: every piece without flaws, before the same character or a line end;
* `scan_token_again`: every token without flaws, before white space, with and without
  comments.
-/

namespace LuaChecker

namespace Text

/-! ## Exchanging what comes behind -/

/-- The text `after'` may stand where `after` stands: it starts with the same character, with
white space, or not at all. -/
def Exchanges (after after' : List Char) : Prop :=
  after'.head? = after.head? ∨ ∀ c ∈ after'.head?, isBlank c = true

variable {tail after after' : List Char}

theorem Exchanges.append (h : Exchanges after after') (tail : List Char) :
    Exchanges (tail ++ after) (tail ++ after') := by
  cases tail with
  | nil => exact h
  | cons c cs => exact .inl rfl

/-- What ends a piece still ends it, if white space does. -/
theorem Exchanges.stops {p : Char → Bool} (h : Exchanges after after')
    (hblank : ∀ c, isBlank c = true → p c = false) (hstop : ∀ c ∈ after.head?, p c = false) :
    ∀ c ∈ after'.head?, p c = false := by
  intro c hc
  rcases h with hsame | hapart
  · rw [hsame] at hc
    exact hstop c hc
  · exact hblank c (hapart c hc)

theorem Exchanges.head?_ne {c : Char} (h : Exchanges after after') (hc : isBlank c = false)
    (hne : after.head? ≠ some c) : after'.head? ≠ some c := by
  intro hfirst
  rcases h with hsame | hapart
  · exact hne (hsame ▸ hfirst)
  · rw [hapart c hfirst] at hc
    cases hc

theorem takeWhile_exact {p : Char → Bool} (htail : ∀ c ∈ tail, p c = true)
    (hstop : ∀ c ∈ after.head?, p c = false) : (tail ++ after).takeWhile p = tail := by
  rw [List.takeWhile_append_of_pos htail]
  cases after with
  | nil => simp
  | cons c cs => simp [hstop c rfl]

theorem takeWhile_exact_iff {p : Char → Bool} :
    (tail ++ after).takeWhile p = tail ↔
      (∀ c ∈ tail, p c = true) ∧ ∀ c ∈ after.head?, p c = false := by
  constructor
  · intro h
    constructor
    · intro c hc
      rw [← h] at hc
      exact List.mem_takeWhile_imp hc
    · have hstop := head?_drop_takeWhile p (tail ++ after)
      rwa [h, List.drop_left] at hstop
  · rintro ⟨htail, hstop⟩
    exact takeWhile_exact htail hstop

theorem takeWhile_again {p : Char → Bool} (hex : Exchanges after after')
    (hblank : ∀ c, isBlank c = true → p c = false) (h : (tail ++ after).takeWhile p = tail) :
    (tail ++ after').takeWhile p = tail := by
  obtain ⟨htail, hstop⟩ := takeWhile_exact_iff.mp h
  exact takeWhile_exact htail (hex.stops hblank hstop)

/-- A machine that white space stops reads the same stretch again. -/
theorem stretch_again {σ β : Type} {step : σ → Char → Option (σ × β)} {s : σ}
    (hex : Exchanges after after') (hblank : ∀ s c, isBlank c = true → step s c = none)
    (h : (stretch step s (tail ++ after)).map Prod.fst = tail) :
    stretch step s (tail ++ after') = stretch step s (tail ++ after) := by
  induction tail generalizing s with
  | nil =>
    have hnone : ∀ c ∈ after'.head?, (step s c).isSome = false := by
      apply hex.stops
      · intro c hc
        rw [hblank s c hc]
        rfl
      · intro c hc
        obtain ⟨cs, rfl⟩ := List.head?_eq_some_iff.mp hc
        cases hstep : step s c with
        | none => rfl
        | some r => simp [stretch_cons, hstep] at h
    have hempty : stretch step s after = [] := List.map_eq_nil_iff.mp h
    rw [List.nil_append, List.nil_append, hempty]
    cases after' with
    | nil => rfl
    | cons c cs =>
      have hstop : step s c = none := Option.not_isSome_iff_eq_none.mp (by simp [hnone c rfl])
      rw [stretch_cons, hstop]
  | cons c cs ih =>
    rw [List.cons_append, stretch_cons] at h ⊢
    rw [List.cons_append, stretch_cons]
    cases hstep : step s c with
    | none => simp [hstep] at h
    | some r =>
      have htail : (stretch step r.1 (cs ++ after)).map Prod.fst = cs := by
        simpa [hstep] using h
      simp only [ih htail]

/-- A search finds the same occurrence again, whatever comes behind it. -/
theorem before?_again {pattern text inner : List Char} (hne : pattern ≠ [])
    (h : before? pattern text = some inner) (after : List Char) :
    before? pattern (inner ++ pattern ++ after) = some inner := by
  have hfirst := ((before?_eq_some_iff hne).mp h).2
  exact (before?_eq_some_iff hne).mpr ⟨List.prefix_append _ after, hfirst⟩

/-! ## White space -/

/-- A character of ASCII that is neither a space nor a control character. -/
def IsVisible (c : Char) : Prop := 0x20 < c.toNat ∧ c.toNat < 0x7F

theorem not_isVisible {c : Char} (h : isBlank c = true) : ¬ IsVisible c := by
  rintro ⟨hlo, hhi⟩
  simp only [isBlank, blankRanges, List.any_cons, List.any_nil, Bool.or_false, Bool.or_eq_true,
    Bool.and_eq_true, decide_eq_true_eq] at h
  omega

theorem isVisible_of_between {lo hi c : Char} (hlo : IsVisible lo) (hhi : IsVisible hi)
    (h : lo ≤ c ∧ c ≤ hi) : IsVisible c := by
  have hle : lo.toNat ≤ c.toNat ∧ c.toNat ≤ hi.toNat := h
  unfold IsVisible at hlo hhi ⊢
  omega

theorem isVisible_of_isDigit {c : Char} (h : c.isDigit = true) : IsVisible c := by
  simp only [Char.isDigit, Bool.and_eq_true, decide_eq_true_eq] at h
  have hbetween : '0' ≤ c ∧ c ≤ '9' := h
  exact isVisible_of_between ⟨by decide, by decide⟩ ⟨by decide, by decide⟩ hbetween

theorem isVisible_of_isAlpha {c : Char} (h : c.isAlpha = true) : IsVisible c := by
  rcases Bool.or_eq_true_iff.mp h with hupper | hlower
  · have hbetween : 'A' ≤ c ∧ c ≤ 'Z' := of_decide_eq_true hupper
    exact isVisible_of_between ⟨by decide, by decide⟩ ⟨by decide, by decide⟩ hbetween
  · obtain ⟨hlo, hhi⟩ := Bool.and_eq_true_iff.mp hlower
    have hbetween : 'a' ≤ c ∧ c ≤ 'z' := ⟨of_decide_eq_true hlo, of_decide_eq_true hhi⟩
    exact isVisible_of_between ⟨by decide, by decide⟩ ⟨by decide, by decide⟩ hbetween

end Text

namespace Piece

open Text (Exchanges)

theorem isNamePart_of_isBlank {c : Char} (h : Text.isBlank c = true) : isNamePart c = false := by
  rw [← Bool.not_eq_true]
  intro hpart
  apply Text.not_isVisible h
  simp only [isNamePart, Char.isAlphanum, Bool.or_eq_true, decide_eq_true_eq] at hpart
  rcases hpart with (halpha | hdigit) | rfl
  · exact Text.isVisible_of_isAlpha halpha
  · exact Text.isVisible_of_isDigit hdigit
  · exact ⟨by decide, by decide⟩

theorem isHexDigit_of_isBlank {c : Char} (h : Text.isBlank c = true) : isHexDigit c = false := by
  rw [← Bool.not_eq_true]
  intro hhex
  apply Text.not_isVisible h
  simp only [isHexDigit, Bool.or_eq_true, Bool.and_eq_true, decide_eq_true_eq] at hhex
  rcases hhex with (hdigit | hlower) | hupper
  · exact Text.isVisible_of_isDigit hdigit
  · exact Text.isVisible_of_between ⟨by decide, by decide⟩ ⟨by decide, by decide⟩ hlower
  · exact Text.isVisible_of_between ⟨by decide, by decide⟩ ⟨by decide, by decide⟩ hupper

theorem isVisible_of_isSign {c : Char} (h : isSign c = true) : Text.IsVisible c := by
  simp only [isSign, Bool.or_eq_true, decide_eq_true_eq] at h
  rcases h with rfl | rfl <;> exact ⟨by decide, by decide⟩

theorem isVisible_of_isExponentMark {c : Char} (h : isExponentMark c = true) :
    Text.IsVisible c := by
  simp only [isExponentMark, Bool.or_eq_true, decide_eq_true_eq] at h
  rcases h with rfl | rfl <;> exact ⟨by decide, by decide⟩

theorem Number.Follows.isVisible {s s' : Number.State} {c : Char} {mark : Option Flaw}
    (h : Number.Follows s c s' mark) : Text.IsVisible c := by
  cases h with
  | sign hsign _ => exact isVisible_of_isSign hsign
  | point _ => exact ⟨by decide, by decide⟩
  | repeatedPoint _ => exact ⟨by decide, by decide⟩
  | exponent hmark _ => exact isVisible_of_isExponentMark hmark
  | repeatedExponent hmark _ => exact isVisible_of_isExponentMark hmark
  | digit hdigit => exact Text.isVisible_of_isDigit hdigit

theorem step_of_isBlank (s : Number.State) {c : Char} (h : Text.isBlank c = true) :
    Number.step s c = none := by
  cases hstep : Number.step s c with
  | none => rfl
  | some r => exact absurd (follows_of_step hstep).isVisible (Text.not_isVisible h)

/-! ## The scanners -/

variable {head : Char} {tail after after' : List Char}

theorem word_again (hex : Exchanges after after') (h : (word head (tail ++ after)).tail = tail) :
    word head (tail ++ after') = word head (tail ++ after) := by
  have hparts : (tail ++ after).takeWhile isNamePart = tail := h
  have hagain := Text.takeWhile_again hex (fun _ => isNamePart_of_isBlank) hparts
  simp only [word, hparts, hagain]

/-- A number is decimal unless it starts with `0x`. -/
theorem number_eq_decimal {text : List Char} (h : head = '0' → text.head? ≠ some 'x') :
    number head text = decimal head text := by
  unfold number
  split
  · exact absurd rfl (h rfl)
  · rfl

theorem decimal_again (hex : Exchanges after after')
    (h : (decimal head (tail ++ after)).tail = tail) :
    decimal head (tail ++ after') = decimal head (tail ++ after) := by
  have hagain := Text.stretch_again hex step_of_isBlank h
  simp only [decimal, hagain]

theorem number_again (hex : Exchanges after after')
    (h : (number head (tail ++ after)).tail = tail) :
    number head (tail ++ after') = number head (tail ++ after) := by
  by_cases hx : head = '0' ∧ (tail ++ after).head? = some 'x'
  · -- a hexadecimal number covers the `x`, so that is read again
    obtain ⟨rfl, hx⟩ := hx
    cases tail with
    | nil =>
      obtain ⟨rest, rfl⟩ := List.head?_eq_some_iff.mp hx
      cases h
    | cons c cs =>
      obtain rfl : c = 'x' := by simpa using hx
      have hdigits : (cs ++ after).takeWhile isHexDigit = cs := (List.cons.inj h).2
      have hagain := Text.takeWhile_again hex (fun _ => isHexDigit_of_isBlank) hdigits
      simp only [List.cons_append, number, hdigits, hagain]
  · have hdecimal : head = '0' → (tail ++ after).head? ≠ some 'x' := fun hzero hnext =>
      hx ⟨hzero, hnext⟩
    have hdecimal' : head = '0' → (tail ++ after').head? ≠ some 'x' := fun hzero =>
      (hex.append tail).head?_ne (by decide) (hdecimal hzero)
    rw [number_eq_decimal hdecimal] at h ⊢
    rw [number_eq_decimal hdecimal', decimal_again hex h]

/-- A quoted string without flaws ends with its closing quote. -/
theorem quoted_again (hquote : head ≠ '\\') (hclean : (quoted head (tail ++ after)).flaws = [])
    (h : (quoted head (tail ++ after)).tail = tail) :
    quoted head (tail ++ after') = quoted head (tail ++ after) := by
  cases hextent : (extent head false (tail ++ after)).closed with
  | false =>
    have hflaw := (quoted_unclosed hextent).2.1
    rw [hclean] at hflaw
    cases hflaw
  | true =>
    obtain ⟨inner, rest, htext, hinside⟩ := (extent_closed_iff hquote _).mp hextent
    rw [htext, quoted_inside hquote hinside] at h ⊢
    have htail : tail = inner ++ [head] := h.symm
    have hagain : tail ++ after' = inner ++ head :: after' := by rw [htail]; simp
    rw [hagain, quoted_inside hquote hinside]

theorem longCloser_ne_nil (level : Nat) : longCloser level ≠ [] := by
  simp [longCloser]

/-- A long string without flaws ends with the first closing of its level. -/
theorem longString_again (hclean : (longString (tail ++ after)).flaws = [])
    (h : (longString (tail ++ after)).tail = tail) :
    tail ≠ [] ∧ longString (tail ++ after') = longString (tail ++ after) := by
  obtain ⟨level, rest, inner, htext, hinner⟩ := exists_inside_of_longString hclean
  rw [htext, longString_inside hinner] at h ⊢
  have htail : tail = List.replicate level '=' ++ '[' :: (inner ++ longCloser level) := h.symm
  have hagain := Text.before?_again (longCloser_ne_nil level) hinner after'
  constructor
  · simp [htail]
  · have hsource : tail ++ after' =
        List.replicate level '=' ++ '[' :: (inner ++ longCloser level ++ after') := by
      rw [htail]
      simp
    rw [hsource, longString_inside hagain]

/-! ## Symbols -/

theorem longSymbols_grow : ∀ s ∈ longSymbols, ∀ other ∈ longSymbols,
    s.isPrefixOf other = true → s.length < other.length →
      other.take (s.length + 1) ∈ longSymbols := by
  decide

/-- A symbol that goes on in another one goes on in a symbol with one more character. -/
theorem mem_of_longer {head c : Char} {tail cs : List Char} (hs : head :: tail ∈ symbolTexts)
    (hlonger : head :: tail ++ c :: cs ∈ symbolTexts) : head :: tail ++ [c] ∈ longSymbols := by
  have hmem : head :: tail ++ c :: cs ∈ longSymbols := by
    rcases List.mem_append.mp hlonger with hsingle | hlong
    · obtain ⟨d, -, hd⟩ := List.mem_map.mp hsingle
      simp at hd
    · exact hlong
  rcases List.mem_append.mp hs with hsingle | hlong
  · obtain ⟨d, hd, heq⟩ := List.mem_map.mp hsingle
    obtain ⟨e, he, hnot⟩ := longSymbols_head _ hmem
    cases heq
    cases he
    exact absurd hd hnot
  · have hgrow := longSymbols_grow _ hlong _ hmem
      (List.isPrefixOf_iff_prefix.mpr (List.prefix_append _ _)) (by simp)
    rwa [List.append_cons, List.take_left' (by simp)] at hgrow

theorem longSymbols_visible : ∀ s ∈ longSymbols, ∀ c ∈ s, Text.isBlank c = false := by
  have htable : ∀ s ∈ longSymbols, (s.all fun c => !Text.isBlank c) = true := by
    decide
  intro s hs
  simpa using htable s hs

theorem symbol?_again (hex : Exchanges after after')
    (h : symbol? head (tail ++ after) = some (head :: tail)) :
    symbol? head (tail ++ after') = some (head :: tail) := by
  obtain ⟨hmem, -, hlongest⟩ := symbol?_eq_some_iff.mp h
  refine symbol?_eq_some_iff.mpr ⟨hmem, List.prefix_append (head :: tail) after', ?_⟩
  intro other hother hfront
  by_contra hlt
  have hshorter : (head :: tail).length < other.length := Nat.lt_of_not_le hlt
  have hstart : head :: tail <+: other :=
    List.prefix_of_prefix_length_le (List.prefix_append _ after') hfront (Nat.le_of_lt hshorter)
  obtain ⟨more, rfl⟩ := hstart
  have hmore : more <+: after' := (List.prefix_append_right_inj (head :: tail)).mp hfront
  cases more with
  | nil => simp at hshorter
  | cons c cs =>
    have hfirst : after'.head? = some c := by
      obtain ⟨rest, rfl⟩ := hmore
      rfl
    -- the character behind the old symbol would have made a longer one there
    have hgrown := mem_of_longer hmem hother
    have hvisible : Text.isBlank c = false := longSymbols_visible _ hgrown c (by simp)
    refine hex.head?_ne hvisible ?_ hfirst
    intro hsame
    obtain ⟨rest, rfl⟩ := List.head?_eq_some_iff.mp hsame
    have hle := hlongest _ (List.mem_append_right _ hgrown) ⟨rest, by simp⟩
    simp only [List.length_append, List.length_cons, List.length_nil] at hle
    omega

theorem symbol_again (hex : Exchanges after after')
    (hclean : (symbol head (tail ++ after)).flaws = [])
    (h : (symbol head (tail ++ after)).tail = tail) :
    symbol head (tail ++ after') = symbol head (tail ++ after) := by
  cases hsymbol : symbol? head (tail ++ after) with
  | none =>
    rw [symbol, hsymbol] at hclean
    cases hclean
  | some s =>
    obtain ⟨cs, rfl⟩ := exists_cons_of_symbol? hsymbol
    rw [symbol_eq_plain hsymbol] at h
    obtain rfl : cs = tail := h
    rw [symbol_eq_plain hsymbol, symbol_eq_plain (symbol?_again hex hsymbol)]

/-! ## Comments -/

/-- An opening that a line end cuts off is none. -/
theorem longOpening?_again {text : List Char} (h : longOpening? (text ++ after) = none)
    (hstop : ∀ c ∈ after'.head?, c = '\n') : longOpening? (text ++ after') = none := by
  have hnot (level : Nat) : ¬ longOpener level <+: text := fun hfront =>
    longOpening?_none h level (hfront.trans (List.prefix_append text after))
  cases hopening : longOpening? (text ++ after') with
  | none => rfl
  | some opening =>
    obtain ⟨level, body⟩ := opening
    have hfront : longOpener level <+: text ++ after' :=
      ⟨body, (longOpening?_eq_some hopening).symm⟩
    rcases List.prefix_or_prefix_of_prefix hfront (List.prefix_append text after') with
      hinside | ⟨more, hmore⟩
    · exact absurd hinside (hnot level)
    · rw [← hmore, List.prefix_append_right_inj] at hfront
      cases more with
      | nil =>
        rw [List.append_nil] at hmore
        exact absurd (hmore ▸ List.prefix_rfl) (hnot level)
      | cons c cs =>
        -- no line end is in an opening
        obtain ⟨rest, rfl⟩ := hfront
        have hc : c ∈ longOpener level := by simp [← hmore]
        rw [hstop c rfl] at hc
        simp [longOpener] at hc

/-- A comment without flaws ends before a line end, or with the closing of its bracket. -/
theorem comment_again {text : List Char}
    (hend : after'.head? = after.head? ∨ after'.head? = some '\n')
    (hclean : (comment (text ++ after)).flaws = [])
    (h : (comment (text ++ after)).tail = '-' :: text) :
    comment (text ++ after') = comment (text ++ after) := by
  unfold comment at hclean h ⊢
  cases hopening : longOpening? (text ++ after) with
  | none =>
    simp only [hopening, List.cons.injEq, true_and] at h
    obtain ⟨hline, hstop⟩ := Text.takeWhile_exact_iff.mp h
    have hstop' : ∀ c ∈ after'.head?, c = '\n' := by
      intro c hc
      rcases hend with hsame | hnewline
      · rw [hsame] at hc
        simpa using hstop c hc
      · rw [hnewline] at hc
        exact (Option.some.inj hc).symm
    have hagain : (text ++ after').takeWhile (· ≠ '\n') = text :=
      Text.takeWhile_exact hline fun c hc => by simpa using hstop' c hc
    simp only [longOpening?_again hopening hstop', hagain, h]
  | some opening =>
    obtain ⟨level, body⟩ := opening
    cases hinner : Text.before? (longCloser level) body with
    | none => simp [hopening, hinner] at hclean
    | some inner =>
      simp only [hopening, hinner, List.cons.injEq, true_and] at h
      have hagain := Text.before?_again (longCloser_ne_nil level) hinner after'
      have hopening' : longOpening? (text ++ after') =
          some (level, inner ++ longCloser level ++ after') := by
        rw [← h, List.append_assoc, List.append_assoc, longOpening?_longOpener]
        simp
      simp only [hopening', hagain, hinner]

/-! ## Every piece -/

theorem startsComment_again {text text' : List Char} (hex : Exchanges text text')
    (h : startsComment head text = false) : startsComment head text' = false := by
  simp only [startsComment, Bool.and_eq_false_iff, decide_eq_false_iff_not] at h ⊢
  rcases h with hhead | hnext
  · exact .inl hhead
  · exact .inr (hex.head?_ne (by decide) hnext)

theorem startsString_again {text text' : List Char} (hex : Exchanges text text')
    (h : startsString head text = false) : startsString head text' = false := by
  simp only [startsString, Bool.or_eq_false_iff, Bool.and_eq_false_iff,
    decide_eq_false_iff_not] at h ⊢
  obtain ⟨hquote, hbracket⟩ := h
  refine ⟨hquote, ?_⟩
  rcases hbracket with hhead | ⟨hequals, hnext⟩
  · exact .inl hhead
  · exact .inr ⟨hex.head?_ne (by decide) hequals, hex.head?_ne (by decide) hnext⟩

theorem string_again (hstring : startsString head (tail ++ after) = true)
    (hclean : (string head (tail ++ after)).flaws = [])
    (h : (string head (tail ++ after)).tail = tail) :
    startsString head (tail ++ after') = true ∧
      string head (tail ++ after') = string head (tail ++ after) := by
  by_cases hhead : head = '['
  · simp only [string, if_pos hhead] at hclean h ⊢
    obtain ⟨hne, hagain⟩ : tail ≠ [] ∧ longString (tail ++ after') = longString (tail ++ after) :=
      longString_again hclean h
    refine ⟨?_, hagain⟩
    obtain ⟨c, cs, rfl⟩ := List.exists_cons_of_ne_nil hne
    exact hstring
  · simp only [string, if_neg hhead] at hclean h ⊢
    have hquote : head = '"' ∨ head = '\'' := by simpa [startsString, hhead] using hstring
    have hbackslash : head ≠ '\\' := by rcases hquote with rfl | rfl <;> decide
    refine ⟨?_, quoted_again hbackslash hclean h⟩
    rcases hquote with rfl | rfl <;> rfl

theorem scan_plain_again (hex : Exchanges after after')
    (hclean : (scan false head (tail ++ after)).flaws = [])
    (h : (scan false head (tail ++ after)).tail = tail) :
    scan false head (tail ++ after') = scan false head (tail ++ after) := by
  simp only [scan, Bool.false_and, Bool.false_eq_true, if_false] at hclean h ⊢
  by_cases hblank : Text.isBlank head = true
  · simp only [if_pos hblank]
  simp only [if_neg hblank] at hclean h ⊢
  by_cases hname : isNameStart head = true
  · simp only [if_pos hname] at h ⊢
    exact word_again hex h
  simp only [if_neg hname] at hclean h ⊢
  by_cases hdigit : head.isDigit = true
  · simp only [if_pos hdigit] at h ⊢
    exact number_again hex h
  simp only [if_neg hdigit] at hclean h ⊢
  cases hstring : startsString head (tail ++ after) with
  | true =>
    simp only [hstring, if_true] at hclean h ⊢
    obtain ⟨hstring', hagain⟩ : startsString head (tail ++ after') = true ∧
        string head (tail ++ after') = string head (tail ++ after) :=
      string_again hstring hclean h
    rw [if_pos hstring', hagain]
  | false =>
    simp only [hstring, Bool.false_eq_true, if_false] at hclean h ⊢
    rw [startsString_again (hex.append tail) hstring, symbol_again hex hclean h]
    rfl

theorem scan_comment (text : List Char) : scan true '-' ('-' :: text) = comment text := rfl

theorem scan_dash (text : List Char) : scan false '-' text = plain .symbol '-' [] := rfl

/-- Whether comments are skipped matters to nothing but comments. -/
theorem scan_of_not_comment {comments : Bool} {text : List Char}
    (h : (comments && startsComment head text) = false) :
    scan comments head text = scan false head text := by
  simp only [scan, h, Bool.false_and]

theorem exists_comment_tail (text : List Char) : ∃ rest, (comment text).tail = '-' :: rest := by
  unfold comment
  split
  · exact ⟨_, rfl⟩
  · split <;> exact ⟨_, rfl⟩

/-- Every piece without flaws is read again before the same character, or a line end. -/
theorem scan_again {comments : Bool}
    (hend : after'.head? = after.head? ∨ after'.head? = some '\n')
    (hclean : (scan comments head (tail ++ after)).flaws = [])
    (h : (scan comments head (tail ++ after)).tail = tail) :
    scan comments head (tail ++ after') = scan comments head (tail ++ after) := by
  have hex : Exchanges after after' := by
    rcases hend with hsame | hnewline
    · exact .inl hsame
    · right
      intro c hc
      rw [hnewline] at hc
      cases hc
      decide
  cases hcomment : comments && startsComment head (tail ++ after) with
  | true =>
    obtain ⟨rfl, hstart⟩ := Bool.and_eq_true_iff.mp hcomment
    obtain ⟨rfl, rest, hrest⟩ := startsComment_iff.mp hstart
    obtain ⟨text, htext⟩ := exists_comment_tail rest
    rw [hrest, scan_comment, htext] at h
    subst h
    obtain rfl : text ++ after = rest := (List.cons.inj hrest).2
    exact comment_again hend hclean htext
  | false =>
    have hcomment' : (comments && startsComment head (tail ++ after')) = false := by
      rw [Bool.and_eq_false_iff] at hcomment ⊢
      exact hcomment.imp_right fun hstart => startsComment_again (hex.append tail) hstart
    rw [scan_of_not_comment hcomment] at hclean h ⊢
    rw [scan_of_not_comment hcomment', scan_plain_again hex hclean h]

/-- Every token without flaws is read again before white space or nothing. -/
theorem scan_token_again {comments : Bool} {kind : Kind} {value : List Char}
    (hapart : ∀ c ∈ after'.head?, Text.isBlank c = true)
    (htoken : (scan comments head (tail ++ after)).content = .token kind value)
    (hclean : (scan comments head (tail ++ after)).flaws = [])
    (h : (scan comments head (tail ++ after)).tail = tail) (comments' : Bool) :
    scan comments' head (tail ++ after') = scan comments head (tail ++ after) := by
  have hcomment : (comments && startsComment head (tail ++ after)) = false := by
    rw [← Bool.not_eq_true]
    intro hcomment
    obtain ⟨rfl, hstart⟩ := Bool.and_eq_true_iff.mp hcomment
    obtain ⟨rfl, rest, hrest⟩ := startsComment_iff.mp hstart
    rw [hrest, scan_comment, comment_content] at htoken
    cases htoken
  rw [scan_of_not_comment hcomment] at hclean h ⊢
  -- a dash that is a token is followed by no second one here
  have hcomment' : startsComment head (tail ++ after') = false := by
    rw [← Bool.not_eq_true]
    intro hstart
    obtain ⟨rfl, rest, hrest⟩ := startsComment_iff.mp hstart
    rw [scan_dash] at h
    obtain rfl : tail = [] := h.symm
    have hblank := hapart '-' (by rw [← List.nil_append after', hrest]; rfl)
    cases hblank
  rw [scan_of_not_comment (by rw [hcomment', Bool.and_false]),
    scan_plain_again (.inr hapart) hclean h]

end Piece

end LuaChecker
