import LuaChecker.Proofs.Lexing.Faithful

/-!
# What the tokens of a source are like

Whatever a source is like, the tokens that are read from it keep to the shapes of the
language, the repaired ones too. Names and symbols are as long as they can be, numbers have
one point and one exponent mark at most, and strings end in the way in which they start. So
the parser may rely on kinds and texts that belong together.

* `WellFormed`: what a text of each kind is like, given the source from the token on;
* `keepsShape_stretch`: what the number scanner keeps, from each of its states;
* `scan_wellFormed`: what every piece that stands for a token is like;
* `lex_wellFormed`: the same for the tokens of a source, which are those of the parser.
-/

namespace LuaChecker

namespace Piece

/-! ## Shapes of texts -/

/-- A number with digits, at most one point and at most one exponent mark. -/
structure IsDecimal (text : List Char) : Prop where
  first : ∃ c ∈ text.head?, c.isDigit = true
  point : text.count '.' ≤ 1
  exponent : text.countP isExponentMark ≤ 1
  /-- What stands right before a sign is an exponent mark. -/
  sign : text.IsChain fun before c => isSign c = true → isExponentMark before = true
  character : ∀ c ∈ text, c.isDigit || c = '.' || isExponentMark c || isSign c

inductive IsNumber : List Char → Prop
  | hexadecimal {digits : List Char} (h : ∀ c ∈ digits, isHexDigit c = true) :
      IsNumber ('0' :: 'x' :: digits)
  | decimal {text : List Char} (h : IsDecimal text) : IsNumber text

/-- A text that ends in the way in which it starts: with the same quote, or with a long
bracket of the same level. -/
inductive IsString : List Char → Prop
  | quoted {quote : Char} (h : quote = '"' ∨ quote = '\'') (inner : List Char) :
      IsString (quote :: inner ++ [quote])
  | long (level : Nat) (inner : List Char) :
      IsString (longOpener level ++ inner ++ longCloser level)

/-- What may be relied on in a token, given the source from the token on and the source
behind the characters that it covers. -/
structure WellFormed (kind : Kind) (text : String) (source after : List Char) : Prop where
  valid : kind ≠ .invalid
  keyword : kind = .keyword → text ∈ reservedWords
  name : kind = .name → isIdentifier text = true ∧ text ∉ reservedWords ∧
    ∀ c ∈ after.head?, isNamePart c = false
  /-- No longer symbol starts where this one does. -/
  symbol : kind = .symbol → text ∈ symbols ∧
    ∀ s ∈ symbols, s.toList <+: source → s.length ≤ text.length
  number : kind = .number → IsNumber text.toList
  string : kind = .string → IsString text.toList

/-! ## Numbers -/

/-- What the number scanner may keep behind the character `last`, given what it has seen. -/
structure KeepsShape (s : Number.State) (last : Char) (kept : List Char) : Prop where
  point : kept.count '.' + s.point.toNat ≤ 1
  exponent : kept.countP isExponentMark + s.exponent.toNat ≤ 1
  sign : (last :: kept).IsChain fun before c => isSign c = true → isExponentMark before = true
  character : ∀ c ∈ kept, c.isDigit || c = '.' || isExponentMark c || isSign c

namespace KeepsShape

variable {s s' : Number.State} {last c : Char} {kept : List Char}

theorem nil (s : Number.State) (last : Char) : KeepsShape s last [] where
  point := by cases h : s.point <;> simp
  exponent := by cases h : s.exponent <;> simp
  sign := .singleton last
  character := by simp

/-- A character that is kept. A sign may follow an exponent mark only. -/
theorem keep (hstep : Number.Follows s c s' none)
    (hlast : s.signable = true → isExponentMark last = true) (h : KeepsShape s' c kept) :
    KeepsShape s last (c :: kept) := by
  obtain ⟨hpoint, hexponent, hsign, hcharacter⟩ := h
  cases hstep with
  | sign hc hsignable =>
    obtain ⟨hp, he⟩ := isSign_plain hc
    refine ⟨?_, ?_, hsign.cons_cons fun _ => hlast hsignable, ?_⟩
    · rwa [List.count_cons_of_ne hp]
    · rwa [List.countP_cons_of_neg (by simp [he])]
    · simpa [hc] using hcharacter
  | point hseen =>
    refine ⟨?_, ?_, hsign.cons_cons fun hc => absurd hc (by decide), ?_⟩
    · simpa [hseen] using hpoint
    · rwa [List.countP_cons_of_neg (by decide)]
    · simpa using hcharacter
  | exponent hc hseen =>
    obtain ⟨hp, hs⟩ := isExponentMark_plain hc
    refine ⟨?_, ?_, hsign.cons_cons fun h => absurd h (by simp [hs]), ?_⟩
    · rwa [List.count_cons_of_ne hp]
    · rw [List.countP_cons_of_pos hc]
      simpa [hseen] using hexponent
    · simpa [hc] using hcharacter
  | digit hc =>
    obtain ⟨hp, he, hs⟩ := isDigit_plain hc
    refine ⟨?_, ?_, hsign.cons_cons fun h => absurd h (by simp [hs]), ?_⟩
    · rwa [List.count_cons_of_ne hp]
    · rwa [List.countP_cons_of_neg (by simp [he])]
    · simpa [hc] using hcharacter

/-- A character that is left out. No sign may follow it. -/
theorem leave {flaw : Flaw} (hstep : Number.Follows s c s' (some flaw))
    (h : KeepsShape s' last kept) : KeepsShape s last kept := by
  obtain ⟨hpoint, hexponent, hsign, hcharacter⟩ := h
  cases hstep with
  | repeatedPoint hseen => exact ⟨by simpa [hseen] using hpoint, hexponent, hsign, hcharacter⟩
  | repeatedExponent hc hseen =>
    exact ⟨hpoint, by simpa [hseen] using hexponent, hsign, hcharacter⟩

end KeepsShape

theorem keepsShape_stretch {s : Number.State} {last : Char}
    (hlast : s.signable = true → isExponentMark last = true) (text : List Char) :
    KeepsShape s last
      (((Text.stretch Number.step s text).filter (·.2.isNone)).map (·.1)) := by
  induction text generalizing s last with
  | nil => exact .nil s last
  | cons c cs ih =>
    rw [Text.stretch_cons]
    cases hstep : Number.step s c with
    | none => exact .nil s last
    | some r =>
      obtain ⟨s', mark⟩ := r
      have hfollows := follows_of_step hstep
      cases mark with
      | none =>
        have hkept : KeepsShape s' c _ := ih fun h => (hfollows.signable h).2
        simpa using KeepsShape.keep hfollows hlast hkept
      | some flaw =>
        have hkept : KeepsShape s' last _ := ih fun h => by cases (hfollows.signable h).1
        simpa using KeepsShape.leave hfollows hkept

theorem isDecimal_of_keepsShape {head : Char} {kept : List Char} (hdigit : head.isDigit = true)
    (h : KeepsShape .initial head kept) : IsDecimal (head :: kept) := by
  obtain ⟨hpoint, hexponent, hsign, hcharacter⟩ := h
  obtain ⟨hp, he, -⟩ := isDigit_plain hdigit
  constructor
  case first => exact ⟨head, rfl, hdigit⟩
  case point => rwa [List.count_cons_of_ne hp]
  case exponent => rwa [List.countP_cons_of_neg (by simp [he])]
  case sign => exact hsign
  case character => simpa [hdigit] using hcharacter

theorem decimal_isNumber {head : Char} (hdigit : head.isDigit = true) (text : List Char) :
    ∃ digits, (decimal head text).content = .token .number digits ∧ IsNumber digits := by
  refine ⟨_, rfl, .decimal ?_⟩
  apply isDecimal_of_keepsShape hdigit
  exact keepsShape_stretch (fun h => by cases h) text

theorem number_isNumber {head : Char} (hdigit : head.isDigit = true) (text : List Char) :
    ∃ digits, (number head text).content = .token .number digits ∧ IsNumber digits := by
  unfold number
  split
  · exact ⟨_, rfl, .hexadecimal fun c hc => List.mem_takeWhile_imp hc⟩
  · exact decimal_isNumber hdigit text

/-! ## Strings -/

theorem quoted_isString {quote : Char} (hquote : quote = '"' ∨ quote = '\'') (text : List Char) :
    ∃ value, (quoted quote text).content = .token .string value ∧ IsString value := by
  have hbackslash : quote ≠ '\\' := by rcases hquote with rfl | rfl <;> decide
  cases hextent : (extent quote false text).closed with
  | true =>
    obtain ⟨inner, after, rfl, hinside⟩ := (extent_closed_iff hbackslash text).mp hextent
    rw [quoted_inside hbackslash hinside]
    exact ⟨_, rfl, .quoted hquote inner⟩
  | false =>
    refine ⟨_, (quoted_unclosed hextent).1, ?_⟩
    rw [source, quoted_head]
    exact .quoted hquote _

theorem longString_isString (text : List Char) :
    ∃ value, (longString text).content = .token .string value ∧ IsString value :=
  ⟨_, rfl, .long _ _⟩

theorem string_isString {head : Char} {text : List Char} (h : startsString head text = true) :
    ∃ value, (string head text).content = .token .string value ∧ IsString value := by
  unfold string
  split
  · exact longString_isString text
  · rename_i hhead
    refine quoted_isString ?_ text
    simpa [startsString, hhead] using h

/-! ## Symbols -/

/-- Of two symbols that start alike, the longer one comes first in the table. -/
theorem longSymbols_ordered :
    longSymbols.Pairwise fun s t => s.head? = t.head? → t.length ≤ s.length := by
  decide

theorem longSymbols_head : ∀ s ∈ longSymbols, ∃ c ∈ s.head?, c ∉ singleSymbols := by
  have htable : ∀ s ∈ longSymbols, (s.head?.any fun c => !singleSymbols.contains c) = true := by
    decide
  intro s hs
  simpa [Option.any_eq_true] using htable s hs

theorem eq_head_of_isPrefix {head c : Char} {text front : List Char} (hfront : front <+: head :: text)
    (hc : c ∈ front.head?) : c = head := by
  obtain ⟨cs, rfl⟩ := List.head?_eq_some_iff.mp hc
  exact (List.cons_prefix_cons.mp hfront).1

/-- The symbols as lists of characters. -/
def symbolTexts : List (List Char) :=
  singleSymbols.map ([·]) ++ longSymbols

theorem mem_symbols_iff {s : String} : s ∈ symbols ↔ s.toList ∈ symbolTexts := by
  simp only [symbols, symbolTexts, List.mem_append, List.mem_map]
  constructor
  · rintro (⟨c, hc, rfl⟩ | ⟨l, hl, rfl⟩)
    · exact .inl ⟨c, hc, (String.toList_singleton c).symm⟩
    · exact .inr (by rwa [String.toList_ofList])
  · rintro (⟨c, hc, hs⟩ | hs)
    · exact .inl ⟨c, hc, String.toList_inj.mp (by rw [String.toList_singleton, hs])⟩
    · exact .inr ⟨s.toList, hs, String.ofList_toList⟩

theorem mem_of_symbol? {head : Char} {text s : List Char} (h : symbol? head text = some s) :
    s ∈ symbolTexts := by
  unfold symbol? at h
  split at h
  · rename_i hsingle
    cases h
    have hmem : head ∈ singleSymbols := List.contains_iff_mem.mp hsingle
    exact List.mem_append_left _ (List.mem_map.mpr ⟨head, hmem, rfl⟩)
  · exact List.mem_append_right _ (List.mem_of_find?_eq_some h)

/-- A symbol that is read starts with the first character of the text. -/
theorem exists_cons_of_symbol? {head : Char} {text s : List Char}
    (h : symbol? head text = some s) : ∃ tail, s = head :: tail := by
  have hfront := symbol?_isPrefix h
  unfold symbol? at h
  split at h
  · cases h
    exact ⟨[], rfl⟩
  · obtain ⟨c, hc, -⟩ := longSymbols_head s (List.mem_of_find?_eq_some h)
    obtain ⟨tail, rfl⟩ := List.head?_eq_some_iff.mp hc
    exact ⟨tail, by rw [eq_head_of_isPrefix hfront hc]⟩

theorem symbol_eq_plain {head : Char} {text tail : List Char}
    (h : symbol? head text = some (head :: tail)) : symbol head text = plain .symbol head tail := by
  simp [symbol, h]

/-- No symbol at the start of a text is longer than the one that is read there. -/
theorem length_le_of_symbol? {head : Char} {text s other : List Char}
    (h : symbol? head text = some s) (hother : other ∈ symbolTexts)
    (hfront : other <+: head :: text) : other.length ≤ s.length := by
  have hsFront := symbol?_isPrefix h
  unfold symbol? at h
  split at h
  · rename_i hsingle
    cases h
    rcases List.mem_append.mp hother with hmem | hmem
    · obtain ⟨c, -, rfl⟩ := List.mem_map.mp hmem
      exact Nat.le_refl _
    · obtain ⟨c, hc, hnot⟩ := longSymbols_head other hmem
      rw [eq_head_of_isPrefix hfront hc] at hnot
      exact absurd (List.contains_iff_mem.mp hsingle) hnot
  · rename_i hsingle
    rcases List.mem_append.mp hother with hmem | hmem
    · obtain ⟨c, hc, rfl⟩ := List.mem_map.mp hmem
      rw [eq_head_of_isPrefix (c := c) hfront rfl] at hc
      exact absurd (List.contains_iff_mem.mpr hc) hsingle
    · -- in the table, what comes before the symbol does not fit, and what comes later is shorter
      obtain ⟨-, before, later, htable, hbefore⟩ := List.find?_eq_some_iff_append.mp h
      obtain ⟨c, hc, -⟩ := longSymbols_head s (List.mem_of_find?_eq_some h)
      obtain ⟨d, hd, -⟩ := longSymbols_head other hmem
      have hsame : s.head? = other.head? := by
        rw [Option.mem_def.mp hc, Option.mem_def.mp hd, eq_head_of_isPrefix hsFront hc,
          eq_head_of_isPrefix hfront hd]
      have hordered := longSymbols_ordered
      rw [htable] at hmem hordered
      rcases List.mem_append.mp hmem with hearlier | hrest
      · have hnot := hbefore other hearlier
        rw [List.isPrefixOf_iff_prefix.mpr hfront] at hnot
        cases hnot
      rcases List.mem_cons.mp hrest with rfl | hlater
      · exact Nat.le_refl _
      · have hshorter := (List.pairwise_cons.mp (List.pairwise_append.mp hordered).2.1).1
        exact hshorter other hlater hsame

theorem symbol?_ne_none {head : Char} {text s : List Char} (hs : s ∈ symbolTexts)
    (hfront : s <+: head :: text) : symbol? head text ≠ none := by
  intro hnone
  unfold symbol? at hnone
  split at hnone
  · cases hnone
  · rename_i hsingle
    rcases List.mem_append.mp hs with hmem | hmem
    · obtain ⟨c, hc, rfl⟩ := List.mem_map.mp hmem
      rw [eq_head_of_isPrefix (c := c) hfront rfl] at hc
      exact hsingle (List.contains_iff_mem.mpr hc)
    · exact List.find?_eq_none.mp hnone s hmem (List.isPrefixOf_iff_prefix.mpr hfront)

/-- The symbol at the start of a text is the longest one of the table. -/
theorem symbol?_eq_some_iff {head : Char} {text s : List Char} :
    symbol? head text = some s ↔ s ∈ symbolTexts ∧ s <+: head :: text ∧
      ∀ other ∈ symbolTexts, other <+: head :: text → other.length ≤ s.length := by
  constructor
  · intro h
    exact ⟨mem_of_symbol? h, symbol?_isPrefix h, fun _ => length_le_of_symbol? h⟩
  · rintro ⟨hs, hfront, hlongest⟩
    obtain ⟨r, hr⟩ := Option.ne_none_iff_exists'.mp (symbol?_ne_none hs hfront)
    have hrFront := symbol?_isPrefix hr
    have hle := hlongest r (mem_of_symbol? hr) hrFront
    have hge := length_le_of_symbol? hr hs hfront
    have hsame : r <+: s := List.prefix_of_prefix_length_le hrFront hfront hle
    rw [hr, hsame.eq_of_length (by omega)]

/-! ## Every token -/

variable {text : String} {source after : List Char}

theorem WellFormed.of_keyword (h : text ∈ reservedWords) :
    WellFormed .keyword text source after := by
  refine ⟨?_, fun _ => h, ?_, ?_, ?_, ?_⟩ <;> intro hkind <;> cases hkind

theorem WellFormed.of_name (hidentifier : isIdentifier text = true) (hnot : text ∉ reservedWords)
    (hafter : ∀ c ∈ after.head?, isNamePart c = false) :
    WellFormed .name text source after := by
  refine ⟨?_, ?_, fun _ => ⟨hidentifier, hnot, hafter⟩, ?_, ?_, ?_⟩ <;>
    intro hkind <;> cases hkind

theorem WellFormed.of_symbol (hmem : text ∈ symbols)
    (hlongest : ∀ s ∈ symbols, s.toList <+: source → s.length ≤ text.length) :
    WellFormed .symbol text source after := by
  refine ⟨?_, ?_, ?_, fun _ => ⟨hmem, hlongest⟩, ?_, ?_⟩ <;> intro hkind <;> cases hkind

theorem WellFormed.of_number (h : IsNumber text.toList) : WellFormed .number text source after := by
  refine ⟨?_, ?_, ?_, ?_, fun _ => h, ?_⟩ <;> intro hkind <;> cases hkind

theorem WellFormed.of_string (h : IsString text.toList) : WellFormed .string text source after := by
  refine ⟨?_, ?_, ?_, ?_, ?_, fun _ => h⟩ <;> intro hkind <;> cases hkind

theorem word_wellFormed {head : Char} (hstart : isNameStart head = true) (text : List Char) :
    ∀ kind value, (word head text).content = .token kind value →
      WellFormed kind (String.ofList value) (head :: text)
        (text.drop (word head text).tail.length) := by
  intro kind value h
  cases h
  split
  · rename_i hreserved
    exact .of_keyword (List.contains_iff_mem.mp hreserved)
  · rename_i hfree
    refine .of_name ?_ ?_ ?_
    · simp [isIdentifier, hstart]
    · intro hmem
      exact hfree (List.contains_iff_mem.mpr hmem)
    · exact Text.head?_drop_takeWhile isNamePart text

theorem symbol_wellFormed {head : Char} {text s : List Char} (h : symbol? head text = some s)
    (after : List Char) : WellFormed .symbol (String.ofList s) (head :: text) after := by
  have hmem : String.ofList s ∈ symbols := by
    rw [mem_symbols_iff, String.toList_ofList]
    exact mem_of_symbol? h
  apply WellFormed.of_symbol hmem
  intro other hother hfront
  have hle := length_le_of_symbol? h (mem_symbols_iff.mp hother) hfront
  rwa [String.length_toList, ← String.length_ofList] at hle

/-- What every piece that stands for a token is like. -/
theorem scan_wellFormed (comments : Bool) (head : Char) (text : List Char) :
    ∀ kind value, (scan comments head text).content = .token kind value →
      WellFormed kind (String.ofList value) (head :: text)
        (text.drop (scan comments head text).tail.length) := by
  unfold scan
  split
  · intro kind value h
    cases h
  split
  · intro kind value h
    rw [comment_content] at h
    cases h
  split
  · rename_i hstart
    exact word_wellFormed hstart text
  split
  · rename_i hdigit
    intro kind value h
    obtain ⟨digits, hcontent, hnumber⟩ := number_isNumber hdigit text
    rw [hcontent] at h
    cases h
    exact .of_number (by rwa [String.toList_ofList])
  split
  · rename_i hstring
    intro kind value h
    obtain ⟨inside, hcontent, hinside⟩ := string_isString hstring
    rw [hcontent] at h
    cases h
    exact .of_string (by rwa [String.toList_ofList])
  · intro kind value h
    cases hsymbol : symbol? head text with
    | none =>
      rw [symbol, hsymbol] at h
      cases h
    | some s =>
      obtain ⟨tail, rfl⟩ := exists_cons_of_symbol? hsymbol
      rw [symbol_eq_plain hsymbol] at h
      cases h
      exact symbol_wellFormed hsymbol _

/-! ## What the parser relies on -/

theorem fixedTexts_head : ∀ s ∈ fixedTexts, ∀ c ∈ s.toList.head?, c.isDigit = false := by
  have htable : ∀ s ∈ fixedTexts, (s.toList.head?.all fun c => !c.isDigit) = true := by
    decide
  intro s hs
  simpa [Option.all_eq_true] using htable s hs

theorem fixedTexts_not_string : ∀ s ∈ fixedTexts,
    s.toList.head? ≠ some '"' ∧ s.toList.head? ≠ some '\'' ∧
      (s.toList.head? = some '[' → s.toList = ['[']) := by
  decide

theorem symbols_not_identifier : ∀ s ∈ symbols, isIdentifier s = false := by
  decide

theorem IsNumber.first {digits : List Char} (h : IsNumber digits) :
    ∃ c ∈ digits.head?, c.isDigit = true := by
  cases h with
  | hexadecimal _ => exact ⟨'0', rfl, rfl⟩
  | decimal hdecimal => exact hdecimal.first

theorem IsNumber.notMem (h : IsNumber text.toList) : text ∉ fixedTexts := by
  intro hmem
  obtain ⟨c, hc, hdigit⟩ := h.first
  rw [fixedTexts_head text hmem c hc] at hdigit
  cases hdigit

theorem IsString.notMem (h : IsString text.toList) : text ∉ fixedTexts := by
  intro hmem
  obtain ⟨hdouble, hsingle, hbracket⟩ := fixedTexts_not_string text hmem
  generalize text.toList = chars at h hdouble hsingle hbracket
  cases h with
  | quoted hquote inner =>
    rcases hquote with rfl | rfl
    · exact hdouble rfl
    · exact hsingle rfl
  | long level inner =>
    have hlength := congrArg List.length (hbracket rfl)
    simp [longOpener, longCloser] at hlength

end Piece

/-- A token whose kind and text belong together, as the parser takes them. -/
theorem Token.isLexical_of_wellFormed {t : Token} {source after : List Char}
    (h : Piece.WellFormed t.kind t.text source after) : t.IsLexical := by
  constructor
  case valid => exact h.valid
  case keyword => exact h.keyword
  case symbol => exact fun hkind => (h.symbol hkind).1
  case name => exact fun hkind => (h.name hkind).1
  case free =>
    intro hfree
    cases hkind : t.kind with
    | name =>
      obtain ⟨hidentifier, hnot, -⟩ := h.name hkind
      refine ⟨hnot, fun hmem => ?_⟩
      rw [Piece.symbols_not_identifier _ hmem] at hidentifier
      cases hidentifier
    | number => simpa [fixedTexts] using (h.number hkind).notMem
    | string => simpa [fixedTexts] using (h.string hkind).notMem
    | _ =>
      rw [hkind] at hfree
      cases hfree

/-- What the parser may rely on holds of a token of a source. -/
def Token.WellFormed (source : List Char) (t : Token) : Prop :=
  Piece.WellFormed t.kind t.text (source.drop t.position) (source.drop (t.position + t.width))

theorem Placed.wellFormed_of_token? {comments : Bool} {source : List Char} {p : Placed} {t : Token}
    (hp : p ∈ placedPieces comments source) (ht : p.token? = some t) : t.WellFormed source := by
  obtain ⟨-, kind, value, hcontent⟩ := token?_eq_some ht
  obtain ⟨front, c, cs, hsource, rfl⟩ := exists_scan_of_mem hp
  replace hcontent : (Piece.scan comments c cs).content = .token kind value := hcontent
  simp only [token?, hcontent, Option.some.injEq] at ht
  have hfrom : source.drop t.position = c :: cs := by
    rw [← ht, hsource]
    exact drop_past front (c :: cs)
  have hbehind : source.drop (t.position + t.width) =
      cs.drop (Piece.scan comments c cs).tail.length := by
    rw [← List.drop_drop, hfrom, ← ht]
    rfl
  rw [Token.WellFormed, hfrom, hbehind, ← ht]
  exact Piece.scan_wellFormed comments c cs kind value hcontent

/-- **The contract of the lexer.** The tokens of every source are lexical. -/
theorem lex_wellFormed (comments : Bool) (source : List Char) :
    Lexical (lex comments source).tokens ∧
      ∀ t ∈ (lex comments source).tokens, t.WellFormed source := by
  have hformed : ∀ t ∈ (lex comments source).tokens, t.WellFormed source := by
    intro t ht
    obtain ⟨p, hp, htoken⟩ := List.mem_filterMap.mp ht
    exact Placed.wellFormed_of_token? hp htoken
  exact ⟨fun t ht => Token.isLexical_of_wellFormed (hformed t ht), hformed⟩

end LuaChecker
