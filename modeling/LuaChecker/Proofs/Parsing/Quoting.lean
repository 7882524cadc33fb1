import LuaChecker.Check
import LuaChecker.Proofs.Parsing.Findings
import LuaChecker.Proofs.Parsing.Labels

/-!
# Messages that go over the end of a line

A message quotes the texts of tokens and the names of functions, which are put together from
such texts; whatever else it says is on one line. A line end is in no token but a string. So
a message that goes over the end of a line has the whole text of such a string in it.

* `Token.IsLexed.quotes`: the texts of tokens;
* `quoting_kept`: the events of a parse;
* `Ledger.quotes_diagnostics`: the diagnostics of a ledger;
* `checkTokens_quotes`: the messages about a list of tokens.
-/

namespace LuaChecker

/-- The text does not end on the line on which it starts. -/
def CrossesLines (text : String) : Prop := '\n' ∈ text.toList

instance (text : String) : Decidable (CrossesLines text) :=
  inferInstanceAs (Decidable ('\n' ∈ text.toList))

theorem crossesLines_append {a b : String} :
    CrossesLines (a ++ b) ↔ CrossesLines a ∨ CrossesLines b := by
  unfold CrossesLines
  rw [String.toList_append, List.mem_append]

theorem not_crossesLines_append {a b : String} (ha : ¬ CrossesLines a) (hb : ¬ CrossesLines b) :
    ¬ CrossesLines (a ++ b) :=
  fun h => (crossesLines_append.mp h).elim ha hb

/-- If the text crosses lines, it has the whole text of a string token in it that does. -/
def Quotes (ts : List Token) (text : String) : Prop :=
  CrossesLines text →
    ∃ t ∈ ts, t.kind = .string ∧ CrossesLines t.text ∧ t.text.toList <:+: text.toList

namespace Quotes

variable {ts : List Token} {a b : String}

theorem of_not (h : ¬ CrossesLines a) : Quotes ts a := fun hcross => absurd hcross h

theorem append (ha : Quotes ts a) (hb : Quotes ts b) : Quotes ts (a ++ b) := by
  intro hcross
  rw [String.toList_append]
  rcases crossesLines_append.mp hcross with hcross | hcross
  · obtain ⟨t, ht, hkind, htext, hinfix⟩ := ha hcross
    exact ⟨t, ht, hkind, htext, hinfix.trans (List.prefix_append _ _).isInfix⟩
  · obtain ⟨t, ht, hkind, htext, hinfix⟩ := hb hcross
    exact ⟨t, ht, hkind, htext, hinfix.trans (List.suffix_append _ _).isInfix⟩

/-- A text in front of a quotation and one behind it, both of them on one line. -/
theorem between {front back : String} (ha : Quotes ts a) (hfront : ¬ CrossesLines front)
    (hback : ¬ CrossesLines back) : Quotes ts (front ++ a ++ back) :=
  ((of_not hfront).append ha).append (of_not hback)

end Quotes

/-! ## Tokens -/

theorem not_crossesLines_fixedTexts : ∀ s ∈ fixedTexts, ¬ CrossesLines s := by
  decide

theorem not_crossesLines_of_identifier {text : String} (h : isIdentifier text = true) :
    ¬ CrossesLines text := by
  intro hcross
  unfold isIdentifier at h
  unfold CrossesLines at hcross
  split at h
  · rename_i c cs hchars
    rw [hchars, List.mem_cons] at hcross
    rw [Bool.and_eq_true, List.all_eq_true] at h
    rcases hcross with rfl | hmem
    · exact absurd h.1 (by decide)
    · exact absurd (h.2 '\n' hmem) (by decide)
  · cases h

theorem not_crossesLines_of_number {text : String} (h : Piece.IsNumber text.toList) :
    ¬ CrossesLines text := by
  unfold CrossesLines
  generalize text.toList = chars at h
  intro hcross
  cases h with
  | hexadecimal h =>
    rcases List.mem_cons.mp hcross with heq | hcross
    · cases heq
    · rcases List.mem_cons.mp hcross with heq | hcross
      · cases heq
      · exact absurd (h '\n' hcross) (by decide)
  | decimal h => exact absurd (h.character '\n' hcross) (by decide)

/-- Only strings go over the end of a line. -/
theorem Token.IsLexed.not_crossesLines {t : Token} (ht : t.IsLexed) (hkind : t.kind ≠ .string) :
    ¬ CrossesLines t.text := by
  cases h : t.kind with
  | name => exact not_crossesLines_of_identifier (ht.name h)
  | number => exact not_crossesLines_of_number (ht.number h)
  | keyword =>
    exact not_crossesLines_fixedTexts _ (List.mem_append_left _ (ht.keyword h))
  | symbol => exact not_crossesLines_fixedTexts _ (List.mem_append_right _ (ht.symbol h))
  | string => exact absurd h hkind
  | invalid => exact absurd h ht.valid

theorem Token.IsLexed.quotes {ts : List Token} {t : Token} (ht : t.IsLexed) (hmem : t ∈ ts) :
    Quotes ts t.text := by
  by_cases hkind : t.kind = .string
  · exact fun hcross => ⟨t, hmem, hkind, hcross, List.infix_rfl⟩
  · exact .of_not (ht.not_crossesLines hkind)

namespace Grammar

variable {ts : List Token} {c : Cursor} {past : List Event}

/-! ## Messages -/

theorem not_crossesLines_detail {place : Place} (h : place.IsFixed) :
    ¬ CrossesLines place.detail := by
  cases place with
  | plain | forLoop => decide
  | after opener =>
    have hopener := not_crossesLines_fixedTexts opener h
    exact not_crossesLines_append (not_crossesLines_append (by decide) hopener) (by decide)
  | header label => exact h.elim

theorem quotes_detail {found : String} (h : Quotes ts found) (need : Need) :
    Quotes ts (need.detail found) := by
  cases need with
  | name => exact h.between (by decide) (by decide)
  | closedNames | «variable» | suffix | operand | arguments =>
    exact .of_not (by dsimp only [Need.detail]; decide)

theorem quotes_missing {found wanted : String} {place : Place} (h : Quotes ts found)
    (hwanted : wanted ∈ fixedTexts) (hplace : Quotes ts place.detail) :
    Quotes ts (Cause.missing found wanted place).message := by
  have hsecond : Quotes ts wanted := .of_not (not_crossesLines_fixedTexts wanted hwanted)
  exact (((h.between (by decide) (by decide)).append hsecond).append (.of_not (by decide))).append
    hplace

/-- What is said about a text quotes that text, and nothing else. -/
theorem Cause.About.quotes {found : String} {cause : Cause} (h : cause.About found)
    (hfound : Quotes ts found) : Quotes ts cause.message := by
  cases h with
  | missing hwanted hplace =>
    exact quotes_missing hfound hwanted (.of_not (not_crossesLines_detail hplace))
  | unexpected need => exact (hfound.between (by decide) (by decide)).append (quotes_detail hfound need)
  | @typo meant hmeant =>
    have hsecond : Quotes ts meant := .of_not (not_crossesLines_fixedTexts meant hmeant)
    exact ((hfound.between (by decide) (by decide)).append hsecond).append (.of_not (by decide))
  | unreachable | notClosed | tooDeep => exact .of_not (by decide)

/-! ## Events -/

/-- The texts that an event keeps cross lines only where they quote. -/
def Event.Quotes (ts : List Token) : Event → Prop
  | .finding _ cause => LuaChecker.Quotes ts cause.message
  | .header _ name => LuaChecker.Quotes ts name
  | .headerLacks _ found wanted => LuaChecker.Quotes ts found ∧ wanted ∈ fixedTexts
  | .parameters _ _ => True

/-- The tokens left and the events so far quote the tokens `ts`. -/
structure Quoting (ts : List Token) (c : Cursor) (past : List Event) : Prop where
  tokens : ∀ t ∈ c.tokens, Quotes ts t.text
  events : ∀ e ∈ past, e.Quotes ts

theorem Quoting.advance (h : Quoting ts c past) : Quoting ts c.advance past := by
  refine ⟨fun t ht => h.tokens t ?_, h.events⟩
  rw [c.tokens_advance] at ht
  exact List.mem_of_mem_tail ht

theorem Quoting.respell (h : Quoting ts c past) (word : Opener) :
    Quoting ts (c.respell word.text .keyword) past := by
  refine ⟨fun t ht => ?_, h.events⟩
  obtain ⟨tokens, size, hsize⟩ := c
  cases tokens with
  | nil => cases ht
  | cons u us =>
    rcases List.mem_cons.mp ht with rfl | ht
    · exact .of_not (not_crossesLines_fixedTexts word.text word.text_mem)
    · exact h.tokens t (List.mem_cons_of_mem u ht)

theorem Quoting.record (h : Quoting ts c past) {e : Event} (he : e.Quotes ts) :
    Quoting ts c (past ++ [e]) :=
  ⟨h.tokens, List.forall_mem_append.mpr ⟨h.events, List.forall_mem_singleton.mpr he⟩⟩

theorem Quoting.describe (h : Quoting ts c past) : Quotes ts c.describe := by
  obtain ⟨tokens, size, hsize⟩ := c
  cases tokens with
  | nil => exact .of_not (a := "EOF") (by decide)
  | cons t us => exact h.tokens t List.mem_cons_self

theorem Quoting.recordedAt (h : Quoting ts c past) {e : Event} (he : RecordedAt c e) :
    Quoting ts c (past ++ [e]) := by
  refine h.record ?_
  cases he with
  | finding hcause => exact hcause.quotes h.describe
  | anonymous => exact .of_not (by decide)
  | headerLacks hwanted => exact ⟨h.describe, hwanted⟩
  | parameters => trivial

theorem quoting_spelled (ts : List Token) : Spelled (Quoting ts) (Quotes ts) where
  empty := .of_not (by decide)
  token h := h.tokens
  field hpath hpart := (hpath.append (.of_not (by decide))).append hpart
  method hpath hpart := (hpath.append (.of_not (by decide))).append hpart

theorem quoting_kept (ts : List Token) : Kept (Quoting ts) := by
  constructor
  case advance => exact fun h => h.advance
  case respell => exact fun word h => h.respell word
  case record => exact fun he h => h.recordedAt he
  case named =>
    intro reader hnaming _
    have hreader := (quoting_spelled ts).naming (fun h => h.advance)
      (fun he h => h.recordedAt he) hnaming
    exact triple_post hreader fun name c past h => h.1.record h.2

/-! ## Ledgers -/

theorem not_crossesLines_toString (number : Nat) : ¬ CrossesLines (toString number) := by
  intro hcross
  exact absurd (isDigit_of_mem_toString hcross) (by decide)

namespace Ledger

theorem not_crossesLines_anonymousLabel (number : Nat) (line : Option Nat) :
    ¬ CrossesLines (anonymousLabel number line) := by
  have hline : ¬ CrossesLines (lineText line) := by
    cases line with
    | none => decide
    | some line => exact not_crossesLines_toString line
  have hnumber := not_crossesLines_append (a := "Unnamed function ") (by decide)
    (not_crossesLines_toString number)
  exact not_crossesLines_append (not_crossesLines_append hnumber (by decide)) hline

theorem quotes_headerLabel {name : String} (h : Quotes ts name) (l : Ledger)
    (line : Option Nat) : Quotes ts (l.headerLabel line name) := by
  unfold headerLabel
  split
  · exact .of_not (not_crossesLines_anonymousLabel _ line)
  · exact h

theorem quotes_current {es : List Event} (h : ∀ e ∈ es, e.Quotes ts) :
    Quotes ts (ofEvents es).current := by
  induction es using List.reverseRecOn with
  | nil => exact .of_not (by decide)
  | append_singleton es e ih =>
    obtain ⟨hes, he⟩ := List.forall_mem_append.mp h
    have he := List.forall_mem_singleton.mp he
    rw [ofEvents_append, List.foldl_cons, List.foldl_nil]
    rcases record_current (ofEvents es) e with hsame | ⟨line, name, rfl, hlabel⟩
    · rw [hsame]
      exact ih hes
    · rw [hlabel]
      exact quotes_headerLabel he _ line

/-- If the events quote, the diagnostics do. -/
theorem quotes_diagnostics {es : List Event} (h : ∀ e ∈ es, e.Quotes ts) :
    ∀ d ∈ (ofEvents es).diagnostics, Quotes ts d.message := by
  intro d hd
  obtain ⟨past, e, later, ⟨line, cause⟩, rfl, hadds, rfl⟩ := mem_diagnostics_iff.mp hd
  obtain ⟨hpast, hlater⟩ := List.forall_mem_append.mp h
  have he := hlater e List.mem_cons_self
  rcases adds_cases hadds with rfl | ⟨name, rfl, rfl⟩ | ⟨found, wanted, rfl, rfl⟩
  · exact he
  · exact (quotes_headerLabel he _ line).between (by decide) (by decide)
  · have hplace : Quotes ts (Place.header (ofEvents past).current).detail :=
      (quotes_current hpast).between (by decide) (by decide)
    exact quotes_missing he.1 he.2 hplace

end Ledger

/-- A message about tokens as the lexer yields them crosses lines only where it quotes one of
them that does. -/
theorem checkTokens_quotes (threshold : Float) (hts : ∀ t ∈ ts, t.IsLexed) :
    ∀ d ∈ (checkTokens threshold ts).diagnostics, Quotes ts d.message := by
  have hstart : Quoting ts (.ofList ts) [] :=
    ⟨fun t ht => (hts t ht).quotes ht, fun e he => nomatch he⟩
  obtain ⟨rest, hquoting⟩ :=
    program_keeps (quoting_kept ts) (.ofThreshold threshold) hstart
  rw [diagnostics_checkTokens]
  exact Ledger.quotes_diagnostics hquoting.events

end Grammar

end LuaChecker
