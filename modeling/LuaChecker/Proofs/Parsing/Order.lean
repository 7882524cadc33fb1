import LuaChecker.Check
import LuaChecker.Proofs.Lexing.Lines
import LuaChecker.Proofs.Parsing.Findings
import LuaChecker.Proofs.Parsing.Invariant

/-!
# The order of diagnostics

A parse goes forward, and what it records is about the current token or about the one that
it has just read. If the lines of the tokens never decrease, neither do those of the
diagnostics; a diagnostic about the end of the input comes after all others.

* `inOrder_kept`: every event is about a line that is not before those of earlier events,
  nor after that of the current token;
* `diagnostics_lines_sublist`: a diagnostic has the line of an event, in the same order;
* `diagnostics_in_order`: the diagnostics of a check.
-/

namespace LuaChecker

/-! ## The order of lines -/

/-- The first line is not after the second; the end of the input is after every line. -/
def NotAfter (first second : Option Nat) : Prop :=
  ∀ n ∈ second, ∃ m ∈ first, m ≤ n

theorem NotAfter.refl (line : Option Nat) : NotAfter line line :=
  fun n hn => ⟨n, hn, Nat.le_refl n⟩

theorem NotAfter.trans {a b c : Option Nat} (hab : NotAfter a b) (hbc : NotAfter b c) :
    NotAfter a c := by
  intro n hn
  obtain ⟨m, hm, hmn⟩ := hbc n hn
  obtain ⟨l, hl, hlm⟩ := hab m hm
  exact ⟨l, hl, Nat.le_trans hlm hmn⟩

/-- The diagnostics come in the order of the tokens that they are about. -/
structure InSourceOrder (ts : List Token) (ds : List Diagnostic) : Prop where
  ordered : (ds.map Diagnostic.line).Pairwise NotAfter
  of_token : ∀ d ∈ ds, ∀ line ∈ d.line, ∃ t ∈ ts, t.line = line

/-- The lines of the tokens left. -/
def Cursor.lines (c : Cursor) : List Nat := c.tokens.map Token.line

namespace Cursor

theorem line?_eq (c : Cursor) : c.line? = c.lines.head? := by
  rw [line?, current?, lines, List.head?_map]

theorem lines_advance (c : Cursor) : c.advance.lines = c.lines.tail := by
  rw [lines, lines, tokens_advance, List.map_tail]

theorem lines_respell (c : Cursor) (text : String) (kind : Kind) :
    (c.respell text kind).lines = c.lines := by
  obtain ⟨ts, n, h⟩ := c
  cases ts with
  | nil => rfl
  | cons t ts => rfl

/-- The token behind the current one is not on an earlier line. -/
theorem notAfter_advance {c : Cursor} (h : c.lines.Pairwise (· ≤ ·)) :
    NotAfter c.line? c.advance.line? := by
  rw [line?_eq, line?_eq, lines_advance]
  cases hlines : c.lines with
  | nil => exact .refl _
  | cons m ms =>
    rw [hlines, List.pairwise_cons] at h
    exact fun n hn => ⟨m, rfl, h.1 n (List.mem_of_head? hn)⟩

end Cursor

namespace Grammar

/-- The line that an event is about. -/
def Event.about? : Event → Option (Option Nat)
  | .finding line _ | .header line _ | .headerLacks line _ _ => some line
  | .parameters _ _ => none

/-- The lines that events are about. -/
def linesOf (es : List Event) : List (Option Nat) := es.filterMap Event.about?

theorem linesOf_append (es is : List Event) : linesOf (es ++ is) = linesOf es ++ linesOf is :=
  List.filterMap_append

/-! ## Going forward -/

variable {ts : List Token}

/-- How it is within a list of tokens: its last tokens are left, and what was recorded is
about lines of its tokens that are not after the current line. -/
structure InOrder (ts : List Token) (c : Cursor) (past : List Event) : Prop where
  rest : c.lines <:+ ts.map Token.line
  ordered : (linesOf past).Pairwise NotAfter
  before : ∀ line ∈ linesOf past, NotAfter line c.line?
  of_token : ∀ line ∈ linesOf past, ∀ n ∈ line, n ∈ ts.map Token.line

theorem InOrder.start (ts : List Token) : InOrder ts (.ofList ts) [] :=
  ⟨List.suffix_rfl, .nil, List.forall_mem_nil _, List.forall_mem_nil _⟩

theorem InOrder.record {c : Cursor} {past : List Event} (h : InOrder ts c past) {e : Event}
    (he : ∀ line ∈ e.about?, line = c.line?) : InOrder ts c (past ++ [e]) := by
  cases habout : e.about? with
  | none =>
    have hlines : linesOf (past ++ [e]) = linesOf past := by
      simp [linesOf, habout]
    exact ⟨h.rest, hlines ▸ h.ordered, hlines ▸ h.before, hlines ▸ h.of_token⟩
  | some line =>
    have hlines : linesOf (past ++ [e]) = linesOf past ++ [line] := by
      simp [linesOf, habout]
    obtain rfl := he line habout
    have hcurrent : ∀ n ∈ c.line?, n ∈ ts.map Token.line := fun n hn => by
      rw [c.line?_eq] at hn
      exact h.rest.subset (List.mem_of_head? hn)
    constructor
    case rest => exact h.rest
    case ordered =>
      rw [hlines, List.pairwise_append]
      exact ⟨h.ordered, List.pairwise_singleton _ _, by simpa using h.before⟩
    case before =>
      rw [hlines, List.forall_mem_append, List.forall_mem_singleton]
      exact ⟨h.before, .refl _⟩
    case of_token =>
      rw [hlines, List.forall_mem_append, List.forall_mem_singleton]
      exact ⟨h.of_token, hcurrent⟩

theorem InOrder.respell {c : Cursor} {past : List Event} (h : InOrder ts c past) (text : String)
    (kind : Kind) : InOrder ts (c.respell text kind) past := by
  have hline : (c.respell text kind).line? = c.line? := by
    rw [Cursor.line?_eq, Cursor.line?_eq, Cursor.lines_respell]
  exact ⟨(c.lines_respell text kind).symm ▸ h.rest, h.ordered, hline.symm ▸ h.before, h.of_token⟩

theorem InOrder.advance (hts : (ts.map Token.line).Pairwise (· ≤ ·)) {c : Cursor}
    {past : List Event} (h : InOrder ts c past) : InOrder ts c.advance past := by
  have hnext := Cursor.notAfter_advance (hts.sublist h.rest.sublist)
  constructor
  case rest =>
    rw [c.lines_advance]
    exact (List.tail_suffix _).trans h.rest
  case ordered => exact h.ordered
  case before => exact fun line hline => (h.before line hline).trans hnext
  case of_token => exact h.of_token

/-- The parse goes forward and records what it meets in order. -/
theorem inOrder_kept (hts : (ts.map Token.line).Pairwise (· ≤ ·)) : Kept (InOrder ts) := by
  constructor
  case advance => exact fun h => h.advance hts
  case respell => exact fun word h => h.respell word.text .keyword
  case record =>
    intro c past e he h
    cases he with
    | finding | anonymous | headerLacks =>
      exact h.record fun line hline => (Option.some.inj hline).symm
    | parameters => exact h.record fun line hline => by cases hline
  case named =>
    intro reader _ hreader
    exact triple_post hreader fun name c past h =>
      h.record fun line hline => (Option.some.inj hline).symm

/-! ## Diagnostics -/

/-- What an event adds is about its own line. -/
theorem about_of_adds {l : Ledger} {e : Event} {found : Option Nat × Cause}
    (h : l.adds? e = some found) : e.about? = some found.1 := by
  rcases Ledger.adds_cases h with rfl | ⟨name, rfl, -⟩ | ⟨text, wanted, rfl, -⟩
  · rfl
  · rfl
  · rfl

theorem diagnostics_lines_sublist (es : List Event) :
    ((Ledger.ofEvents es).diagnostics.map Diagnostic.line).Sublist (linesOf es) := by
  induction es using List.reverseRecOn with
  | nil => exact .slnil
  | append_singleton es e ih =>
    rw [Ledger.diagnostics_concat_event, List.map_append, linesOf_append]
    refine ih.append ?_
    cases hadds : (Ledger.ofEvents es).adds? e with
    | none => exact List.nil_sublist _
    | some found =>
      have hlines : linesOf [e] = [found.1] := by
        simp [linesOf, about_of_adds hadds]
      rw [hlines]
      exact .refl _

theorem checkTokens_inSourceOrder (threshold : Float) {ts : List Token}
    (hts : (ts.map Token.line).Pairwise (· ≤ ·)) :
    InSourceOrder ts (checkTokens threshold ts).diagnostics := by
  obtain ⟨rest, hevents⟩ :=
    program_keeps (inOrder_kept hts) (.ofThreshold threshold) (.start ts)
  have hsublist := diagnostics_lines_sublist
    (program (.ofThreshold threshold) (.ofList ts)).events
  rw [← diagnostics_checkTokens] at hsublist
  refine ⟨hevents.ordered.sublist hsublist, fun d hd line hline => ?_⟩
  have hmem := hsublist.subset (List.mem_map_of_mem hd)
  exact List.mem_map.mp (hevents.of_token _ hmem line hline)

end Grammar

/-- **The order of diagnostics.** If the lines of the tokens never decrease, the diagnostics
of the parse come in the order of their lines, and a line that is given is that of a token.
In the report of a check these follow those of the lexer, which all have lines and come in
the order of these. -/
theorem diagnostics_in_order :
    (∀ threshold ts, (ts.map Token.line).Pairwise (· ≤ ·) →
      InSourceOrder ts (checkTokens threshold ts).diagnostics) ∧
    ∀ settings source,
      let lexed := lex settings.comments source.toList
      let parsed := checkTokens settings.threshold lexed.tokens
      (check settings source).diagnostics = lexed.diagnostics ++ parsed.diagnostics ∧
        (∃ lines : List Nat, lexed.diagnostics.map Diagnostic.line = lines.map some ∧
          lines.Pairwise (· ≤ ·)) ∧
        InSourceOrder lexed.tokens parsed.diagnostics := by
  refine ⟨fun threshold ts => Grammar.checkTokens_inSourceOrder threshold, ?_⟩
  intro settings source lexed parsed
  refine ⟨rfl, ?_, ?_⟩
  · exact ⟨_, map_line_diagnostics _ _, diagnosticLines_pairwise _ _⟩
  · exact Grammar.checkTokens_inSourceOrder _ (token_lines_pairwise _ _)

end LuaChecker
