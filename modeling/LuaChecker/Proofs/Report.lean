import LuaChecker.Proofs.Lexing.Lines
import LuaChecker.Proofs.Parsing.Accounting
import LuaChecker.Proofs.Syntax.PlainNames
import Mathlib.Algebra.GroupWithZero.Nat

/-!
# The lines of a report

A report in the form of text is a banner and then one rendering for each diagnostic or, if
there are none, for each function. Each of these has a line of its own as long as no message
crosses lines. A message can do so: where it quotes a string of the source that does, the
line ends of the string stand in the report as they are.

* `splitOn_ofLines`: texts that are printed as lines are read back as these lines;
* `not_crossesLines_lex`: the messages of the lexer are on one line each;
* `not_crossesLines_functionLine`: so are the functions of an accepted program;
* `report_lines`: the lines of a report, and where there are more;
* `long_string_breaks_line`: one diagnostic that takes two lines.
-/

namespace LuaChecker

/-! ## Counting line ends -/

def lineEnds (text : String) : Nat := text.toList.count '\n'

theorem lineEnds_append (a b : String) : lineEnds (a ++ b) = lineEnds a + lineEnds b := by
  unfold lineEnds
  rw [String.toList_append, List.count_append]

theorem lineEnds_eq_zero_iff {text : String} : lineEnds text = 0 ↔ ¬ CrossesLines text :=
  List.count_eq_zero

namespace Report

theorem toList_ofLines (lines : List String) :
    (ofLines lines).toList = lines.flatMap fun line => line.toList ++ ['\n'] := by
  unfold ofLines
  rw [String.toList_join, List.flatMap_map]
  exact List.flatMap_congr fun line _ => String.toList_append

/-- Each line has one line end more than its text. -/
theorem lineEnds_ofLines (lines : List String) :
    lineEnds (ofLines lines) = lines.length + (lines.map lineEnds).sum := by
  unfold lineEnds
  rw [toList_ofLines]
  induction lines with
  | nil => rfl
  | cons line lines ih =>
    rw [List.flatMap_cons, List.count_append, List.count_append, ih, List.length_cons,
      List.map_cons, List.sum_cons]
    change _ + 1 + _ = _
    omega

/-- Texts on one line each are read back when they were printed as lines. Nothing follows the
last line end. -/
theorem splitOn_ofLines {lines : List String} (h : ∀ line ∈ lines, ¬ CrossesLines line) :
    (ofLines lines).toList.splitOn '\n' = lines.map String.toList ++ [[]] := by
  have hwhole : (ofLines lines).toList =
      ['\n'].intercalate (lines.map String.toList ++ [[]]) := by
    rw [toList_ofLines]
    clear h
    induction lines with
    | nil => rfl
    | cons line lines ih =>
      rw [List.flatMap_cons, ih, List.map_cons, List.cons_append,
        List.intercalate_cons_of_ne_nil (by simp), List.append_assoc]
  rw [hwhole]
  refine List.splitOn_intercalate '\n' (List.forall_mem_append.mpr ⟨?_, by simp⟩) (by simp)
  intro text htext
  obtain ⟨line, hline, rfl⟩ := List.mem_map.mp htext
  exact h line hline

/-! ## The entries of a report -/

/-- What a report has behind its banner: its diagnostics or, if there are none, its
functions. -/
def entryCount (r : Report) : Nat :=
  if r.hasErrors then r.diagnostics.length else r.functions.size

theorem length_lines (r : Report) : r.lines.length = 1 + r.entryCount := by
  unfold lines entryCount
  split
  · rw [List.length_cons, List.length_map, Nat.add_comm]
  · rw [List.length_cons, List.length_map, Nat.add_comm]
    rfl

end Report

/-- The place and the punctuation around a message add no line end. -/
theorem lineEnds_render (d : Diagnostic) : lineEnds d.render = lineEnds d.message := by
  have hplace : lineEnds d.place = 0 := by
    rw [lineEnds_eq_zero_iff]
    unfold Diagnostic.place
    split
    · exact Grammar.not_crossesLines_toString _
    · decide
  have hcolon : lineEnds ": " = 0 := by decide
  have hpoint : lineEnds "." = 0 := by decide
  rw [Diagnostic.render, lineEnds_append, lineEnds_append, lineEnds_append, hplace, hcolon,
    hpoint, Nat.zero_add, Nat.add_zero]

/-! ## The lexer -/

theorem not_crossesLines_message {flaw : Flaw} (h : flaw ≠ .strayCharacter '\n') :
    ¬ CrossesLines flaw.message := by
  cases flaw with
  | strayCharacter c =>
    have hc : ¬ CrossesLines (String.singleton c) := by
      unfold CrossesLines
      rw [String.toList_singleton, List.mem_singleton]
      rintro rfl
      exact h rfl
    exact not_crossesLines_append (not_crossesLines_append (by decide) hc) (by decide)
  | _ => decide

/-- A line end is a blank, so it is never reported as a character that starts no token. -/
theorem not_crossesLines_lex (comments : Bool) (source : List Char) :
    ∀ d ∈ (lex comments source).diagnostics, ¬ CrossesLines d.message := by
  intro d hd
  rw [lex_diagnostics] at hd
  obtain ⟨p, hp, hd⟩ := List.mem_flatMap.mp hd
  obtain ⟨flaw, hflaw, rfl⟩ := List.mem_map.mp hd
  have haccounts := (stands_of_mem hp).accounts
  refine not_crossesLines_message ?_
  rintro rfl
  by_cases hcontent : p.piece.content = .stray
  · obtain ⟨-, hflaws, hblank, -⟩ := haccounts.of_stray hcontent
    rw [hflaws, List.mem_singleton] at hflaw
    rw [← Flaw.strayCharacter.inj hflaw] at hblank
    exact absurd hblank (by decide)
  · cases haccounts.flaws_of_ne hcontent _ hflaw

/-! ## Functions -/

theorem mem_of_mem_intercalate {α : Type} {c : α} {separator : List α} {parts : List (List α)}
    (h : c ∈ separator.intercalate parts) : c ∈ separator ∨ ∃ part ∈ parts, c ∈ part := by
  induction parts with
  | nil => cases h
  | cons part parts ih =>
    cases parts with
    | nil =>
      rw [List.intercalate_singleton] at h
      exact .inr ⟨part, List.mem_cons_self, h⟩
    | cons next parts =>
      rw [List.intercalate_cons_cons, List.mem_append, List.mem_append] at h
      rcases h with (hpart | hseparator) | hrest
      · exact .inr ⟨part, List.mem_cons_self, hpart⟩
      · exact .inl hseparator
      · refine (ih hrest).imp_right fun ⟨other, hother, hc⟩ => ?_
        exact ⟨other, List.mem_cons_of_mem part hother, hc⟩

theorem not_crossesLines_functionLine {e : String × List String} (hname : ¬ CrossesLines e.1)
    (hparams : ∀ p ∈ e.2, ¬ CrossesLines p) : ¬ CrossesLines (Report.functionLine e) := by
  have hlist : ¬ CrossesLines (", ".intercalate (e.2.map fun p => "'" ++ p ++ "'")) := by
    unfold CrossesLines
    rw [String.toList_intercalate]
    intro hcross
    rcases mem_of_mem_intercalate hcross with hseparator | ⟨part, hpart, hcross⟩
    · exact absurd hseparator (by decide)
    · rw [List.map_map] at hpart
      obtain ⟨p, hp, rfl⟩ := List.mem_map.mp hpart
      refine not_crossesLines_append (not_crossesLines_append ?_ (hparams p hp)) ?_ hcross
      · decide
      · decide
  exact not_crossesLines_append
    (not_crossesLines_append (not_crossesLines_append hname (by decide)) hlist) (by decide)

/-! ## Checks -/

section

variable (settings : Settings) (source : String)

theorem check_quotes :
    ∀ d ∈ (check settings source).diagnostics,
      Quotes (lex settings.comments source.toList).tokens d.message := by
  refine List.forall_mem_append.mpr ⟨fun d hd => ?_, ?_⟩
  · exact .of_not (not_crossesLines_lex _ _ d hd)
  · exact Grammar.checkTokens_quotes _ (lex_isLexed _ _)

theorem check_functions_isOrdered : (check settings source).functions.IsOrdered :=
  (Grammar.parse_accounted (.ofThreshold settings.threshold) (lex_isLexed _ _)).ordered

/-- The line ends inside the lines of a report are those in its messages. -/
theorem sum_lineEnds_lines :
    ((check settings source).lines.map lineEnds).sum =
      ((check settings source).diagnostics.map (lineEnds ·.message)).sum := by
  unfold Report.lines
  split
  · have hbanner : lineEnds "Errors found" = 0 := by decide
    rw [List.map_cons, List.sum_cons, hbanner, Nat.zero_add, List.map_map]
    exact congrArg List.sum (List.map_congr_left fun d _ => lineEnds_render d)
  · rename_i hclean
    have hnone : (check settings source).diagnostics = [] := by
      simpa [Report.hasErrors] using hclean
    obtain ⟨-, hparsed⟩ := List.append_eq_nil_iff.mp hnone
    have hbanner : lineEnds "No errors found" = 0 := by decide
    rw [hnone, List.map_cons, List.sum_cons, hbanner, Nat.zero_add, List.map_map]
    refine List.sum_eq_zero_iff_forall_eq_nat.mpr fun n hn => ?_
    obtain ⟨e, he, rfl⟩ := List.mem_map.mp hn
    obtain ⟨hname, hparams⟩ := Grammar.plain_entries (lex_isLexed _ _) hparsed e he
    exact lineEnds_eq_zero_iff.mpr (not_crossesLines_functionLine hname hparams)

theorem lineEnds_check :
    lineEnds (check settings source).toText = 1 + (check settings source).entryCount +
      ((check settings source).diagnostics.map (lineEnds ·.message)).sum := by
  rw [Report.toText, Report.lineEnds_ofLines, Report.length_lines, sum_lineEnds_lines]

end

/-- **The lines of a report.** Every report in the form of text has one line for its banner and
one for each of its entries, and besides as many line ends as there are in the messages. A
message with a line end has the whole text of a string of the source in it that goes over that
line end. If there is nothing to report, or if all strings of the source are on one line, the
banner and the entries are exactly the lines of the text. The functions come in the order of
their names. -/
theorem report_lines (settings : Settings) (source : String) :
    let r := check settings source
    let tokens := (lex settings.comments source.toList).tokens
    lineEnds r.toText = 1 + r.entryCount + (r.diagnostics.map (lineEnds ·.message)).sum ∧
      (∀ d ∈ r.diagnostics, CrossesLines d.message →
        ∃ t ∈ tokens, t.kind = .string ∧ CrossesLines t.text ∧
          t.text.toList <:+: d.message.toList) ∧
      (r.diagnostics = [] ∨ (∀ t ∈ tokens, t.kind = .string → ¬ CrossesLines t.text) →
        r.toText.toList.splitOn '\n' = r.lines.map String.toList ++ [[]]) ∧
      r.lines.length = 1 + r.entryCount ∧ r.functions.names.Pairwise (· < ·) := by
  intro r tokens
  refine ⟨lineEnds_check settings source, check_quotes settings source, fun h => ?_,
    r.length_lines, check_functions_isOrdered settings source⟩
  have hmessages : ∀ d ∈ r.diagnostics, lineEnds d.message = 0 := by
    intro d hd
    rw [lineEnds_eq_zero_iff]
    intro hcross
    rcases h with hnone | hplain
    · rw [hnone] at hd
      cases hd
    · obtain ⟨t, ht, hkind, htext, -⟩ := check_quotes settings source d hd hcross
      exact hplain t ht hkind htext
  have hsum : (r.lines.map lineEnds).sum = 0 := by
    rw [sum_lineEnds_lines]
    refine List.sum_eq_zero_iff_forall_eq_nat.mpr fun n hn => ?_
    obtain ⟨d, hd, rfl⟩ := List.mem_map.mp hn
    exact hmessages d hd
  refine Report.splitOn_ofLines fun line hline => ?_
  rw [← lineEnds_eq_zero_iff]
  exact List.sum_eq_zero_iff_forall_eq_nat.mp hsum _ (List.mem_map_of_mem hline)

/-! ## A string on two lines -/

/-- The one token of the source. -/
def longStringTokens : List Token := [⟨1, 0, 7, .string, "[[a\nb]]"⟩]

theorem lex_longString : lex false "[[a\nb]]".toList = ⟨longStringTokens, []⟩ := by
  decide +kernel

namespace Grammar

open Parse

theorem program_longStringTokens (threshold : Float) :
    program (.ofThreshold threshold) (.ofList longStringTokens) =
      ⟨.ok none, .ofList [], [.finding (some 1) (.unexpected "[[a\nb]]" .operand)]⟩ := by
  have hstring : blockTurn (nested 199) [] false (.ofThreshold threshold)
      (.ofList longStringTokens) = ⟨.ok (.again false), .ofList [],
        [.finding (some 1) (.unexpected "[[a\nb]]" .operand)]⟩ := rfl
  have hend : loop (blockTurn (nested 199) []) false (.ofThreshold threshold) (.ofList []) =
      ⟨.ok none, .ofList [], []⟩ := by
    rw [loop_eq]
    rfl
  change loop (blockTurn (nested 199) []) false (.ofThreshold threshold)
    (.ofList longStringTokens) = _
  rw [loop_eq, hstring]
  simp only [hend]
  rfl

end Grammar

theorem check_longString :
    check .default "[[a\nb]]" =
      ⟨[⟨some 1, "'[[a\nb]]' not expected. Name or '(' expected"⟩], .empty⟩ := by
  have hlexed : lex Settings.default.comments "[[a\nb]]".toList = ⟨longStringTokens, []⟩ :=
    lex_longString
  simp only [check, hlexed, checkTokens, Grammar.parse_eq, Grammar.program_longStringTokens]
  rfl

/-- There is one diagnostic, and the report has three lines. -/
theorem long_string_breaks_line :
    (check .default "[[a\nb]]").entryCount = 1 ∧
      lineEnds (check .default "[[a\nb]]").toText = 3 ∧
      lineEnds (check .default "[[a\nb]]").toText ≠
        1 + (check .default "[[a\nb]]").entryCount := by
  rw [check_longString]
  decide +kernel

/-- The one message quotes the string that is on two lines. A string on one line is reported on
one. -/
theorem report_lines_strings :
    (∃ t ∈ longStringTokens, t.kind = .string ∧ CrossesLines t.text ∧
        t.text.toList <:+: "'[[a\nb]]' not expected. Name or '(' expected".toList) ∧
      (∀ t ∈ (lex false "'a'".toList).tokens, t.kind = .string → ¬ CrossesLines t.text) ∧
      (check .default "'a'").toText.toList.splitOn '\n' =
        (check .default "'a'").lines.map String.toList ++ [[]] := by
  have hplain : ∀ t ∈ (lex false "'a'".toList).tokens,
      t.kind = .string → ¬ CrossesLines t.text := by
    decide +kernel
  have hcross : CrossesLines "'[[a\nb]]' not expected. Name or '(' expected" := by decide +kernel
  obtain ⟨-, hquotes, -, -, -⟩ := report_lines .default "[[a\nb]]"
  obtain ⟨-, -, hlines, -, -⟩ := report_lines .default "'a'"
  have hquoted := hquotes ⟨some 1, "'[[a\nb]]' not expected. Name or '(' expected"⟩
    (by rw [check_longString]; exact List.mem_cons_self) hcross
  have htokens : (lex Settings.default.comments "[[a\nb]]".toList).tokens = longStringTokens :=
    congrArg Lexed.tokens lex_longString
  rw [htokens] at hquoted
  exact ⟨hquoted, hplain, hlines (.inr hplain)⟩

end LuaChecker
