import LuaChecker.Proofs.Lexing.Delimiting
import Mathlib.Algebra.GroupWithZero.Nat
import Mathlib.Algebra.Order.BigOperators.Group.List
import Mathlib.Algebra.Order.Group.Nat

/-!
# Illegal escapes and their reports

The escapes of a quoted string are examined from its opening quote to its closing one, and
each illegal escape in between is reported once. A string that is not closed is examined to
the end of the source, although it is cut before the first white space. So every illegal
escape inside a string is reported, but what stands behind a string that is not closed is
examined for that string as well, whatever it is read as afterwards.

* `illegalEscapes`: the illegal escapes of a text, counted without a scanner;
* `extent_illegal`: the search for a closing quote counts them;
* `count_illegalEscape_scan`: only quoted strings have illegal escapes;
* `lex_escapes`: the reports of a source, by the tokens for which they are made;
* `escape_reported_twice`: one escape that two strings report.
-/

namespace LuaChecker

namespace Piece

/-- The number of backslashes in the inside of a string that are not escaped themselves and
have a character behind them that is neither a digit nor one of the listed ones. -/
def illegalEscapes : List Char → Nat
  | [] => 0
  | [_] => 0
  | c :: d :: cs =>
    if c = '\\' then (if isEscape d then 0 else 1) + illegalEscapes cs
    else illegalEscapes (d :: cs)

theorem illegalEscapes_cons {c : Char} (h : c ≠ '\\') (cs : List Char) :
    illegalEscapes (c :: cs) = illegalEscapes cs := by
  cases cs with
  | nil => rfl
  | cons d ds => rw [illegalEscapes, if_neg h]

theorem illegalEscapes_escape (c : Char) (cs : List Char) :
    illegalEscapes ('\\' :: c :: cs) = (if isEscape c then 0 else 1) + illegalEscapes cs := by
  rw [illegalEscapes, if_pos rfl]

/-- The escapes at the start of a text are among those of the text. -/
theorem illegalEscapes_le_append (text more : List Char) :
    illegalEscapes text ≤ illegalEscapes (text ++ more) := by
  induction text using illegalEscapes.induct with
  | case1 => exact Nat.zero_le _
  | case2 c => exact Nat.zero_le _
  | case3 c cs ih =>
    rw [List.cons_append, List.cons_append, illegalEscapes_escape, illegalEscapes_escape]
    exact Nat.add_le_add_left ih _
  | case4 c d cs hc ih =>
    rw [List.cons_append, illegalEscapes_cons hc, illegalEscapes_cons hc]
    exact ih

variable {quote : Char} {inner text : List Char}

/-- A closing quote is no escape. -/
theorem illegalEscapes_inside (h : Inside quote inner) :
    illegalEscapes (inner ++ [quote]) = illegalEscapes inner := by
  induction h with
  | nil => rfl
  | escaped _ ih =>
    rw [List.cons_append, List.cons_append, illegalEscapes_escape, illegalEscapes_escape, ih]
  | plain hbackslash _ _ ih =>
    rw [List.cons_append, illegalEscapes_cons hbackslash, illegalEscapes_cons hbackslash, ih]

/-- A text that closes no string is examined escape by escape, to its end. -/
theorem extent_illegal (h : (extent quote false text).closed = false) :
    (extent quote false text).illegal = illegalEscapes text := by
  induction text using illegalEscapes.induct with
  | case1 => rfl
  | case2 c =>
    rw [extent_cons]
    split
    · rfl
    · split <;> rfl
  | case3 c cs ih =>
    rw [extent_cons, if_pos rfl, extent_cons_escaped] at h ⊢
    rw [illegalEscapes_escape, ← ih h, Nat.add_comm]
    rfl
  | case4 c d cs hc ih =>
    rw [extent_cons, if_neg hc] at h ⊢
    split at h
    · cases h
    · rename_i hne
      rw [if_neg hne, illegalEscapes_cons hc, ← ih h]
      rfl

theorem extent_inside_closed (h : Inside quote inner) :
    (extent quote false inner).closed = false := by
  induction h with
  | nil => rfl
  | escaped _ ih =>
    rw [extent_cons, if_pos rfl, extent_cons_escaped]
    exact ih
  | plain hbackslash hc _ ih =>
    rw [extent_cons, if_neg hbackslash, if_neg hc]
    exact ih

/-! ## The flaws of pieces -/

theorem count_illegalEscape_of_ne {flaws : List Flaw}
    (h : ∀ flaw ∈ flaws, flaw ≠ .illegalEscape) : flaws.count .illegalEscape = 0 :=
  List.count_eq_zero.mpr fun hmem => h _ hmem rfl

theorem count_illegalEscape_closed (hquote : quote ≠ '\\') (h : Inside quote inner)
    (after : List Char) :
    (quoted quote (inner ++ quote :: after)).flaws.count .illegalEscape =
      illegalEscapes (quoted quote (inner ++ quote :: after)).tail := by
  rw [quoted_inside hquote h]
  simp only [List.count_replicate_self]
  rw [illegalEscapes_inside h, extent_illegal (extent_inside_closed h)]

theorem count_illegalEscape_open (h : (extent quote false text).closed = false) :
    (quoted quote text).flaws.count .illegalEscape = illegalEscapes text := by
  simp [quoted, h, ← extent_illegal h]

theorem exists_quoted_content (quote : Char) (text : List Char) :
    ∃ value, (quoted quote text).content = .token .string value := by
  unfold quoted
  dsimp only
  split <;> exact ⟨_, rfl⟩

theorem number_no_escape {head : Char} (hdigit : head.isDigit = true) (text : List Char) :
    (number head text).flaws.count .illegalEscape = 0 := by
  apply count_illegalEscape_of_ne
  rintro flaw hflaw rfl
  rw [(number_faithful hdigit text).2] at hflaw
  cases isRepeat_of_mem_lost hflaw

theorem longString_no_escape (text : List Char) :
    (longString text).flaws.count .illegalEscape = 0 := by
  have hstart : (longStart text).flaws.count .illegalEscape = 0 := by
    unfold longStart
    dsimp only
    split
    · split <;> rfl
    · rfl
  simp only [longString, List.count_append, hstart]
  split <;> split <;> rfl

/-- Only quoted strings have illegal escapes. -/
theorem scan_no_escape (comments : Bool) {head : Char} (hquote : head ≠ '"' ∧ head ≠ '\'')
    (text : List Char) : (scan comments head text).flaws.count .illegalEscape = 0 := by
  unfold scan
  split
  · rfl
  split
  · apply count_illegalEscape_of_ne
    rintro flaw hflaw rfl
    cases comment_flaws hflaw
  split
  · rfl
  split
  · rename_i hdigit
    exact number_no_escape hdigit text
  split
  · rename_i hstring
    have hbracket : head = '[' := by
      simp only [startsString, hquote.1, hquote.2, decide_false, Bool.false_or,
        Bool.and_eq_true, decide_eq_true_eq] at hstring
      exact hstring.1
    rw [string, if_pos hbracket]
    exact longString_no_escape text
  · unfold symbol
    split <;> rfl

end Piece

/-! ## The reports of tokens -/

theorem message_eq_illegalEscape_iff {flaw : Flaw} :
    flaw.message = "Illegal escape in string" ↔ flaw = .illegalEscape := by
  cases flaw with
  | strayCharacter c => simp [Flaw.message, ← String.toList_inj]
  | _ => decide

/-- The token is a quoted string. -/
def Token.IsQuoted (source : List Char) (t : Token) : Prop :=
  t.kind = .string ∧ (source[t.position]? = some '"' ∨ source[t.position]? = some '\'')

instance (source : List Char) (t : Token) : Decidable (t.IsQuoted source) :=
  inferInstanceAs (Decidable (_ ∧ _))

/-- The token starts with a quote, and a closing quote comes behind it. -/
def Token.IsClosed (source : List Char) (t : Token) : Prop :=
  ∃ quote rest, (quote = '"' ∨ quote = '\'') ∧ source.drop t.position = quote :: rest ∧
    Piece.Terminated quote rest

theorem Token.isClosed_iff {source : List Char} {t : Token} {quote : Char} {rest : List Char}
    (hquote : quote = '"' ∨ quote = '\'') (hdrop : source.drop t.position = quote :: rest) :
    t.IsClosed source ↔ Piece.Terminated quote rest := by
  rw [Token.IsClosed, hdrop]
  constructor
  · rintro ⟨_, _, -, ⟨rfl, rfl⟩, hterminated⟩
    exact hterminated
  · exact fun hterminated => ⟨quote, rest, hquote, rfl, hterminated⟩

/-- The search for a closing quote behind the start of a token. -/
def Token.findsQuote (source : List Char) (t : Token) : Bool :=
  match source.drop t.position with
  | [] => false
  | quote :: rest => (quote = '"' || quote = '\'') && (Piece.extent quote false rest).closed

theorem Token.findsQuote_iff {source : List Char} {t : Token} :
    t.findsQuote source = true ↔ t.IsClosed source := by
  unfold findsQuote
  cases hdrop : source.drop t.position with
  | nil => simp [IsClosed, hdrop]
  | cons quote rest =>
    simp only [Bool.and_eq_true, Bool.or_eq_true, decide_eq_true_eq]
    by_cases hquote : quote = '"' ∨ quote = '\''
    · rw [isClosed_iff hquote hdrop,
        Piece.extent_closed_iff (Piece.ne_backslash_of_quote hquote)]
      exact and_iff_right hquote
    · refine iff_of_false (fun h => hquote h.1) ?_
      rintro ⟨_, _, hquote', heq, -⟩
      rw [hdrop] at heq
      cases heq
      exact hquote hquote'

instance (source : List Char) (t : Token) : Decidable (t.IsClosed source) :=
  decidable_of_iff _ Token.findsQuote_iff

/-- The number of illegal escapes inside the span of a quoted string, and zero for any other
token. -/
def Token.escapesInside (source : List Char) (t : Token) : Nat :=
  if t.IsQuoted source then Piece.illegalEscapes ((t.span.text source).drop 1) else 0

/-- The number of illegal escapes for which a token is reported: those inside its span or, if
it is a quoted string that is not closed, those in the rest of the source. -/
def Token.escapesReported (source : List Char) (t : Token) : Nat :=
  if t.IsQuoted source ∧ ¬ t.IsClosed source then
    Piece.illegalEscapes (source.drop (t.position + 1))
  else t.escapesInside source

section

variable {comments : Bool} {source : List Char}

theorem countP_illegalEscape (p : Placed) :
    p.diagnostics.countP (·.message = "Illegal escape in string") =
      p.piece.flaws.count .illegalEscape := by
  rw [Placed.diagnostics, List.countP_map, List.count_eq_countP]
  exact List.countP_congr fun flaw _ => by simp [message_eq_illegalEscape_iff]

/-- The token of a piece starts with the first character of the piece. -/
theorem isQuoted_iff_head {p : Placed} {t : Token} (hstands : p.Stands comments source)
    (htoken : p.token? = some t) :
    t.IsQuoted source ↔ t.kind = .string ∧ (p.piece.head = '"' ∨ p.piece.head = '\'') := by
  have hposition : t.position = p.spot.position :=
    congrArg Span.position (Placed.token?_eq_some htoken).1
  rw [Token.IsQuoted, hposition, hstands.getElem?_eq, Option.some.injEq, Option.some.injEq]

/-- A quoted string is reported for the illegal escapes in what is examined for it. -/
theorem count_illegalEscape_quoted {p : Placed} {t : Token} {quote : Char} {rest : List Char}
    (hquote : quote = '"' ∨ quote = '\'') (hstands : p.Stands comments source)
    (hpiece : p.piece = Piece.quoted quote rest)
    (hdrop : source.drop p.spot.position = quote :: rest) (htoken : p.token? = some t) :
    p.piece.flaws.count .illegalEscape = t.escapesReported source := by
  have hspan : t.span = p.span := (Placed.token?_eq_some htoken).1
  have hposition : t.position = p.spot.position := congrArg Span.position hspan
  have hquoted : t.IsQuoted source := by
    obtain ⟨value, hvalue⟩ := Piece.exists_quoted_content quote rest
    rw [isQuoted_iff_head hstands htoken, hpiece, Piece.quoted_head]
    rw [← hpiece] at hvalue
    rw [Placed.token?, hvalue, Option.some.injEq] at htoken
    exact ⟨by rw [← htoken], hquote⟩
  have hclosed : t.IsClosed source ↔ Piece.Terminated quote rest :=
    Token.isClosed_iff hquote (hposition ▸ hdrop)
  by_cases hterminated : Piece.Terminated quote rest
  · have hcovered : t.span.text source = p.piece.source := by rw [hspan, hstands.text_eq]
    obtain ⟨inner, after, rfl, hinside⟩ := hterminated
    rw [Token.escapesReported, if_neg fun h => h.2 (hclosed.mpr ⟨_, _, rfl, hinside⟩),
      Token.escapesInside, if_pos hquoted, hcovered, hpiece,
      Piece.count_illegalEscape_closed (Piece.ne_backslash_of_quote hquote) hinside]
    rfl
  · have hopen : (Piece.extent quote false rest).closed = false := by
      rw [← Bool.not_eq_true, Piece.extent_closed_iff (Piece.ne_backslash_of_quote hquote)]
      exact hterminated
    have hrest : source.drop (t.position + 1) = rest := by
      rw [hposition, ← List.drop_drop, hdrop]
      rfl
    rw [Token.escapesReported, if_pos ⟨hquoted, fun h => hterminated (hclosed.mp h)⟩, hrest,
      hpiece, Piece.count_illegalEscape_open hopen]

theorem count_illegalEscape_placed {p : Placed} (hp : p ∈ placedPieces comments source) :
    p.piece.flaws.count .illegalEscape = p.token?.elim 0 (Token.escapesReported source) := by
  have hstands := stands_of_mem hp
  obtain ⟨front, c, cs, hsource, hpiece⟩ := exists_scan_of_mem hp
  have hdrop : source.drop p.spot.position = c :: cs := by
    rw [hpiece, hsource]
    exact drop_past front (c :: cs)
  by_cases hquote : c = '"' ∨ c = '\''
  · have hquoted : p.piece = Piece.quoted c cs := by
      rw [hpiece]
      exact Piece.scan_opener (d := .quote c hquote) rfl
    obtain ⟨value, hvalue⟩ := Piece.exists_quoted_content c cs
    obtain ⟨t, htoken⟩ : ∃ t, p.token? = some t := by
      rw [Placed.token?, hquoted, hvalue]
      exact ⟨_, rfl⟩
    rw [htoken, Option.elim_some]
    exact count_illegalEscape_quoted hquote hstands hquoted hdrop htoken
  · have hnone : p.piece.flaws.count .illegalEscape = 0 := by
      rw [hpiece]
      exact Piece.scan_no_escape comments (not_or.mp hquote) cs
    rw [hnone]
    cases htoken : p.token? with
    | none => rfl
    | some t =>
      have hnot : ¬ t.IsQuoted source := by
        rw [isQuoted_iff_head hstands htoken, hpiece, Piece.scan_head]
        exact fun h => hquote h.2
      rw [Option.elim_some, Token.escapesReported, if_neg fun h => hnot h.1, Token.escapesInside,
        if_neg hnot]

theorem sum_map_filterMap {α β : Type} (f : α → Option β) (g : β → Nat) (xs : List α) :
    ((xs.filterMap f).map g).sum = (xs.map fun a => (f a).elim 0 g).sum := by
  induction xs with
  | nil => rfl
  | cons x xs ih => cases hx : f x <;> simp [hx, ih]

theorem countP_eq_sum_escapesReported (comments : Bool) (source : List Char) :
    (lex comments source).diagnostics.countP (·.message = "Illegal escape in string") =
      ((lex comments source).tokens.map (Token.escapesReported source)).sum := by
  rw [lex_diagnostics, lex_tokens, List.countP_flatMap, sum_map_filterMap]
  congr 1
  apply List.map_congr_left
  intro p hp
  rw [Function.comp_apply, countP_illegalEscape, count_illegalEscape_placed hp]

/-- Whatever is inside a string is examined for it. -/
theorem escapesInside_le (source : List Char) (t : Token) :
    t.escapesInside source ≤ t.escapesReported source := by
  unfold Token.escapesReported
  split
  · rename_i h
    obtain ⟨more, hmore⟩ : (t.span.text source).drop 1 <+: source.drop (t.position + 1) := by
      rw [Span.text, List.drop_take, List.drop_drop]
      exact List.take_prefix _ _
    rw [Token.escapesInside, if_pos h.1, ← hmore]
    exact Piece.illegalEscapes_le_append _ _
  · exact Nat.le_refl _

end

/-- **Illegal escapes.** An illegal escape is reported once for every quoted string for which
it is examined: inside a string that is closed, and anywhere behind the opening quote of one
that is not. So there are at least as many reports as illegal escapes inside strings, and
exactly as many if every quoted string is closed. -/
theorem lex_escapes (comments : Bool) (source : List Char) :
    (lex comments source).diagnostics.countP (·.message = "Illegal escape in string") =
        ((lex comments source).tokens.map (Token.escapesReported source)).sum ∧
      ((lex comments source).tokens.map (Token.escapesInside source)).sum ≤
        (lex comments source).diagnostics.countP (·.message = "Illegal escape in string") ∧
      ((∀ t ∈ (lex comments source).tokens, t.IsQuoted source → t.IsClosed source) →
        (lex comments source).diagnostics.countP (·.message = "Illegal escape in string") =
          ((lex comments source).tokens.map (Token.escapesInside source)).sum) := by
  have hcount := countP_eq_sum_escapesReported comments source
  refine ⟨hcount, ?_, fun hclosed => ?_⟩
  · rw [hcount]
    exact List.sum_le_sum fun t _ => escapesInside_le source t
  · rw [hcount]
    congr 1
    apply List.map_congr_left
    intro t ht
    exact if_neg fun h => h.2 (hclosed t ht h.1)

/-- An escaped quote closes nothing, and one of the two escapes is illegal. -/
theorem lex_escapes_closed :
    (∀ t ∈ (lex false "'\\q\\''".toList).tokens,
        t.IsQuoted "'\\q\\''".toList → t.IsClosed "'\\q\\''".toList) ∧
      (lex false "'\\q\\''".toList).diagnostics.countP
        (·.message = "Illegal escape in string") = 1 := by
  have hclosed : ∀ t ∈ (lex false "'\\q\\''".toList).tokens,
      t.IsQuoted "'\\q\\''".toList → t.IsClosed "'\\q\\''".toList := by
    decide +kernel
  refine ⟨hclosed, ?_⟩
  rw [(lex_escapes false "'\\q\\''".toList).2.2 hclosed]
  decide +kernel

/-- Two strings that are not closed report the one illegal escape that is inside the second. -/
theorem escape_reported_twice :
    (lex false "\"a '\\q".toList).diagnostics.countP (·.message = "Illegal escape in string") = 2 ∧
      ((lex false "\"a '\\q".toList).tokens.map
        (Token.escapesInside "\"a '\\q".toList)).sum = 1 := by
  constructor <;> decide +kernel

end LuaChecker
