import LuaChecker.Proofs.Lexing.Faithful
import LuaChecker.Proofs.Lexing.Lines

/-!
# Where strings end

A string starts with a quote or with a long bracket, and its opener tells what terminates
it. It runs to the first terminator behind the opener. If there is none, it is reported as
not closed and ends before the first white space behind its opener, or with the source. In a
long string the opener may come again before the end; that is reported, too.

* `Delimiter.ClosesBehind`: the first terminator, told by the text in front of it;
* `closed_piece`, `unclosed_piece`: the piece that is read, for each sort of opener;
* `countP_reportsAt`: what is reported about a piece by the flaws of the piece;
* `lex_delimits`: how every string token of a source is delimited.
-/

namespace LuaChecker

/-! ## Delimiters -/

/-- How a string starts: with a quote, or with a long bracket of some level. -/
inductive Delimiter
  | quote (c : Char) (hc : c = '"' ∨ c = '\'')
  | bracket (level : Nat)

namespace Delimiter

def opener : Delimiter → List Char
  | quote c _ => [c]
  | bracket level => Piece.longOpener level

def closer : Delimiter → List Char
  | quote c _ => [c]
  | bracket level => Piece.longCloser level

/-- In the text behind an opener, the first terminator stands behind `inner`: the first quote
of the same sort that is not escaped, or the first closing bracket of the same level. -/
def ClosesBehind : Delimiter → List Char → List Char → Prop
  | quote c _, rest, inner => inner ++ [c] <+: rest ∧ Piece.Inside c inner
  | bracket level, rest, inner => inner ++ Piece.longCloser level <+: rest ∧
      ¬ Piece.longCloser level <:+: (inner ++ Piece.longCloser level).dropLast

/-- The opener of a long bracket comes again in this text. -/
def Nests : Delimiter → List Char → Prop
  | quote _ _, _ => False
  | bracket level, inner => Piece.longOpener level <:+: inner

/-- The piece that starts with the opener and goes on in the text behind it. -/
def piece : Delimiter → List Char → Piece
  | quote c _, rest => Piece.quoted c rest
  | bracket level, rest => Piece.longString (List.replicate level '=' ++ '[' :: rest)

end Delimiter

/-- A string token goes over the opener and the text `inner`, and over the closer if it is
closed. The reports about it say if it is not closed and if its brackets are nested. -/
structure Token.Delimited (t : Token) (reports : List Diagnostic) (d : Delimiter)
    (inner : List Char) (closed : Bool) : Prop where
  kind : t.kind = .string
  text : t.text.toList = d.opener ++ inner ++ d.closer
  finish : t.span.finish =
    t.position + d.opener.length + inner.length + if closed then d.closer.length else 0
  missing : reports.countP (·.message = "String not closed") = if closed then 0 else 1
  nested : (∃ r ∈ reports, r.message = "Long brackets are nested") ↔ d.Nests inner

/-! ## Pieces -/

theorem Text.isSome_before?_iff {pattern text : List Char} :
    (Text.before? pattern text).isSome = true ↔ pattern <:+: text := by
  constructor
  · intro h
    obtain ⟨inner, hinner⟩ := Option.isSome_iff_exists.mp h
    obtain ⟨after, hafter⟩ := Text.before?_append hinner
    exact ⟨inner, after, hafter⟩
  · intro h
    rw [← Option.isNone_eq_false_iff, ← Bool.not_eq_true, Option.isNone_iff_eq_none]
    exact fun hnone => Text.before?_none hnone h

namespace Piece

/-- A piece is a string that goes over the opener and the text `inner`, and over the closer
if it is closed. -/
structure Delimited (p : Piece) (d : Delimiter) (inner : List Char) (closed : Bool) : Prop where
  content : p.content = .token .string (d.opener ++ inner ++ d.closer)
  width : p.width =
    d.opener.length + inner.length + if closed then d.closer.length else 0
  missing : p.flaws.countP (·.message = Flaw.stringNotClosed.message) = if closed then 0 else 1
  nested : (∃ flaw ∈ p.flaws, flaw.message = Flaw.nestedBrackets.message) ↔ d.Nests inner

variable {comments : Bool} {head quote : Char} {text rest inner : List Char} {level : Nat}

/-- What starts with an opener is read as a string of that sort. -/
theorem scan_opener {d : Delimiter} (h : head :: text = d.opener ++ rest) :
    scan comments head text = d.piece rest := by
  cases d with
  | quote c hc =>
    cases h
    rcases hc with rfl | rfl <;> cases comments <;> rfl
  | bracket level =>
    obtain ⟨rfl, rfl⟩ : head = '[' ∧ text = List.replicate level '=' ++ '[' :: rest := by
      simpa [Delimiter.opener, longOpener] using h
    cases level <;> cases comments <;> rfl

theorem quoted_delimited (hc : quote = '"' ∨ quote = '\'') (hinner : inner ++ [quote] <+: rest)
    (hinside : Inside quote inner) : (quoted quote rest).Delimited (.quote quote hc) inner true := by
  obtain ⟨after, rfl⟩ := hinner
  rw [List.append_assoc, List.singleton_append,
    quoted_inside (ne_backslash_of_quote hc) hinside]
  constructor
  case content => rfl
  case width =>
    simp only [width, Delimiter.opener, Delimiter.closer, List.length_append, List.length_singleton,
      if_true]
    omega
  case missing => simp [Flaw.message]
  case nested => simp [Flaw.message, Delimiter.Nests]

theorem quoted_not_delimited (hc : quote = '"' ∨ quote = '\'') (hnot : ¬ Terminated quote rest) :
    (quoted quote rest).Delimited (.quote quote hc) (rest.takeWhile (!Text.isBlank ·)) false := by
  have hopen : (extent quote false rest).closed = false := by
    rw [← Bool.not_eq_true, extent_closed_iff (ne_backslash_of_quote hc)]
    exact hnot
  simp only [quoted, hopen, Bool.false_eq_true, if_false]
  constructor
  case content => rfl
  case width =>
    simp only [width, Delimiter.opener, List.length_singleton, Bool.false_eq_true, if_false]
    omega
  case missing => simp [Flaw.message]
  case nested => simp [Flaw.message, Delimiter.Nests]

theorem longString_delimited (hinner : Text.before? (longCloser level) rest = some inner) :
    (longString (List.replicate level '=' ++ '[' :: rest)).Delimited (.bracket level) inner
      true := by
  rw [longString_inside hinner]
  constructor
  case content => rfl
  case width =>
    simp only [width, Delimiter.opener, Delimiter.closer, List.length_append, List.length_cons,
      List.length_replicate, length_longOpener, length_longCloser, if_true]
    omega
  case missing =>
    dsimp only
    split <;> rfl
  case nested =>
    rw [Delimiter.Nests, ← Text.isSome_before?_iff]
    dsimp only
    split <;> simp_all

theorem longString_not_delimited (hnone : Text.before? (longCloser level) rest = none) :
    (longString (List.replicate level '=' ++ '[' :: rest)).Delimited (.bracket level)
      (rest.takeWhile (!Text.isBlank ·)) false := by
  have hkept : (rest.takeWhile (!Text.isBlank ·)).length ≤ rest.length := (List.takeWhile_prefix _).length_le
  have hmessage : Flaw.stringNotClosed.message ≠ Flaw.nestedBrackets.message := by decide
  simp only [longString, longStart_of_opener, drop_opening, hnone, Option.getD_none,
    Option.isSome_none, Bool.false_eq_true, if_false, List.nil_append]
  constructor
  case content => rfl
  case width =>
    simp only [width, Delimiter.opener, List.length_take, List.length_append, List.length_cons,
      List.length_replicate, length_longOpener, Bool.false_eq_true, if_false]
    omega
  case missing =>
    dsimp only
    split <;> rfl
  case nested =>
    rw [Delimiter.Nests, ← Text.isSome_before?_iff]
    dsimp only
    split <;> simp_all

variable {d : Delimiter}

theorem closed_piece (h : d.ClosesBehind rest inner) : (d.piece rest).Delimited d inner true := by
  cases d with
  | quote c hc => exact quoted_delimited hc h.1 h.2
  | bracket level =>
    exact longString_delimited ((Text.before?_eq_some_iff (by simp [longCloser])).mpr h)

theorem unclosed_piece (h : ∀ inner, ¬ d.ClosesBehind rest inner) :
    (d.piece rest).Delimited d (rest.takeWhile (!Text.isBlank ·)) false := by
  cases d with
  | quote c hc =>
    apply quoted_not_delimited hc
    rintro ⟨inner, after, rfl, hinside⟩
    exact h inner ⟨⟨after, by simp⟩, hinside⟩
  | bracket level =>
    apply longString_not_delimited
    rw [Option.eq_none_iff_forall_ne_some]
    intro inner hinner
    exact h inner ((Text.before?_eq_some_iff (by simp [longCloser])).mp hinner)

end Piece

/-! ## Tokens and their reports -/

section

variable {comments : Bool} {source : List Char}

theorem countP_reportsAt (comments : Bool) (source : List Char) (i : Nat) (message : String) :
    (reportsAt comments source i).countP (·.message = message) =
      (flawsAt comments source i).countP (·.message = message) := by
  rw [reportsAt, List.countP_map]
  rfl

theorem exists_reportsAt_iff {i : Nat} {message : String} :
    (∃ r ∈ reportsAt comments source i, r.message = message) ↔
      ∃ flaw ∈ flawsAt comments source i, flaw.message = message := by
  simp only [reportsAt, List.mem_map, exists_exists_and_eq_and]

/-- A token that starts with an opener stands for the string that is read there. -/
theorem exists_piece_of_opener {t : Token} (ht : t ∈ (lex comments source).tokens)
    {d : Delimiter} {rest : List Char} (hopen : source.drop t.position = d.opener ++ rest) :
    ∃ p ∈ placedPieces comments source, p.piece = d.piece rest ∧ p.token? = some t := by
  obtain ⟨p, hp, htoken⟩ := List.mem_filterMap.mp ht
  refine ⟨p, hp, ?_, htoken⟩
  have hposition : t.position = p.spot.position :=
    congrArg Span.position (Placed.token?_eq_some htoken).1
  obtain ⟨front, c, cs, rfl, rfl⟩ := exists_scan_of_mem hp
  rw [hposition, drop_past] at hopen
  exact Piece.scan_opener hopen

theorem delimited_of_piece {p : Placed} {t : Token} {d : Delimiter} {inner : List Char}
    {closed : Bool} (hp : p ∈ placedPieces comments source) (htoken : p.token? = some t)
    (h : p.piece.Delimited d inner closed) :
    t.Delimited (reportsAt comments source t.position) d inner closed := by
  have hflaws := flawsAt_position hp
  rw [Placed.token?, h.content, Option.some.injEq] at htoken
  subst htoken
  constructor
  case kind => rfl
  case text => exact String.toList_ofList
  case finish =>
    simp only [Token.span, Span.finish, h.width, Nat.add_assoc]
  case missing =>
    rw [countP_reportsAt, hflaws]
    exact h.missing
  case nested =>
    rw [exists_reportsAt_iff, hflaws]
    exact h.nested

end

/-- **Where strings end.** The diagnostics are those about each place at which something
starts, and every token starts at such a place. A token that starts with an opener is a
string. It ends with the first terminator if there is one, and is then not reported as not
closed. Otherwise it is reported so once, and it ends before the first white space behind its
opener. A long string is reported as nested just if its opener comes again inside it. -/
theorem lex_delimits (comments : Bool) (source : List Char) :
    (lex comments source).diagnostics =
        (starts comments source).flatMap (reportsAt comments source) ∧
      (starts comments source).Pairwise (· < ·) ∧
      ∀ t ∈ (lex comments source).tokens, t.position ∈ starts comments source ∧
        ∀ (d : Delimiter) (rest : List Char), source.drop t.position = d.opener ++ rest →
          (∀ inner, d.ClosesBehind rest inner →
            t.Delimited (reportsAt comments source t.position) d inner true) ∧
          ((∀ inner, ¬ d.ClosesBehind rest inner) →
            t.Delimited (reportsAt comments source t.position) d
              (rest.takeWhile (!Text.isBlank ·)) false) := by
  refine ⟨diagnostics_eq_flatMap_starts comments source, starts_pairwise comments source,
    fun t ht => ⟨mem_starts_iff.mpr (.inl ⟨t, ht, rfl⟩), fun d rest hopen => ?_⟩⟩
  obtain ⟨p, hp, hpiece, htoken⟩ := exists_piece_of_opener ht hopen
  constructor
  · intro inner hcloses
    apply delimited_of_piece hp htoken
    rw [hpiece]
    exact Piece.closed_piece hcloses
  · intro hnever
    apply delimited_of_piece hp htoken
    rw [hpiece]
    exact Piece.unclosed_piece hnever

/-- A nested long string that ends with the last bracket of three, and a quote that is never
closed right behind it. -/
theorem lex_delimits_nested :
    ((Delimiter.bracket 1).ClosesBehind "[=[]]]=]'a b".toList "[=[]]".toList ∧
        Token.Delimited ⟨1, 0, 11, .string, "[=[[=[]]]=]"⟩
          (reportsAt false "[=[[=[]]]=]'a b".toList 0) (.bracket 1) "[=[]]".toList true) ∧
      (∀ inner, ¬ (Delimiter.quote '\'' (.inr rfl)).ClosesBehind "a b".toList inner) ∧
        Token.Delimited ⟨1, 11, 2, .string, "'a'"⟩
          (reportsAt false "[=[[=[]]]=]'a b".toList 11) (.quote '\'' (.inr rfl)) ['a'] false := by
  obtain ⟨-, -, htokens⟩ := lex_delimits false "[=[[=[]]]=]'a b".toList
  have hlong : (⟨1, 0, 11, .string, "[=[[=[]]]=]"⟩ : Token) ∈
      (lex false "[=[[=[]]]=]'a b".toList).tokens := by decide +kernel
  have hquoted : (⟨1, 11, 2, .string, "'a'"⟩ : Token) ∈
      (lex false "[=[[=[]]]=]'a b".toList).tokens := by decide +kernel
  have hcloses : (Delimiter.bracket 1).ClosesBehind "[=[]]]=]'a b".toList "[=[]]".toList :=
    ⟨by decide, by decide⟩
  have hnever (inner : List Char) :
      ¬ (Delimiter.quote '\'' (.inr rfl)).ClosesBehind "a b".toList inner := by
    rintro ⟨hclosed, -⟩
    have hquote : '\'' ∈ "a b".toList := hclosed.subset (by simp)
    exact absurd hquote (by decide)
  exact ⟨⟨hcloses, ((htokens _ hlong).2 (.bracket 1) _ (by decide)).1 _ hcloses⟩, hnever,
    ((htokens _ hquoted).2 (.quote '\'' (.inr rfl)) _ (by decide)).2 hnever⟩

end LuaChecker
