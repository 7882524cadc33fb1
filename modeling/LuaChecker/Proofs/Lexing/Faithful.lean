import LuaChecker.Proofs.Lexing.Coverage

/-!
# The text of a token is the text that it covers

The lexer repairs what it can: it leaves the second point of a number out, and it gives a
string the closing quote that the source lacks. Everything else it takes as it is. What it
leaves out and what it adds is told here by the covered characters alone, without the
scanners.

* `Faithful`: what the text of a token of each kind is, given the characters that it covers;
* `stretch_marked`: the number scanner leaves out what repeats a mark;
* `extent_closed_iff`: the search for a closing quote finds one if there is one;
* `quoted_inside`, `longString_inside`: what a string is that has its closing;
* `scan_tells`: the text of every piece that stands for a token;
* `lex_faithful`: the same for the tokens of a source, and their diagnostics.
-/

namespace LuaChecker

/-! ## What a text should be -/

/-- The flaw is a mark that a number has already. -/
def Flaw.isRepeat : Flaw → Bool
  | .repeatedPoint | .repeatedExponent => true
  | _ => false

namespace Piece

/-- What is wrong with a character of a decimal number behind the characters `before`. -/
def repeats? (before : List Char) (c : Char) : Option Flaw :=
  if c = '.' && before.contains '.' then some .repeatedPoint
  else if isExponentMark c && before.any isExponentMark then some .repeatedExponent
  else none

/-- The characters of a decimal number, each with what is wrong with it. -/
def marked (before : List Char) : List Char → List (Char × Option Flaw)
  | [] => []
  | c :: cs => (c, repeats? before c) :: marked (before ++ [c]) cs

def isHexadecimal (covered : List Char) : Bool :=
  ['0', 'x'].isPrefixOf covered

/-- A number without its repeated marks. -/
def keptOfNumber (covered : List Char) : List Char :=
  if isHexadecimal covered then covered
  else ((marked [] covered).filter (·.2.isNone)).map (·.1)

/-- A flaw for each character that a number loses. -/
def lostOfNumber (covered : List Char) : List Flaw :=
  if isHexadecimal covered then [] else (marked [] covered).filterMap (·.2)

/-- A stretch of the inside of a quoted string: no quote in it closes the string, and no
backslash is the last character. -/
inductive Inside (quote : Char) : List Char → Prop
  | nil : Inside quote []
  | escaped {c : Char} {cs : List Char} (h : Inside quote cs) : Inside quote ('\\' :: c :: cs)
  | plain {c : Char} {cs : List Char} (hbackslash : c ≠ '\\') (hquote : c ≠ quote)
      (h : Inside quote cs) : Inside quote (c :: cs)

/-- There is a closing quote in the text behind an opening one. -/
def Terminated (quote : Char) (text : List Char) : Prop :=
  ∃ inner after, text = inner ++ quote :: after ∧ Inside quote inner

/-- The text of a token is what it should be, given the characters that it covers and the
source from the token on. -/
structure Faithful (kind : Kind) (text covered source : List Char) : Prop where
  word : kind = .name ∨ kind = .keyword ∨ kind = .symbol → text = covered
  number : kind = .number → text = keptOfNumber covered
  closed : kind = .string → ∀ quote rest, quote = '"' ∨ quote = '\'' → source = quote :: rest →
    Terminated quote rest → text = covered
  unclosed : kind = .string → ∀ quote rest, quote = '"' ∨ quote = '\'' → source = quote :: rest →
    ¬ Terminated quote rest → text = covered ++ [quote] ∧ ∀ c ∈ covered, Text.isBlank c = false
  long : kind = .string → ∀ level rest, source = longOpener level ++ rest →
    longCloser level <:+: rest → text = covered

/-! ## Numbers -/

/-- The state of the number scanner tells which marks it has passed. -/
structure Number.State.Passed (s : Number.State) (before : List Char) : Prop where
  point : s.point = before.contains '.'
  exponent : s.exponent = before.any isExponentMark

theorem passed_plain {s s' : Number.State} {before : List Char} {c : Char} (h : s.Passed before)
    (hpoint : c ≠ '.') (hexponent : isExponentMark c = false) (hsame : s'.point = s.point)
    (hsame' : s'.exponent = s.exponent) :
    repeats? before c = none ∧ s'.Passed (before ++ [c]) := by
  refine ⟨by simp [repeats?, hpoint, hexponent], ?_, ?_⟩
  · rw [hsame, h.point]
    simp [Ne.symm hpoint]
  · rw [hsame', h.exponent]
    simp [hexponent]

theorem step_passed {s s' : Number.State} {before : List Char} {c : Char} {mark : Option Flaw}
    (h : s.Passed before) (hstep : Number.Follows s c s' mark) :
    repeats? before c = mark ∧ s'.Passed (before ++ [c]) := by
  have hpoint : isExponentMark '.' = false := by decide
  cases hstep with
  | sign hsign _ => exact passed_plain h (isSign_plain hsign).1 (isSign_plain hsign).2 rfl rfl
  | digit hdigit =>
    obtain ⟨hp, he, -⟩ := isDigit_plain hdigit
    exact passed_plain h hp he rfl rfl
  | point hseen | repeatedPoint hseen =>
    rw [h.point] at hseen
    refine ⟨?_, by simp, by simp [h.exponent, hpoint]⟩
    rw [repeats?, hseen]
    rfl
  | exponent hmark hseen | repeatedExponent hmark hseen =>
    have hp := (isExponentMark_plain hmark).1
    rw [h.exponent] at hseen
    refine ⟨?_, by simp [h.point, Ne.symm hp], by simp [hmark]⟩
    simp [repeats?, hp, hmark, hseen]

/-- The number scanner marks what repeats a point or an exponent mark. -/
theorem stretch_marked {s : Number.State} {before : List Char} (h : s.Passed before)
    (text : List Char) :
    Text.stretch Number.step s text =
      marked before ((Text.stretch Number.step s text).map (·.1)) := by
  induction text generalizing s before with
  | nil => rfl
  | cons c cs ih =>
    rw [Text.stretch_cons]
    cases hstep : Number.step s c with
    | none => rfl
    | some r =>
      obtain ⟨s', mark⟩ := r
      obtain ⟨hmark, hpassed⟩ := step_passed h (follows_of_step hstep)
      simp only [List.map_cons, marked, hmark]
      rw [← ih hpassed]

theorem decimal_marked {head : Char} (hdigit : head.isDigit = true) (text : List Char) :
    marked [] (decimal head text).source =
      (head, none) :: Text.stretch Number.step .initial text := by
  obtain ⟨hpoint, hexponent, -⟩ := isDigit_plain hdigit
  have hinitial : Number.State.initial.Passed [] := ⟨rfl, rfl⟩
  obtain ⟨hnone, hpassed⟩ : repeats? [] head = none ∧ Number.State.initial.Passed ([] ++ [head]) :=
    passed_plain hinitial hpoint hexponent rfl rfl
  have htail : (decimal head text).source =
      head :: (Text.stretch Number.step .initial text).map (·.1) := rfl
  rw [htail, marked, hnone, ← stretch_marked hpassed]

/-- A number loses its repeated marks, and each of them is a flaw. -/
theorem number_faithful {head : Char} (hdigit : head.isDigit = true) (text : List Char) :
    (number head text).content = .token .number (keptOfNumber (number head text).source) ∧
      (number head text).flaws = lostOfNumber (number head text).source := by
  unfold number
  split
  · rename_i rest
    have hhexadecimal : isHexadecimal
        (plain .number '0' ('x' :: rest.takeWhile isHexDigit)).source = true := rfl
    simp only [keptOfNumber, lostOfNumber, hhexadecimal, if_true]
    exact ⟨rfl, rfl⟩
  · rename_i hnot
    have hdecimal : isHexadecimal (decimal head text).source = false := by
      rw [← Bool.not_eq_true]
      intro hstart
      obtain ⟨hhead, hx⟩ := List.cons_prefix_cons.mp (List.isPrefixOf_iff_prefix.mp hstart)
      have hprefix : (decimal head text).tail <+: text := Text.stretch_isPrefix _ _ _
      obtain ⟨rest, rfl⟩ := hx.trans hprefix
      exact hnot rest hhead.symm rfl
    simp only [keptOfNumber, lostOfNumber, hdecimal, Bool.false_eq_true, if_false,
      decimal_marked hdigit]
    exact ⟨rfl, rfl⟩

example : keptOfNumber "1.2.3e4E5".toList = "1.23e45".toList := by decide

theorem map_fst_marked (before cs : List Char) : (marked before cs).map (·.1) = cs := by
  induction cs generalizing before with
  | nil => rfl
  | cons c cs ih => simp [marked, ih]

theorem isRepeat_of_mem_marked {before cs : List Char} {c : Char} {flaw : Flaw}
    (h : (c, some flaw) ∈ marked before cs) : flaw.isRepeat = true := by
  induction cs generalizing before with
  | nil => cases h
  | cons d ds ih =>
    rcases List.mem_cons.mp h with heq | hlater
    · have hflaw : repeats? before d = some flaw := (Prod.mk.inj heq).2.symm
      unfold repeats? at hflaw
      split at hflaw
      · cases hflaw
        rfl
      split at hflaw
      · cases hflaw
        rfl
      · cases hflaw
    · exact ih hlater

theorem isRepeat_of_mem_lost {covered : List Char} {flaw : Flaw}
    (h : flaw ∈ lostOfNumber covered) : flaw.isRepeat = true := by
  unfold lostOfNumber at h
  split at h
  · cases h
  · obtain ⟨⟨c, mark⟩, hmem, rfl⟩ := List.mem_filterMap.mp h
    exact isRepeat_of_mem_marked hmem

theorem kept_of_lost_eq_nil {covered : List Char} (h : lostOfNumber covered = []) :
    keptOfNumber covered = covered := by
  unfold keptOfNumber
  unfold lostOfNumber at h
  split at h
  · rename_i hhexadecimal
    rw [if_pos hhexadecimal]
  · rename_i hdecimal
    have hnone : ∀ m ∈ marked [] covered, m.2.isNone = true := by
      intro m hm
      rw [Option.isNone_iff_eq_none]
      exact List.filterMap_eq_nil_iff.mp h m hm
    rw [if_neg hdecimal, List.filter_eq_self.mpr hnone, map_fst_marked]

/-! ## Quoted strings -/

/-- A string runs to the first closing quote, whatever comes behind it. -/
theorem extent_inside {quote : Char} (hquote : quote ≠ '\\') {inner : List Char}
    (h : Inside quote inner) (after : List Char) :
    extent quote false (inner ++ quote :: after) =
      ⟨inner.length, (extent quote false inner).illegal, true⟩ := by
  induction h with
  | nil =>
    rw [List.nil_append, extent_cons, if_neg hquote, if_pos rfl]
    simp
  | escaped _ ih =>
    simp only [List.cons_append, extent_cons, if_true, extent_cons_escaped, ih]
    rfl
  | plain hbackslash hc _ ih =>
    simp only [List.cons_append, extent_cons, if_neg hbackslash, if_neg hc, ih]
    rfl

/-- Behind a backslash, one character comes before the inside goes on. -/
theorem terminated_of_extent {quote : Char} (text : List Char) :
    ((extent quote false text).closed = true → Terminated quote text) ∧
      ((extent quote true text).closed = true →
        ∃ c rest, text = c :: rest ∧ Terminated quote rest) := by
  induction text with
  | nil => simp
  | cons c cs ih =>
    constructor
    · intro h
      rw [extent_cons] at h
      split at h
      · rename_i hc
        obtain ⟨d, rest, rfl, inner, after, rfl, hinside⟩ := ih.2 h
        exact ⟨'\\' :: d :: inner, after, by rw [hc]; rfl, .escaped hinside⟩
      rename_i hbackslash
      split at h
      · rename_i hc
        exact ⟨[], cs, by rw [hc]; rfl, .nil⟩
      · rename_i hc
        obtain ⟨inner, after, rfl, hinside⟩ := ih.1 h
        exact ⟨c :: inner, after, rfl, .plain hbackslash hc hinside⟩
    · intro h
      rw [extent_cons_escaped] at h
      exact ⟨c, cs, rfl, ih.1 h⟩

/-- The search for a closing quote finds one just if there is one. -/
theorem extent_closed_iff {quote : Char} (hquote : quote ≠ '\\') (text : List Char) :
    (extent quote false text).closed = true ↔ Terminated quote text := by
  constructor
  · exact (terminated_of_extent text).1
  · rintro ⟨inner, after, rfl, hinside⟩
    rw [extent_inside hquote hinside]

theorem quoted_inside {quote : Char} (hquote : quote ≠ '\\') {inner : List Char}
    (h : Inside quote inner) (after : List Char) :
    quoted quote (inner ++ quote :: after) =
      ⟨quote, inner ++ [quote], .token .string (quote :: inner ++ [quote]),
        List.replicate (extent quote false inner).illegal .illegalEscape⟩ := by
  have htail : (inner ++ quote :: after).take (inner.length + 1) = inner ++ [quote] := by
    rw [List.append_cons, List.take_left' (by simp)]
  simp only [quoted, extent_inside hquote h, if_true, htail]
  rfl

theorem quoted_closed {quote : Char} {text : List Char}
    (h : (extent quote false text).closed = true) :
    (quoted quote text).content = .token .string (quoted quote text).source := by
  simp [quoted, h, source]

theorem quoted_unclosed {quote : Char} {text : List Char}
    (h : (extent quote false text).closed = false) :
    (quoted quote text).content = .token .string ((quoted quote text).source ++ [quote]) ∧
      Flaw.stringNotClosed ∈ (quoted quote text).flaws ∧
      (quoted quote text).tail = text.takeWhile (!Text.isBlank ·) := by
  simp [quoted, h, source]

/-! ## Long brackets -/

theorem longStart_of_opener (level : Nat) (rest : List Char) :
    longStart (List.replicate level '=' ++ '[' :: rest) = ⟨level, level + 1, []⟩ := by
  have hfill : (List.replicate level '=' ++ '[' :: rest).takeWhile (· ≠ '[') =
      List.replicate level '=' := by simp
  unfold longStart
  simp only [hfill]
  simp

/-- An opening without flaws is one of brackets and equals signs. -/
theorem exists_opener {text : List Char} (h : (longStart text).flaws = []) :
    ∃ level rest, text = List.replicate level '=' ++ '[' :: rest := by
  unfold longStart at h
  dsimp only at h
  have hsplit : text.takeWhile (· ≠ '[') ++ text.dropWhile (· ≠ '[') = text :=
    List.takeWhile_append_dropWhile
  have hfirst := List.head?_dropWhile_not (· ≠ '[') text
  generalize text.takeWhile (· ≠ '[') = fill at h hsplit
  split at h
  · rename_i hlt
    split at h
    · rename_i hall
      have hfill : fill = List.replicate fill.length '=' :=
        List.eq_replicate_of_mem fun c hc => by simpa using List.all_eq_true.mp hall c hc
      cases hdrop : text.dropWhile (· ≠ '[') with
      | nil =>
        rw [hdrop, List.append_nil] at hsplit
        rw [hsplit] at hlt
        exact absurd hlt (Nat.lt_irrefl _)
      | cons c rest =>
        rw [hdrop] at hfirst hsplit
        have hc : c = '[' := by simpa using hfirst
        refine ⟨fill.length, rest, ?_⟩
        rw [← hsplit, hc, ← hfill]
    · cases h
  · cases h

theorem drop_opening (level : Nat) (rest : List Char) :
    (List.replicate level '=' ++ '[' :: rest).drop (level + 1) = rest := by
  rw [← List.drop_drop, List.drop_left' List.length_replicate]
  rfl

/-- A long string runs to the first closing of its level, whatever comes behind it. -/
theorem longString_inside {level : Nat} {rest inner : List Char}
    (h : Text.before? (longCloser level) rest = some inner) :
    longString (List.replicate level '=' ++ '[' :: rest) =
      ⟨'[', List.replicate level '=' ++ '[' :: (inner ++ longCloser level),
        .token .string (longOpener level ++ inner ++ longCloser level),
        if (Text.before? (longOpener level) inner).isSome then [.nestedBrackets] else []⟩ := by
  obtain ⟨after, rfl⟩ := Text.before?_append h
  have hcovered : List.replicate level '=' ++ '[' :: (inner ++ longCloser level ++ after) =
      (List.replicate level '=' ++ '[' :: (inner ++ longCloser level)) ++ after := by simp
  have hlength : (List.replicate level '=' ++ '[' :: (inner ++ longCloser level)).length =
      level + 1 + inner.length + (level + 2) := by
    simp [length_longCloser]
    omega
  simp only [longString, longStart_of_opener, drop_opening, h, Option.getD_some,
    Option.isSome_some, if_true, List.nil_append]
  rw [hcovered, List.take_left' hlength]

/-- A long string that opens and closes covers its text. -/
theorem longString_closed {level : Nat} {rest : List Char} (h : longCloser level <:+: rest) :
    (longString (List.replicate level '=' ++ '[' :: rest)).content =
      .token .string (longString (List.replicate level '=' ++ '[' :: rest)).source := by
  cases hinner : Text.before? (longCloser level) rest with
  | none => exact absurd h (Text.before?_none hinner)
  | some inner =>
    rw [longString_inside hinner]
    simp [source, longOpener]

/-- A long string without flaws opens and closes. -/
theorem exists_inside_of_longString {text : List Char} (h : (longString text).flaws = []) :
    ∃ level rest inner, text = List.replicate level '=' ++ '[' :: rest ∧
      Text.before? (longCloser level) rest = some inner := by
  simp only [longString, List.append_eq_nil_iff] at h
  obtain ⟨level, rest, rfl⟩ := exists_opener h.1.1
  have hclosed := h.1.2
  simp only [longStart_of_opener, drop_opening] at hclosed
  cases hinner : Text.before? (longCloser level) rest with
  | none =>
    rw [hinner] at hclosed
    cases hclosed
  | some inner => exact ⟨level, rest, inner, rfl, hinner⟩

theorem longString_clean {text : List Char} (h : (longString text).flaws = []) :
    (longString text).content = .token .string (longString text).source := by
  obtain ⟨level, rest, inner, rfl, hinner⟩ := exists_inside_of_longString h
  rw [longString_inside hinner]
  simp [source, longOpener]

/-! ## Every token -/

/-- What is known of a piece that stands for a token, at the start of a source: its text is
what it should be, and what it covers if the piece has no flaw. The repeated marks among its
flaws are those of a number. -/
structure TellsOf (p : Piece) (kind : Kind) (text source : List Char) : Prop where
  faithful : Faithful kind text p.source source
  clean : p.flaws = [] → text = p.source
  lost : p.flaws.filter Flaw.isRepeat = if kind = .number then lostOfNumber p.source else []

theorem plain_tells {kind : Kind} {head : Char} {tail source : List Char}
    (h : kind = .name ∨ kind = .keyword ∨ kind = .symbol) :
    (plain kind head tail).TellsOf kind (head :: tail) source := by
  have hnumber : kind ≠ .number := by rcases h with rfl | rfl | rfl <;> decide
  have hstring : kind ≠ .string := by rcases h with rfl | rfl | rfl <;> decide
  constructor
  case faithful =>
    exact ⟨fun _ => rfl, fun hkind => absurd hkind hnumber, fun hkind => absurd hkind hstring,
      fun hkind => absurd hkind hstring, fun hkind => absurd hkind hstring⟩
  case clean => exact fun _ => rfl
  case lost =>
    rw [if_neg hnumber]
    rfl

theorem number_tells {head : Char} (hdigit : head.isDigit = true) (text source : List Char) :
    (number head text).TellsOf .number (keptOfNumber (number head text).source) source := by
  have hflaws := (number_faithful hdigit text).2
  constructor
  case faithful =>
    constructor
    case word => rintro (h | h | h) <;> cases h
    case number => exact fun _ => rfl
    all_goals
      intro hkind
      cases hkind
  case clean =>
    intro hclean
    rw [hflaws] at hclean
    exact kept_of_lost_eq_nil hclean
  case lost =>
    rw [if_pos rfl, hflaws]
    exact List.filter_eq_self.mpr fun flaw hflaw => isRepeat_of_mem_lost hflaw

/-- What is to be shown of the text of a string. -/
theorem string_faithful {text covered source : List Char}
    (hclosed : ∀ quote rest, quote = '"' ∨ quote = '\'' → source = quote :: rest →
      Terminated quote rest → text = covered)
    (hunclosed : ∀ quote rest, quote = '"' ∨ quote = '\'' → source = quote :: rest →
      ¬ Terminated quote rest → text = covered ++ [quote] ∧ ∀ c ∈ covered, Text.isBlank c = false)
    (hlong : ∀ level rest, source = longOpener level ++ rest → longCloser level <:+: rest →
      text = covered) : Faithful .string text covered source := by
  constructor
  case word => rintro (h | h | h) <;> cases h
  case number =>
    intro hkind
    cases hkind
  case closed => exact fun _ => hclosed
  case unclosed => exact fun _ => hunclosed
  case long => exact fun _ => hlong

theorem ne_backslash_of_quote {quote : Char} (hquote : quote = '"' ∨ quote = '\'') :
    quote ≠ '\\' := by
  rcases hquote with rfl | rfl <;> decide

theorem ne_longOpener {quote : Char} (hquote : quote = '"' ∨ quote = '\'') (level : Nat)
    (text rest : List Char) : quote :: text ≠ longOpener level ++ rest := by
  intro h
  obtain rfl : quote = '[' := (List.cons.inj h).1
  rcases hquote with h | h <;> cases h

theorem quoted_tells_closed {quote : Char} (hquote : quote = '"' ∨ quote = '\'')
    {text : List Char} (hterminated : Terminated quote text)
    (hextent : (extent quote false text).closed = true) :
    (quoted quote text).TellsOf .string (quoted quote text).source (quote :: text) := by
  constructor
  case faithful =>
    refine string_faithful (fun _ _ _ _ _ => rfl) ?_
      fun _ _ hsource _ => (ne_longOpener hquote _ _ _ hsource).elim
    intro quote' rest _ hsource hnot
    cases hsource
    exact absurd hterminated hnot
  case clean => exact fun _ => rfl
  case lost => simp [quoted, hextent, Flaw.isRepeat]

theorem quoted_tells_open {quote : Char} (hquote : quote = '"' ∨ quote = '\'')
    {text : List Char} (hnot : ¬ Terminated quote text)
    (hextent : (extent quote false text).closed = false) :
    (quoted quote text).TellsOf .string ((quoted quote text).source ++ [quote])
      (quote :: text) := by
  obtain ⟨-, hflaw, htail⟩ := quoted_unclosed hextent
  constructor
  case faithful =>
    refine string_faithful ?_ ?_ fun _ _ hsource _ => (ne_longOpener hquote _ _ _ hsource).elim
    · intro quote' rest _ hsource hterminated
      cases hsource
      exact absurd hterminated hnot
    · intro quote' rest _ hsource _
      cases hsource
      refine ⟨rfl, fun c hc => ?_⟩
      rw [source, quoted_head, htail] at hc
      rcases List.mem_cons.mp hc with rfl | hkept
      · rcases hquote with rfl | rfl <;> decide
      · simpa using List.mem_takeWhile_imp hkept
  case clean =>
    intro hclean
    rw [hclean] at hflaw
    cases hflaw
  case lost => simp [quoted, hextent, Flaw.isRepeat]

theorem quoted_tells {quote : Char} (hquote : quote = '"' ∨ quote = '\'') (text : List Char) :
    ∃ value, (quoted quote text).content = .token .string value ∧
      (quoted quote text).TellsOf .string value (quote :: text) := by
  have hbackslash := ne_backslash_of_quote hquote
  cases hextent : (extent quote false text).closed with
  | true =>
    have hterminated := (extent_closed_iff hbackslash text).mp hextent
    exact ⟨_, quoted_closed hextent, quoted_tells_closed hquote hterminated hextent⟩
  | false =>
    have hnot : ¬ Terminated quote text := by
      rw [← extent_closed_iff hbackslash text, hextent]
      decide
    exact ⟨_, (quoted_unclosed hextent).1, quoted_tells_open hquote hnot hextent⟩

theorem longStart_flaws_isRepeat (text : List Char) :
    (longStart text).flaws.filter Flaw.isRepeat = [] := by
  unfold longStart
  dsimp only
  split
  · split <;> rfl
  · rfl

theorem longString_tells (text : List Char) :
    ∃ value, (longString text).content = .token .string value ∧
      (longString text).TellsOf .string value ('[' :: text) := by
  have hnotQuote {quote : Char} {rest : List Char} (hquote : quote = '"' ∨ quote = '\'')
      (h : '[' :: text = quote :: rest) : False := by
    cases h
    rcases hquote with h | h <;> cases h
  obtain ⟨value, hvalue⟩ : ∃ value, (longString text).content = .token .string value := ⟨_, rfl⟩
  refine ⟨value, hvalue, ?_⟩
  constructor
  case faithful =>
    refine string_faithful (fun _ _ hquote hsource _ => (hnotQuote hquote hsource).elim)
      (fun _ _ hquote hsource _ => (hnotQuote hquote hsource).elim) ?_
    intro level rest hsource hcloser
    obtain rfl : text = List.replicate level '=' ++ '[' :: rest := by
      simpa [longOpener] using hsource
    rw [longString_closed hcloser] at hvalue
    cases hvalue
    rfl
  case clean =>
    intro hclean
    rw [longString_clean hclean] at hvalue
    cases hvalue
    rfl
  case lost =>
    have hnested : ∀ b : Bool, (if b = true then [Flaw.nestedBrackets] else []).filter
        Flaw.isRepeat = [] := by decide
    have hclosed : ∀ b : Bool, (if b = true then [] else [Flaw.stringNotClosed]).filter
        Flaw.isRepeat = [] := by decide
    simp only [longString, List.filter_append, longStart_flaws_isRepeat, hnested, hclosed]
    rfl

theorem string_tells {head : Char} {text : List Char} (h : startsString head text = true) :
    ∃ value, (string head text).content = .token .string value ∧
      (string head text).TellsOf .string value (head :: text) := by
  unfold string
  split
  · rename_i hhead
    rw [hhead]
    exact longString_tells text
  · rename_i hhead
    refine quoted_tells ?_ text
    simpa [startsString, hhead] using h

/-- A piece stands for a token with the text that it should have, or it has no flaw that
belongs to a number. -/
theorem scan_tells (comments : Bool) (head : Char) (text : List Char) :
    (∃ kind value, (scan comments head text).content = .token kind value ∧
      (scan comments head text).TellsOf kind value (head :: text)) ∨
      ((∀ kind value, (scan comments head text).content ≠ .token kind value) ∧
        (scan comments head text).flaws.filter Flaw.isRepeat = []) := by
  unfold scan
  split
  · exact .inr ⟨fun kind value h => (by cases h), rfl⟩
  split
  · refine .inr ⟨fun kind value h => ?_, ?_⟩
    · rw [comment_content] at h
      cases h
    · rw [List.filter_eq_nil_iff]
      intro flaw hflaw
      rw [comment_flaws hflaw]
      decide
  split
  · refine .inl ⟨_, _, rfl, plain_tells ?_⟩
    split
    · exact .inr (.inl rfl)
    · exact .inl rfl
  split
  · rename_i hdigit
    exact .inl ⟨_, _, (number_faithful hdigit text).1, number_tells hdigit text _⟩
  split
  · rename_i hstring
    obtain ⟨value, hcontent, htells⟩ := string_tells hstring
    exact .inl ⟨_, value, hcontent, htells⟩
  · unfold symbol
    split
    · exact .inl ⟨_, _, rfl, plain_tells (.inr (.inr rfl))⟩
    · exact .inr ⟨fun kind value h => (by cases h), rfl⟩

end Piece

/-! ## Tokens of a source -/

/-- The diagnostic is about a mark that a number has already. -/
def Diagnostic.isRepeat (d : Diagnostic) : Bool :=
  d.message = "Decimal point occurs multiple times" || d.message = "Multiple exponents in number"

theorem isRepeat_message (line : Option Nat) (flaw : Flaw) :
    (⟨line, flaw.message⟩ : Diagnostic).isRepeat = flaw.isRepeat := by
  cases flaw with
  | strayCharacter c =>
    simp [Diagnostic.isRepeat, Flaw.isRepeat, Flaw.message, ← String.toList_inj]
  | _ => rfl

/-- A diagnostic for each character that a number loses, on the line of the number. -/
def Token.lostMarks (source : List Char) (t : Token) : List Diagnostic :=
  if t.kind = .number then
    (Piece.lostOfNumber (t.span.text source)).map fun flaw => ⟨some t.line, flaw.message⟩
  else []

/-- The text of a token is what it should be, given what it covers of a source. -/
def Token.Faithful (source : List Char) (t : Token) : Prop :=
  Piece.Faithful t.kind t.text.toList (t.span.text source) (source.drop t.position)

namespace Placed

variable {comments : Bool} {source : List Char} {p : Placed}

theorem filter_isRepeat_diagnostics (p : Placed) :
    p.diagnostics.filter Diagnostic.isRepeat =
      (p.piece.flaws.filter Flaw.isRepeat).map fun flaw => ⟨some p.spot.line, flaw.message⟩ := by
  rw [diagnostics, List.filter_map]
  congr 1
  exact List.filter_congr fun flaw _ => isRepeat_message _ flaw

/-- What is known of the token that a placed piece stands for. -/
theorem token_tells {t : Token} (hp : p ∈ placedPieces comments source) (ht : p.token? = some t) :
    t.Faithful source ∧ (p.diagnostics = [] → t.text.toList = t.span.text source) ∧
      p.diagnostics.filter Diagnostic.isRepeat = t.lostMarks source := by
  have hcovered : t.span.text source = p.piece.source := by
    rw [(token?_eq_some ht).1]
    exact (stands_of_mem hp).text_eq
  obtain ⟨front, c, cs, hsource, rfl⟩ := exists_scan_of_mem hp
  rcases Piece.scan_tells comments c cs with ⟨kind, value, hcontent, htells⟩ | ⟨hnone, -⟩
  · simp only [token?, hcontent, Option.some.injEq] at ht
    have hdrop : source.drop t.position = c :: cs := by
      rw [← ht, hsource]
      exact drop_past front (c :: cs)
    have htext : t.text.toList = value := by
      rw [← ht]
      exact String.toList_ofList
    have hkind : t.kind = kind := by rw [← ht]
    have hline : t.line = (Spot.start.past front).line := by rw [← ht]
    refine ⟨?_, fun hclean => ?_, ?_⟩
    · rw [Token.Faithful, hkind, htext, hcovered, hdrop]
      exact htells.faithful
    · rw [htext, hcovered]
      exact htells.clean (List.map_eq_nil_iff.mp hclean)
    · rw [filter_isRepeat_diagnostics, htells.lost, Token.lostMarks, hkind, hcovered, hline]
      split <;> rfl
  · obtain ⟨-, kind, value, hcontent⟩ := token?_eq_some ht
    exact absurd hcontent (hnone kind value)

theorem filter_isRepeat_of_token? (hp : p ∈ placedPieces comments source) :
    p.diagnostics.filter Diagnostic.isRepeat =
      p.token?.toList.flatMap (Token.lostMarks source) := by
  cases ht : p.token? with
  | some t =>
    rw [(token_tells hp ht).2.2]
    simp
  | none =>
    rw [filter_isRepeat_diagnostics]
    obtain ⟨front, c, cs, -, rfl⟩ := exists_scan_of_mem hp
    rcases Piece.scan_tells comments c cs with ⟨kind, value, hcontent, -⟩ | ⟨-, hflaws⟩
    · simp [token?, hcontent] at ht
    · simp [hflaws]

end Placed

/-- **Faithful texts.** The text of every token is what it covers of the source, but for the
repairs: a number loses its repeated marks, each with a diagnostic, and a quoted string that
is not closed gets its quote. So without a diagnostic every token has the text that it
covers. -/
theorem lex_faithful (comments : Bool) (source : List Char) :
    (∀ t ∈ (lex comments source).tokens, t.Faithful source) ∧
      (lex comments source).diagnostics.filter Diagnostic.isRepeat =
        (lex comments source).tokens.flatMap (Token.lostMarks source) ∧
      ((lex comments source).diagnostics = [] →
        ∀ t ∈ (lex comments source).tokens, t.text.toList = t.span.text source) := by
  refine ⟨fun t ht => ?_, ?_, fun hclean t ht => ?_⟩
  · obtain ⟨p, hp, htoken⟩ := List.mem_filterMap.mp ht
    exact (Placed.token_tells hp htoken).1
  · rw [lex_diagnostics, lex_tokens, List.filter_flatMap, List.filterMap_eq_flatMap_toList,
      List.flatMap_assoc]
    exact List.flatMap_congr fun p hp => Placed.filter_isRepeat_of_token? hp
  · obtain ⟨p, hp, htoken⟩ := List.mem_filterMap.mp ht
    refine (Placed.token_tells hp htoken).2.1 ?_
    rw [lex_diagnostics, List.flatMap_eq_nil_iff] at hclean
    exact hclean p hp

end LuaChecker
