import LuaChecker.Piece.Scan
import LuaChecker.Proofs.Lexing.Comment
import LuaChecker.Proofs.Lexing.Number
import LuaChecker.Proofs.Syntax.Lexical

/-!
# What a piece accounts for

A piece is a blank, a comment, a token or a character that starts no token, and its flaws
say the last and nothing else does. The characters that a token covers are as many as its
text has, plus those that were left out of the text, minus those that were made up for it.

* `symbol?_none`: a character that is no blank, and for which no scanner is found, starts no
  token;
* `number_isToken`, `quoted_isToken`, `longString_isToken`: the width of a token by its text
  and its repairs;
* `scan_accounts`: every piece that is read accounts for its characters.
-/

namespace LuaChecker

/-- The character that a flaw reports as one that starts no token. -/
def Flaw.stray? : Flaw → Option Char
  | .strayCharacter c => some c
  | _ => none

/-- By how many characters a token gets wider than its text through a repair. The closing
of a string is as long as given. -/
def Flaw.surplus (closing : Nat) : Flaw → Int
  | .repeatedPoint | .repeatedExponent => 1
  | .missingOpening => -1
  | .stringNotClosed => -closing
  | _ => 0

/-- By how many characters a token gets wider than its text through repairs. -/
def surplus (closing : Nat) : List Flaw → Int
  | [] => 0
  | flaw :: flaws => flaw.surplus closing + surplus closing flaws

@[simp] theorem surplus_nil (closing : Nat) : surplus closing [] = 0 := rfl

@[simp] theorem surplus_cons (closing : Nat) (flaw : Flaw) (flaws : List Flaw) :
    surplus closing (flaw :: flaws) = flaw.surplus closing + surplus closing flaws := rfl

@[simp] theorem surplus_append (closing : Nat) (first second : List Flaw) :
    surplus closing (first ++ second) = surplus closing first + surplus closing second := by
  induction first with
  | nil => simp
  | cons flaw flaws ih =>
    simp only [List.cons_append, surplus_cons, ih]
    omega

namespace Piece

/-- The number of characters that close the string with this text. -/
def closingLength : List Char → Nat
  | '[' :: text => (text.takeWhile (· = '=')).length + 2
  | _ => 1

def StartsToken (text : List Char) : Prop :=
  (∃ c ∈ text.head?, isNameStart c = true ∨ c.isDigit = true ∨ c = '"' ∨ c = '\'') ∨
    ∃ s ∈ symbols, s.toList <+: text

/-- A piece is a token, as wide as its text and its repairs make it. -/
structure IsToken (p : Piece) (kind : Kind) (text : List Char) : Prop where
  content : p.content = .token kind text
  width : (p.width : Int) =
    text.length + surplus (closingLength text) p.flaws
  flaws : ∀ flaw ∈ p.flaws, flaw.stray? = none

/-- What a piece says of its characters is so, given whether comments are skipped and what
follows the piece. -/
inductive Accounts (comments : Bool) : Piece → List Char → Prop
  | blank {c : Char} {after : List Char} (hblank : Text.isBlank c = true) :
      Accounts comments ⟨c, [], .blank, []⟩ after
  | comment {p : Piece} {after : List Char} (hon : comments = true)
      (hcontent : p.content = .comment) (hshape : IsComment p.source after)
      (hflaws : ∀ flaw ∈ p.flaws, flaw.stray? = none) : Accounts comments p after
  | stray {c : Char} {after : List Char} (hblank : Text.isBlank c = false)
      (hstarts : ¬ StartsToken (c :: after)) :
      Accounts comments ⟨c, [], .stray, [.strayCharacter c]⟩ after
  | token {p : Piece} {after : List Char} {kind : Kind} {text : List Char}
      (htoken : p.IsToken kind text) : Accounts comments p after

namespace Accounts

variable {comments : Bool} {p : Piece} {after : List Char}

theorem of_blank (h : p.Accounts comments after) (hcontent : p.content = .blank) :
    p.tail = [] ∧ Text.isBlank p.head = true := by
  cases h with
  | blank hblank => exact ⟨rfl, hblank⟩
  | comment hon hcomment hshape hflaws =>
    rw [hcomment] at hcontent
    cases hcontent
  | stray hblank hstarts => cases hcontent
  | token htoken =>
    rw [htoken.content] at hcontent
    cases hcontent

theorem of_comment (h : p.Accounts comments after) (hcontent : p.content = .comment) :
    comments = true ∧ IsComment p.source after := by
  cases h with
  | blank hblank => cases hcontent
  | comment hon hcomment hshape hflaws => exact ⟨hon, hshape⟩
  | stray hblank hstarts => cases hcontent
  | token htoken =>
    rw [htoken.content] at hcontent
    cases hcontent

theorem of_stray (h : p.Accounts comments after) (hcontent : p.content = .stray) :
    p.tail = [] ∧ p.flaws = [.strayCharacter p.head] ∧ Text.isBlank p.head = false ∧
      ¬ StartsToken (p.head :: after) := by
  cases h with
  | blank hblank => cases hcontent
  | comment hon hcomment hshape hflaws =>
    rw [hcomment] at hcontent
    cases hcontent
  | stray hblank hstarts => exact ⟨rfl, rfl, hblank, hstarts⟩
  | token htoken =>
    rw [htoken.content] at hcontent
    cases hcontent

theorem flaws_of_ne (h : p.Accounts comments after) (hcontent : p.content ≠ .stray) :
    ∀ flaw ∈ p.flaws, flaw.stray? = none := by
  cases h with
  | blank hblank =>
    intro flaw hflaw
    cases hflaw
  | comment hon hcomment hshape hflaws => exact hflaws
  | stray hblank hstarts => exact absurd rfl hcontent
  | token htoken => exact htoken.flaws

end Accounts

variable {comments : Bool} {head : Char} {text : List Char}

/-! ## Tokens without repairs -/

theorem plain_isToken (kind : Kind) (head : Char) (tail : List Char) :
    (plain kind head tail).IsToken kind (head :: tail) where
  content := rfl
  width := by simp [plain, width]
  flaws := by simp [plain]

theorem word_isToken (head : Char) (text : List Char) :
    ∃ kind, (word head text).IsToken kind (head :: text.takeWhile isNamePart) :=
  ⟨_, plain_isToken _ head _⟩

/-! ## Numbers -/

theorem mem_stretch {σ β : Type} {step : σ → Char → Option (σ × β)} {s : σ} {text : List Char}
    {c : Char} {mark : β} (h : (c, mark) ∈ Text.stretch step s text) :
    ∃ from' into, step from' c = some (into, mark) := by
  induction text generalizing s with
  | nil => cases h
  | cons d ds ih =>
    rw [Text.stretch_cons] at h
    cases hstep : step s d with
    | none =>
      rw [hstep] at h
      cases h
    | some r =>
      rw [hstep] at h
      rcases List.mem_cons.mp h with heq | hlater
      · cases heq
        exact ⟨s, r.1, hstep⟩
      · exact ih hlater

theorem step_flaw {s s' : Number.State} {c : Char} {flaw : Flaw}
    (h : Number.step s c = some (s', some flaw)) :
    flaw = .repeatedPoint ∨ flaw = .repeatedExponent := by
  cases follows_of_step h with
  | repeatedPoint _ => exact .inl rfl
  | repeatedExponent _ _ => exact .inr rfl

/-- What is marked is left out, and there is one flaw for each such character. -/
theorem length_marked (closing : Nat) (marked : List (Char × Option Flaw))
    (h : ∀ m ∈ marked, ∀ flaw, m.2 = some flaw → flaw.surplus closing = 1) :
    (marked.length : Int) = (marked.filter (·.2.isNone)).length +
      surplus closing (marked.filterMap (·.2)) := by
  induction marked with
  | nil => rfl
  | cons m ms ih =>
    have hms := ih fun m' hm' => h m' (List.mem_cons_of_mem m hm')
    obtain ⟨c, mark⟩ := m
    cases mark with
    | none =>
      simp only [List.length_cons, Option.isNone_none, List.filter_cons_of_pos,
        List.filterMap_cons_none]
      omega
    | some flaw =>
      have hone := h (c, some flaw) List.mem_cons_self flaw rfl
      have hflaws : ((c, some flaw) :: ms).filterMap (·.2) = flaw :: ms.filterMap (·.2) :=
        List.filterMap_cons_some rfl
      have hkept : ((c, some flaw) :: ms).filter (·.2.isNone) = ms.filter (·.2.isNone) :=
        List.filter_cons_of_neg (by simp)
      rw [hflaws, hkept, surplus_cons, hone, List.length_cons]
      omega

theorem decimal_isToken (head : Char) (text : List Char) :
    ∃ digits, (decimal head text).IsToken .number digits := by
  refine ⟨_, rfl, ?_, ?_⟩
  · have hmarks : ∀ m ∈ Text.stretch Number.step .initial text, ∀ flaw, m.2 = some flaw →
        ∀ closing, flaw.surplus closing = 1 := by
      intro m hm flaw hflaw closing
      obtain ⟨c, mark⟩ := m
      obtain ⟨s, s', hstep⟩ := mem_stretch hm
      cases hflaw
      rcases step_flaw hstep with rfl | rfl
      · rfl
      · rfl
    simp only [decimal, width, List.length_map, List.length_cons]
    have hlength := length_marked
      (closingLength (head :: ((Text.stretch Number.step .initial text).filter
        (·.2.isNone)).map (·.1))) _ fun m hm flaw hflaw => hmarks m hm flaw hflaw _
    omega
  · intro flaw hflaw
    obtain ⟨⟨c, mark⟩, hm, rfl⟩ := List.mem_filterMap.mp hflaw
    obtain ⟨s, s', hstep⟩ := mem_stretch hm
    rcases step_flaw hstep with rfl | rfl
    · rfl
    · rfl

theorem number_isToken (head : Char) (text : List Char) :
    ∃ digits, (number head text).IsToken .number digits := by
  unfold number
  split
  · exact ⟨_, plain_isToken .number '0' _⟩
  · exact decimal_isToken head text

/-! ## Strings -/

theorem surplus_illegalEscape (closing n : Nat) :
    surplus closing (List.replicate n Flaw.illegalEscape) = 0 := by
  induction n with
  | zero => rfl
  | succ n ih => simp [List.replicate_succ, Flaw.surplus, ih]

theorem quoted_isToken_closed {quote : Char} {text : List Char}
    (hclosed : (extent quote false text).closed = true) :
    (quoted quote text).IsToken .string
      (quote :: text.take ((extent quote false text).length + 1)) where
  content := by simp [quoted, hclosed]
  width := by
    simp only [quoted, hclosed, if_true, width, surplus_illegalEscape, List.length_cons]
    omega
  flaws := by
    intro flaw hflaw
    simp only [quoted, hclosed, if_true] at hflaw
    rw [List.eq_of_mem_replicate hflaw]
    rfl

/-- The quote that is put behind an open string is the surplus of its one flaw that has any. -/
theorem quoted_isToken_open {quote : Char} (hquote : quote ≠ '[') {text : List Char}
    (hopen : (extent quote false text).closed = false) :
    (quoted quote text).IsToken .string
      (quote :: text.takeWhile (!Text.isBlank ·) ++ [quote]) := by
  have hlength : closingLength (quote :: text.takeWhile (!Text.isBlank ·) ++ [quote]) = 1 := by
    unfold closingLength
    split
    · rename_i heq
      exact absurd (List.cons.inj heq).1 hquote
    · rfl
  constructor
  case content => simp [quoted, hopen]
  case width =>
    simp only [quoted, hopen, Bool.false_eq_true, if_false, width, hlength, surplus_append,
      surplus_illegalEscape, surplus_cons, surplus_nil, Flaw.surplus, List.length_append,
      List.length_cons, List.length_nil]
    omega
  case flaws =>
    intro flaw hflaw
    simp only [quoted, hopen, Bool.false_eq_true, if_false, List.mem_append,
      List.mem_singleton] at hflaw
    rcases hflaw with hescape | rfl
    · rw [List.eq_of_mem_replicate hescape]
      rfl
    · rfl

theorem quoted_isToken {quote : Char} (hquote : quote ≠ '[') (text : List Char) :
    ∃ value, (quoted quote text).IsToken .string value := by
  cases hextent : (extent quote false text).closed with
  | true => exact ⟨_, quoted_isToken_closed hextent⟩
  | false => exact ⟨_, quoted_isToken_open hquote hextent⟩

theorem longStart_width_le (text : List Char) : (longStart text).width ≤ text.length := by
  unfold longStart
  dsimp only
  split
  · rename_i h
    exact h
  · exact (List.takeWhile_prefix _).length_le

theorem longStart_width (closing : Nat) (text : List Char) :
    ((longStart text).width : Int) =
      (longStart text).level + 1 + surplus closing (longStart text).flaws := by
  unfold longStart
  dsimp only
  split
  · split
    · simp
    · simp [Flaw.surplus]
  · simp only [Flaw.surplus, surplus_cons, surplus_nil]
    omega

theorem longStart_flaws {text : List Char} {flaw : Flaw} (h : flaw ∈ (longStart text).flaws) :
    flaw.stray? = none := by
  unfold longStart at h
  dsimp only at h
  split at h
  · split at h
    · cases h
    · rw [List.mem_singleton.mp h]
      rfl
  · rw [List.mem_singleton.mp h]
    rfl

theorem length_longOpener (level : Nat) : (longOpener level).length = level + 2 := by
  simp [longOpener]

theorem length_longCloser (level : Nat) : (longCloser level).length = level + 2 := by
  simp [longCloser]

theorem closingLength_longOpener (level : Nat) (text : List Char) :
    closingLength (longOpener level ++ text) = level + 2 := by
  simp [closingLength, longOpener]

/-- The inside of a long string and what closes it are behind the opening. -/
theorem longString_inside_le (text : List Char) (level start : Nat) :
    ((Text.before? (longCloser level) (text.drop start)).getD
        ((text.drop start).takeWhile (!Text.isBlank ·))).length +
      (if (Text.before? (longCloser level) (text.drop start)).isSome then level + 2 else 0) ≤
        (text.drop start).length := by
  cases h : Text.before? (longCloser level) (text.drop start) with
  | none =>
    have hle := (List.takeWhile_prefix (l := text.drop start) (!Text.isBlank ·)).length_le
    simpa using hle
  | some inner =>
    have hle := (Text.before?_append h).length_le
    rw [List.length_append, length_longCloser] at hle
    simpa using hle

/-- No flaw of a long string stands for a character that is dropped. -/
theorem longString_flaws {text : List Char} {flaw : Flaw} (h : flaw ∈ (longString text).flaws) :
    flaw.stray? = none := by
  simp only [longString, List.mem_append] at h
  rcases h with (hstart | hclosed) | hnested
  · exact longStart_flaws hstart
  · split at hclosed
    · cases hclosed
    · rw [List.mem_singleton.mp hclosed]
      rfl
  · split at hnested
    · rw [List.mem_singleton.mp hnested]
      rfl
    · cases hnested

theorem longString_isToken (text : List Char) :
    ∃ value, (longString text).IsToken .string value := by
  refine ⟨_, rfl, ?_, fun flaw hflaw => longString_flaws hflaw⟩
  have hstart := longStart_width ((longStart text).level + 2) text
  have hstartLe := longStart_width_le text
  have hinside := longString_inside_le text (longStart text).level (longStart text).width
  rw [List.length_drop] at hinside
  simp only [longString, width, List.append_assoc, closingLength_longOpener,
    List.length_append, length_longOpener, length_longCloser, List.length_take,
    surplus_append]
  generalize Text.before? (longCloser (longStart text).level)
    (text.drop (longStart text).width) = closed? at hinside ⊢
  have hnested : ∀ b : Bool, surplus ((longStart text).level + 2)
      (if b = true then [Flaw.nestedBrackets] else []) = 0 := by
    intro b
    cases b <;> rfl
  rw [hnested]
  cases closed? with
  | none =>
    simp only [Option.getD_none, Option.isSome_none, Bool.false_eq_true, if_false,
      surplus_cons, surplus_nil, Flaw.surplus] at hinside ⊢
    omega
  | some inner =>
    simp only [Option.getD_some, Option.isSome_some, if_true, surplus_nil] at hinside ⊢
    omega

theorem string_isToken (head : Char) (text : List Char) :
    ∃ value, (string head text).IsToken .string value := by
  unfold string
  split
  · exact longString_isToken text
  · rename_i hquote
    exact quoted_isToken hquote text

/-! ## Symbols and characters that start no token -/

theorem symbol?_none (h : symbol? head text = none) (hname : isNameStart head = false)
    (hdigit : head.isDigit = false) (hstring : startsString head text = false) :
    ¬ StartsToken (head :: text) := by
  unfold symbol? at h
  split at h
  · cases h
  rename_i hsingle
  simp only [startsString, Bool.or_eq_false_iff, decide_eq_false_iff_not] at hstring
  rintro (⟨c, hc, hstart⟩ | ⟨s, hs, hfront⟩)
  · cases hc
    rw [hname, hdigit] at hstart
    rcases hstart with hn | hd | hq | hq
    · cases hn
    · cases hd
    · exact hstring.1.1 hq
    · exact hstring.1.2 hq
  · rcases List.mem_append.mp hs with hmem | hmem
    · obtain ⟨c, hc, rfl⟩ := List.mem_map.mp hmem
      rw [String.toList_singleton] at hfront
      obtain ⟨rfl, -⟩ := List.cons_prefix_cons.mp hfront
      exact hsingle (List.contains_iff_mem.mpr hc)
    · obtain ⟨l, hl, rfl⟩ := List.mem_map.mp hmem
      rw [String.toList_ofList] at hfront
      exact List.find?_eq_none.mp h l hl (List.isPrefixOf_iff_prefix.mpr hfront)

theorem symbol_accounts {after : List Char} (hblank : Text.isBlank head = false)
    (hname : isNameStart head = false) (hdigit : head.isDigit = false)
    (hstring : startsString head text = false)
    (hafter : after = text.drop (symbol head text).tail.length) :
    Accounts comments (symbol head text) after := by
  subst hafter
  unfold symbol
  split
  · exact Accounts.token (plain_isToken .symbol head _)
  · rename_i hnone
    exact Accounts.stray hblank (symbol?_none hnone hname hdigit hstring)

/-! ## Every piece -/

theorem scan_accounts (comments : Bool) (head : Char) (text : List Char) :
    Accounts comments (scan comments head text)
      (text.drop (scan comments head text).tail.length) := by
  unfold scan
  split
  · rename_i hblank
    exact Accounts.blank hblank
  rename_i hblank
  split
  · rename_i hcomment
    obtain ⟨hon, hstart⟩ := Bool.and_eq_true_iff.mp hcomment
    obtain ⟨-, rest, rfl⟩ := startsComment_iff.mp hstart
    refine Accounts.comment hon (comment_content _) (comment_isComment rest) ?_
    intro flaw hflaw
    rw [comment_flaws hflaw]
    rfl
  split
  · obtain ⟨kind, hword⟩ := word_isToken head text
    exact Accounts.token hword
  rename_i hname
  split
  · obtain ⟨digits, hnumber⟩ := number_isToken head text
    exact Accounts.token hnumber
  rename_i hdigit
  split
  · obtain ⟨value, hstring⟩ := string_isToken head text
    exact Accounts.token hstring
  · rename_i hstring
    exact symbol_accounts (by simpa using hblank) (by simpa using hname) (by simpa using hdigit)
      (by simpa using hstring) rfl

end Piece

end LuaChecker
