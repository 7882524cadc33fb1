import LuaChecker.Grammar.Ledger
import LuaChecker.Proofs.Lexing.Contract
import LuaChecker.Proofs.Parsing.Invariant
import Mathlib.Data.String.Basic

/-!
# Labels of functions without a name

A function without a name is called by its number and by the line of its header. The number
comes first and a blank ends it, so functions with different numbers have different labels. No
token of a source starts like a label, and neither does a name that is put together from
tokens with points and a colon, however malformed the source is. So functions with a name
and functions without one are never mixed up.

* `number_of_label`: the number in a label can be read off it;
* `Inherited`, `program_names`: what holds of all tokens holds of the names of all functions;
* `inherited_notLabel`, `inherited_notLooksAnonymous`: this is so of not being a label, and of
  not starting like one.
-/

namespace LuaChecker

/-! ## Tokens as the lexer yields them -/

/-- The kind and the text of a token are as the lexer yields them. -/
structure Token.IsLexed (t : Token) : Prop extends t.IsLexical where
  number : t.kind = .number → Piece.IsNumber t.text.toList
  string : t.kind = .string → Piece.IsString t.text.toList

theorem Token.isLexed_of_wellFormed {t : Token} {source after : List Char}
    (h : Piece.WellFormed t.kind t.text source after) : t.IsLexed where
  toIsLexical := Token.isLexical_of_wellFormed h
  number := h.number
  string := h.string

theorem lex_isLexed (comments : Bool) (source : List Char) :
    ∀ t ∈ (lex comments source).tokens, t.IsLexed := by
  intro t ht
  obtain ⟨p, hp, htoken⟩ := List.mem_filterMap.mp ht
  exact Token.isLexed_of_wellFormed (Placed.wellFormed_of_token? hp htoken)

namespace Grammar

/-- What labels start with. -/
def labelStart : List Char := "Unnamed function ".toList

/-- The text starts like the label of a function without a name. -/
def LooksAnonymous (text : String) : Prop := labelStart <+: text.toList

theorem LooksAnonymous.blank_mem {text : String} (h : LooksAnonymous text) :
    ' ' ∈ text.toList :=
  h.subset (by decide)

theorem LooksAnonymous.head {text : String} (h : LooksAnonymous text) :
    text.toList.head? = some 'U' := by
  obtain ⟨rest, hrest⟩ := h
  rw [← hrest]
  rfl

theorem not_looksAnonymous_empty : ¬ LooksAnonymous "" := by
  intro h
  cases h.head

theorem fixedTexts_not_looksAnonymous : ∀ s ∈ fixedTexts, ¬ LooksAnonymous s := by
  have hblank : ∀ s ∈ fixedTexts, ' ' ∉ s.toList := by decide
  exact fun s hs h => hblank s hs h.blank_mem

theorem not_looksAnonymous_of_identifier {text : String} (h : isIdentifier text = true) :
    ¬ LooksAnonymous text := by
  intro hlooks
  have hblank := hlooks.blank_mem
  unfold isIdentifier at h
  split at h
  · rename_i c cs hchars
    rw [hchars, List.mem_cons] at hblank
    rw [Bool.and_eq_true, List.all_eq_true] at h
    rcases hblank with rfl | hmem
    · exact absurd h.1 (by decide)
    · exact absurd (h.2 ' ' hmem) (by decide)
  · cases h

/-- Names and fixed words have no blank, a number starts with a digit, and a string starts
with a quote or a bracket. -/
theorem not_looksAnonymous_of_isLexed {t : Token} (ht : t.IsLexed) : ¬ LooksAnonymous t.text := by
  intro hlooks
  cases hkind : t.kind with
  | name => exact not_looksAnonymous_of_identifier (ht.name hkind) hlooks
  | keyword =>
    exact fixedTexts_not_looksAnonymous _ (List.mem_append_left _ (ht.keyword hkind)) hlooks
  | symbol =>
    exact fixedTexts_not_looksAnonymous _ (List.mem_append_right _ (ht.symbol hkind)) hlooks
  | invalid => exact ht.valid hkind
  | number =>
    obtain ⟨c, hc, hdigit⟩ := (ht.number hkind).first
    rw [hlooks.head] at hc
    cases hc
    exact absurd hdigit (by decide)
  | string =>
    have hhead := hlooks.head
    have hstring := ht.string hkind
    generalize t.text.toList = chars at hhead hstring
    cases hstring with
    | quoted hquote inner =>
      cases hhead
      rcases hquote with hquote | hquote
      · cases hquote
      · cases hquote
    | long level inner => cases hhead

/-! ## Labels -/

/-- A label up to the blank behind its number. -/
def labelStem (number : Nat) : List Char := labelStart ++ ((toString number).toList ++ [' '])

theorem toList_anonymousLabel (number : Nat) (line : Option Nat) :
    (Ledger.anonymousLabel number line).toList =
      labelStem number ++ ("on line " ++ Ledger.lineText line).toList := by
  have hblank : " on line ".toList = [' '] ++ "on line ".toList := rfl
  unfold Ledger.anonymousLabel labelStem labelStart
  generalize "Unnamed function " = start
  rw [String.toList_append, String.toList_append, String.toList_append, hblank]
  simp only [String.toList_append, List.append_assoc]

theorem labelStart_isPrefix (number : Nat) : labelStart <+: labelStem number :=
  List.prefix_append _ _

theorem isDigit_of_mem_toString {number : Nat} {c : Char} (h : c ∈ (toString number).toList) :
    c.isDigit = true := by
  have hmem : c ∈ Nat.toDigits 10 number := by
    simpa [Nat.toString_eq_ofList_toDigits] using h
  exact Nat.isDigit_of_mem_toDigits (by decide) (by decide) hmem

theorem toString_nat_inj {m n : Nat} (h : (toString m).toList = (toString n).toList) : m = n := by
  have hdigits : Nat.toDigits 10 m = Nat.toDigits 10 n := by
    simpa [Nat.toString_eq_ofList_toDigits] using h
  have hnumbers := congrArg (fun digits => Nat.ofDigitChars 10 digits 0) hdigits
  simpa using hnumbers

theorem takeWhile_toString_append (number : Nat) (rest : List Char) :
    ((toString number).toList ++ ' ' :: rest).takeWhile Char.isDigit =
      (toString number).toList := by
  rw [List.takeWhile_append_of_pos fun c hc => isDigit_of_mem_toString hc]
  exact List.append_nil _

/-- The number in a label can be read off it. -/
theorem number_eq_of_isPrefix {m n : Nat} {rest : List Char}
    (h : labelStem m <+: labelStem n ++ rest) : m = n := by
  unfold labelStem at h
  rw [List.append_assoc, List.prefix_append_right_inj, List.append_assoc] at h
  obtain ⟨more, hmore⟩ := h
  have hdigits := congrArg (List.takeWhile Char.isDigit) hmore
  rw [List.append_assoc, List.singleton_append, List.singleton_append,
    takeWhile_toString_append, takeWhile_toString_append] at hdigits
  exact toString_nat_inj hdigits

theorem number_of_label {m n : Nat} {line line' : Option Nat}
    (h : Ledger.anonymousLabel m line = Ledger.anonymousLabel n line') : m = n := by
  have hprefix : labelStem m <+: labelStem n ++ ("on line " ++ Ledger.lineText line').toList := by
    rw [← toList_anonymousLabel, ← h, toList_anonymousLabel]
    exact List.prefix_append _ _
  exact number_eq_of_isPrefix hprefix

theorem looksAnonymous_label (number : Nat) (line : Option Nat) :
    LooksAnonymous (Ledger.anonymousLabel number line) := by
  rw [LooksAnonymous, toList_anonymousLabel]
  exact (labelStart_isPrefix number).trans (List.prefix_append _ _)

/-- The text is the label of a function without a name. -/
def IsLabel (text : String) : Prop :=
  ∃ number line, text = Ledger.anonymousLabel number line

theorem IsLabel.looksAnonymous {text : String} (h : IsLabel text) : LooksAnonymous text := by
  obtain ⟨number, line, rfl⟩ := h
  exact looksAnonymous_label number line

/-- The characters of labels that are not digits. -/
def labelWords : List Char := labelStart ++ ("on line ".toList ++ "EOF".toList)

theorem IsLabel.mem {text : String} (h : IsLabel text) {c : Char} (hc : c ∈ text.toList) :
    c.isDigit = true ∨ c ∈ labelWords := by
  obtain ⟨number, line, rfl⟩ := h
  rw [toList_anonymousLabel, labelStem, String.toList_append] at hc
  simp only [List.mem_append, List.mem_singleton] at hc
  rcases hc with (hc | hc | rfl) | hc | hc
  · exact .inr (List.mem_append_left _ hc)
  · exact .inl (isDigit_of_mem_toString hc)
  · exact .inr (by decide)
  · exact .inr (List.mem_append_right _ (List.mem_append_left _ hc))
  · cases line with
    | some line => exact .inl (isDigit_of_mem_toString hc)
    | none => exact .inr (List.mem_append_right _ (List.mem_append_right _ hc))

/-! ## Names of functions -/

open Parse

/-- A property of texts that the names of functions have if the tokens have it that they are
put together from. -/
structure Inherited (P : String → Prop) : Prop where
  empty : P ""
  fixed : ∀ s ∈ fixedTexts, P s
  field : ∀ {path part}, P path → P part → P (path ++ "." ++ part)
  method : ∀ {path part}, P path → P part → P (path ++ ":" ++ part)

/-- The name has the property, if the event is a header. -/
def Event.NameIs (P : String → Prop) (e : Event) : Prop :=
  ∀ line name, e = .header line name → P name

/-- The tokens that are left have the property, and so have the names that are recorded. -/
structure TextsAre (P : String → Prop) (c : Cursor) (past : List Event) : Prop where
  tokens : ∀ t ∈ c.tokens, P t.text
  names : ∀ e ∈ past, e.NameIs P

variable {P : String → Prop} {c : Cursor} {past : List Event}

theorem TextsAre.advance (h : TextsAre P c past) : TextsAre P c.advance past := by
  refine ⟨fun t ht => h.tokens t ?_, h.names⟩
  rw [c.tokens_advance] at ht
  exact List.mem_of_mem_tail ht

theorem TextsAre.record (h : TextsAre P c past) {e : Event} (he : e.NameIs P) :
    TextsAre P c (past ++ [e]) := by
  refine ⟨h.tokens, fun e' hmem => ?_⟩
  rcases List.mem_append.mp hmem with hmem | hmem
  · exact h.names e' hmem
  · exact List.mem_singleton.mp hmem ▸ he

theorem TextsAre.respell (h : TextsAre P c past) (hP : Inherited P) (word : Opener) :
    TextsAre P (c.respell word.text .keyword) past := by
  refine ⟨fun t ht => ?_, h.names⟩
  obtain ⟨tokens, size, hsize⟩ := c
  cases tokens with
  | nil => cases ht
  | cons u us =>
    rcases List.mem_cons.mp ht with rfl | ht
    · exact hP.fixed word.text word.text_mem
    · exact h.tokens t (List.mem_cons_of_mem u ht)

theorem TextsAre.recordedAt (h : TextsAre P c past) (hP : Inherited P) {e : Event}
    (he : RecordedAt c e) : TextsAre P c (past ++ [e]) := by
  refine h.record fun line name heq => ?_
  cases he with
  | anonymous =>
    cases heq
    exact hP.empty
  | finding | headerLacks | parameters => cases heq

/-- The property goes from the tokens to the names that are recorded on the way. -/
theorem Inherited.kept (hP : Inherited P) : Kept (TextsAre P) := by
  constructor
  case advance => exact fun h => h.advance
  case respell => exact fun word h => h.respell hP word
  case record => exact fun he h => h.recordedAt hP he
  case named =>
    intro reader hnaming _
    have hspelled : Spelled (TextsAre P) P :=
      ⟨hP.empty, fun h => h.tokens, fun hpath => hP.field hpath, fun hpath => hP.method hpath⟩
    have hreader := hspelled.naming (fun h => h.advance) (fun he h => h.recordedAt hP he) hnaming
    refine triple_post hreader fun name c past h => h.1.record fun line other heq => ?_
    cases heq
    exact h.2

/-- The names of functions have a property that all tokens have. -/
theorem program_names (hP : Inherited P) (speller : Speller) {ts : List Token}
    (hts : ∀ t ∈ ts, P t.text) : ∀ e ∈ (program speller (.ofList ts)).events, e.NameIs P := by
  have hstart : TextsAre P (.ofList ts) [] := ⟨hts, by simp⟩
  obtain ⟨rest, htexts⟩ := program_keeps hP.kept speller hstart
  exact htexts.names

/-- What is put behind a point or a colon does not make a label of a name. -/
theorem not_looksAnonymous_append {path rest : String} (h : ¬ LooksAnonymous path)
    (separator : Char) (hseparator : separator ∉ labelStart) :
    ¬ LooksAnonymous (path ++ String.singleton separator ++ rest) := by
  intro hlooks
  have hwhole : labelStart <+: (path.toList ++ [separator]) ++ rest.toList := by
    simpa [LooksAnonymous] using hlooks
  rcases List.prefix_or_prefix_of_prefix hwhole (List.prefix_append _ _) with hshort | hlong
  · rcases List.prefix_concat_iff.mp hshort with heq | hpath
    · exact hseparator (heq ▸ List.mem_concat_self)
    · exact h hpath
  · exact hseparator (hlong.subset List.mem_concat_self)

theorem inherited_notLooksAnonymous : Inherited (¬ LooksAnonymous ·) where
  empty := not_looksAnonymous_empty
  fixed := fixedTexts_not_looksAnonymous
  field hpath _ := not_looksAnonymous_append hpath '.' (by decide)
  method hpath _ := not_looksAnonymous_append hpath ':' (by decide)

/-- No label has a point or a colon in it. -/
theorem not_isLabel_append {path rest : String} (separator : Char)
    (hdigit : separator.isDigit = false) (hseparator : separator ∉ labelWords) :
    ¬ IsLabel (path ++ String.singleton separator ++ rest) := by
  intro hlabel
  have hmem : separator ∈ (path ++ String.singleton separator ++ rest).toList := by simp
  rcases hlabel.mem hmem with h | h
  · cases hdigit.symm.trans h
  · exact hseparator h

theorem inherited_notLabel : Inherited (¬ IsLabel ·) where
  empty h := not_looksAnonymous_empty h.looksAnonymous
  fixed s hs h := fixedTexts_not_looksAnonymous s hs h.looksAnonymous
  field _ _ := not_isLabel_append '.' (by decide) (by decide)
  method _ _ := not_isLabel_append ':' (by decide) (by decide)

end Grammar

end LuaChecker
