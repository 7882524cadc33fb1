import LuaChecker.Grammar.Statement

/-!
# What a parse sees of the tokens

A parse looks at the kinds and the texts of the tokens to come and reads them one by one; it
never asks where they stand. The predicates here say so of functions on cursors, and the
lemmas show it of those from which the looks and the moves of the grammar are made.

* `ByWords`: the value depends only on the kinds and the texts of the tokens to come;
* `Attempt`: the current token is read or left, and this depends only on them, too.
-/

namespace LuaChecker

/-- What is left of a token without its place. -/
def Token.word (t : Token) : Kind × String := (t.kind, t.text)

namespace Cursor

/-- The kinds and the texts of the tokens left. -/
def words (c : Cursor) : List (Kind × String) := c.tokens.map Token.word

theorem text?_eq (c : Cursor) : c.text? = c.words.head?.map (·.2) := by
  simp [text?, current?, words, Function.comp_def, Token.word]

theorem kind?_eq (c : Cursor) : c.kind? = c.words.head?.map (·.1) := by
  simp [kind?, current?, words, Function.comp_def, Token.word]

theorem atEnd_eq (c : Cursor) : c.atEnd = c.words.isEmpty := by
  simp [atEnd, words]

end Cursor

namespace Grammar

variable {α β : Type}

/-- The function asks for nothing but the words of the tokens to come. -/
def ByWords (f : Cursor → α) : Prop :=
  ∀ ⦃c d : Cursor⦄, c.words = d.words → f c = f d

/-- The function reads the current token or leaves it, and asks for nothing but words. -/
structure Attempt (f : Cursor → α × Cursor) : Prop where
  value : ByWords fun c => (f c).1
  reads : ∃ wanted : Cursor → Bool, ByWords wanted ∧
    ∀ c, (f c).2 = if wanted c then c.advance else c

theorem Attempt.rest {f : Cursor → α × Cursor} (h : Attempt f) (c : Cursor) :
    (f c).2 = c ∨ (f c).2 = c.advance := by
  obtain ⟨wanted, -, hreads⟩ := h.reads
  rw [hreads c]
  cases wanted c with
  | true => exact .inr rfl
  | false => exact .inl rfl

/-! ## Looking -/

theorem ByWords.comp {f : Cursor → α} (h : ByWords f) (g : α → β) : ByWords fun c => g (f c) :=
  fun _ _ hwords => congrArg g (h hwords)

theorem ByWords.comp₂ {γ : Type} {f : Cursor → α} {g : Cursor → β} (hf : ByWords f)
    (hg : ByWords g) (op : α → β → γ) : ByWords fun c => op (f c) (g c) := by
  intro c d h
  exact congr (congrArg op (hf h)) (hg h)

theorem byWords_text? : ByWords Cursor.text? := by
  intro c d h
  rw [c.text?_eq, d.text?_eq, h]

theorem byWords_kind? : ByWords Cursor.kind? := by
  intro c d h
  rw [c.kind?_eq, d.kind?_eq, h]

theorem byWords_atEnd : ByWords Cursor.atEnd := by
  intro c d h
  rw [c.atEnd_eq, d.atEnd_eq, h]

theorem byWords_describe : ByWords Cursor.describe :=
  byWords_text?.comp (·.getD "EOF")

theorem byWords_sees (text : String) : ByWords (·.sees text) :=
  byWords_text?.comp fun found => decide (found = some text)

theorem byWords_seesAny (texts : List String) : ByWords (·.seesAny texts) := by
  intro c d h
  simp only [Cursor.seesAny, byWords_text? h]

theorem byWords_seesKind (kind : Kind) : ByWords (·.seesKind kind) :=
  byWords_kind?.comp fun found => decide (found = some kind)

theorem startsSuffix_of_word {t u : Option Token} (h : t.map Token.word = u.map Token.word) :
    startsSuffix t = startsSuffix u := by
  cases t with
  | none =>
    cases u with
    | none => rfl
    | some u => cases h
  | some t =>
    cases u with
    | none => cases h
    | some u =>
      obtain ⟨hkind, htext⟩ := Prod.mk.inj (Option.some.inj h)
      simp only [startsSuffix, hkind, htext]

theorem current?_map_word (c : Cursor) : c.current?.map Token.word = c.words.head? := by
  simp [Cursor.current?, Cursor.words]

theorem next?_map_word (c : Cursor) : c.next?.map Token.word = c.words[1]? := by
  simp [Cursor.next?, Cursor.peek?, Cursor.words]

theorem byWords_suffixNow : ByWords fun c => startsSuffix c.current? := by
  intro c d h
  exact startsSuffix_of_word (by rw [current?_map_word, current?_map_word, h])

theorem byWords_suffixNext : ByWords fun c => startsSuffix c.next? := by
  intro c d h
  exact startsSuffix_of_word (by rw [next?_map_word, next?_map_word, h])

theorem byWords_nextText : ByWords fun c => c.next?.map (·.text) := by
  have hnext (c : Cursor) : c.next?.map (·.text) = c.words[1]?.map (·.2) := by
    rw [← next?_map_word, Option.map_map]
    rfl
  intro c d h
  simp only [hnext, h]

theorem byWords_seesTarget : ByWords seesTarget := by
  have hseen (c : Cursor) :
      (c.next?.map (·.text)).any (fun text => text = "," || text = "=") = seesTarget c := by
    unfold seesTarget
    cases c.next? with
    | none => rfl
    | some t => rfl
  intro c d h
  rw [← hseen c, ← hseen d]
  exact byWords_nextText.comp (·.any fun text => text = "," || text = "=") h

theorem byWords_seesNamedField : ByWords seesNamedField :=
  (byWords_seesKind .name).comp₂ byWords_nextText fun found text => found && text = some "="

theorem byWords_seesCall : ByWords fun c => c.seesAny callStarts || c.seesKind .string :=
  (byWords_seesAny callStarts).comp₂ (byWords_seesKind .string) (· || ·)

theorem byWords_seesValues (closers : List Closer) : ByWords (seesValues closers) :=
  (byWords_atEnd.comp₂ (byWords_seesAny (closers.map Closer.text)) (!· && !·)).comp₂
    (byWords_sees ";") (· && !·)

/-! ## Reading -/

theorem attempt_advance : Attempt fun c => ((), c.advance) :=
  ⟨fun _ _ _ => rfl, fun _ => true, fun _ _ _ => rfl, fun _ => rfl⟩

theorem attempt_advanceIf {wanted : Cursor → Bool} (h : ByWords wanted) :
    Attempt fun c => c.advanceIf (wanted c) := by
  have hvalue (c : Cursor) : (c.advanceIf (wanted c)).1 = wanted c := by
    unfold Cursor.advanceIf
    cases wanted c <;> rfl
  refine ⟨fun c d hwords => ?_, wanted, h, fun c => ?_⟩
  · simp only [hvalue]
    exact h hwords
  · unfold Cursor.advanceIf
    cases wanted c <;> rfl

theorem attempt_accept (text : String) : Attempt (·.accept text) :=
  attempt_advanceIf (byWords_sees text)

theorem attempt_acceptAny (texts : List String) : Attempt (·.acceptAny texts) :=
  attempt_advanceIf (byWords_seesAny texts)

theorem attempt_acceptKind (kind : Kind) : Attempt (·.acceptKind kind) :=
  attempt_advanceIf (byWords_seesKind kind)

/-- The current token is read if something is found in it. -/
theorem attempt_of_find {find : Cursor → Option α} (h : ByWords find)
    {f : Cursor → Option α × Cursor}
    (hf : ∀ c, f c = (find c, if (find c).isSome then c.advance else c)) : Attempt f := by
  refine ⟨fun c d hwords => ?_, fun c => (find c).isSome, h.comp Option.isSome, fun c => ?_⟩
  · simp only [hf]
    exact h hwords
  · rw [hf]

theorem attempt_opener : Attempt fun c =>
    match c.text?.bind Opener.ofText? with
    | some word => (some word, c.advance)
    | none => (none, c) := by
  refine attempt_of_find (byWords_text?.comp (·.bind Opener.ofText?)) fun c => ?_
  cases c.text?.bind Opener.ofText? <;> rfl

theorem attempt_closer (closers : List Closer) : Attempt fun c =>
    match closers.find? fun word => c.sees word.text with
    | some word => (some word, c.advance)
    | none => (none, c) := by
  have hfind : ByWords fun c => closers.find? fun word => c.sees word.text :=
    byWords_text?.comp fun found => closers.find? fun word => found = some (Closer.text word)
  refine attempt_of_find hfind fun c => ?_
  cases closers.find? fun word => c.sees word.text <;> rfl

end Grammar

end LuaChecker
