import LuaChecker.Token

/-!
# Cursors

A cursor stands in a list of tokens and sees those that are not yet read. At the end of the
input it sees nothing: there is no text, no kind and no line, and it stays where it is.
The number of tokens left is kept at hand, so that comparing two cursors costs nothing.

* `ext_tokens`: a cursor is determined by the tokens left;
* `size_advance`: reading a token leaves one less.
-/

namespace LuaChecker

/-- A place in a list of tokens. -/
structure Cursor where
  tokens : List Token
  size : Nat
  size_eq : size = tokens.length

namespace Cursor

/-- The cursor in front of a list of tokens. -/
def ofList (tokens : List Token) : Cursor :=
  ⟨tokens, tokens.length, rfl⟩

theorem ext_tokens {c d : Cursor} (h : c.tokens = d.tokens) : c = d := by
  obtain ⟨ts, n, hn⟩ := c
  obtain ⟨us, m, hm⟩ := d
  cases h
  cases hn
  cases hm
  rfl

/-! ## Looking -/

def current? (c : Cursor) : Option Token := c.tokens.head?

def peek? (c : Cursor) (distance : Nat) : Option Token := c.tokens[distance]?

def next? (c : Cursor) : Option Token := c.peek? 1

def text? (c : Cursor) : Option String := c.current?.map (·.text)

def kind? (c : Cursor) : Option Kind := c.current?.map (·.kind)

def line? (c : Cursor) : Option Nat := c.current?.map (·.line)

def atEnd (c : Cursor) : Bool := c.tokens.isEmpty

/-- The current token as a message names it. -/
def describe (c : Cursor) : String := c.text?.getD "EOF"

def sees (c : Cursor) (text : String) : Bool := c.text? = some text

def seesAny (c : Cursor) (texts : List String) : Bool :=
  match c.text? with
  | some text => texts.contains text
  | none => false

def seesKind (c : Cursor) (kind : Kind) : Bool := c.kind? = some kind

/-! ## Reading -/

def advance : Cursor → Cursor
  | ⟨[], n, h⟩ => ⟨[], n, h⟩
  | ⟨_ :: ts, n, h⟩ => ⟨ts, n - 1, by simp [h]⟩

def advanceIf (c : Cursor) (wanted : Bool) : Bool × Cursor :=
  if wanted then (true, c.advance) else (false, c)

def accept (c : Cursor) (text : String) : Bool × Cursor := c.advanceIf (c.sees text)

def acceptAny (c : Cursor) (texts : List String) : Bool × Cursor :=
  c.advanceIf (c.seesAny texts)

def acceptKind (c : Cursor) (kind : Kind) : Bool × Cursor := c.advanceIf (c.seesKind kind)

/-- Gives the current token another text and kind; its place stays. -/
def respell : Cursor → String → Kind → Cursor
  | ⟨[], n, h⟩, _, _ => ⟨[], n, h⟩
  | ⟨t :: ts, n, h⟩, text, kind => ⟨{ t with text := text, kind := kind } :: ts, n, h⟩

@[simp] theorem tokens_advance (c : Cursor) : c.advance.tokens = c.tokens.tail := by
  obtain ⟨ts, n, h⟩ := c
  cases ts <;> rfl

theorem size_advance (c : Cursor) : c.advance.size = c.size - 1 := by
  rw [c.advance.size_eq, c.size_eq]
  simp

@[simp] theorem size_respell (c : Cursor) (text : String) (kind : Kind) :
    (c.respell text kind).size = c.size := by
  obtain ⟨ts, n, h⟩ := c
  cases ts <;> rfl

end Cursor

end LuaChecker
