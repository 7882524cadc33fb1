import LuaChecker.Piece.Basic
import LuaChecker.Text.Search

/-!
# Numbers

A number starts with a digit. After `0x` it takes hexadecimal digits; otherwise digits, at
most one decimal point, at most one exponent mark, and a sign right after that mark. A
further point or exponent mark belongs to the characters covered, but not to the text of
the number.

* `number_tail_isPrefix`: a number covers characters at the start of the text.
-/

namespace LuaChecker.Piece

namespace Number

/-- What a number has seen of itself. -/
structure State where
  point : Bool
  exponent : Bool
  /-- The last character was the exponent mark, so a sign may follow. -/
  signable : Bool

def State.initial : State := ⟨false, false, false⟩

/-- Whether a number goes on with a character; if so, the flaw for which the character is
left out of its text. -/
def step (s : State) (c : Char) : Option (State × Option Flaw) :=
  if c = '+' ∨ c = '-' then
    if s.signable then some (⟨s.point, s.exponent, false⟩, none) else none
  else if c = '.' then
    some (⟨true, s.exponent, false⟩, if s.point then some .repeatedPoint else none)
  else if c = 'e' ∨ c = 'E' then
    some (⟨s.point, true, !s.exponent⟩, if s.exponent then some .repeatedExponent else none)
  else if c.isDigit then
    some (⟨s.point, s.exponent, false⟩, none)
  else none

end Number

def isHexDigit (c : Char) : Bool :=
  c.isDigit || ('a' ≤ c && c ≤ 'f') || ('A' ≤ c && c ≤ 'F')

/-- The decimal number that starts with the digit `head` and goes on in `text`. -/
def decimal (head : Char) (text : List Char) : Piece :=
  let marked := Text.stretch Number.step .initial text
  ⟨head, marked.map (·.1),
    .token .number (head :: (marked.filter (·.2.isNone)).map (·.1)),
    marked.filterMap (·.2)⟩

/-- The number that starts with the digit `head` and goes on in `text`. -/
def number (head : Char) (text : List Char) : Piece :=
  match head, text with
  | '0', 'x' :: rest => plain .number '0' ('x' :: rest.takeWhile isHexDigit)
  | _, _ => decimal head text

theorem number_tail_isPrefix (head : Char) (text : List Char) :
    (number head text).tail <+: text := by
  unfold number
  split
  · rename_i rest
    exact List.cons_prefix_cons.mpr ⟨rfl, List.takeWhile_prefix _⟩
  · exact Text.stretch_isPrefix _ _ _

theorem number_head (head : Char) (text : List Char) : (number head text).head = head := by
  unfold number
  split <;> rfl

end LuaChecker.Piece
