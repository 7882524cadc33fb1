import LuaChecker.Token

/-!
# Pieces of a source text

A source text is cut into pieces: single blanks, comments, tokens, and characters that
start no token. A piece knows the characters that it covers, what they stand for, and what
is wrong with them. It knows nothing of its place, so a scanner reads a text in the same
way wherever that text stands.
-/

namespace LuaChecker

/-- What can be wrong with the characters of a piece. -/
inductive Flaw
  | commentNotClosed
  | repeatedPoint
  | repeatedExponent
  | illegalEscape
  | stringNotClosed
  /-- A long bracket with something other than `=` in its opening. -/
  | strayOpening
  /-- A long bracket whose opening is never finished. -/
  | missingOpening
  | nestedBrackets
  /-- A character that starts no token. -/
  | strayCharacter (c : Char)
  deriving DecidableEq, Repr

def Flaw.message : Flaw → String
  | .commentNotClosed => "Comment not closed"
  | .repeatedPoint => "Decimal point occurs multiple times"
  | .repeatedExponent => "Multiple exponents in number"
  | .illegalEscape => "Illegal escape in string"
  | .stringNotClosed => "String not closed"
  | .strayOpening => "Symbols other than '=' between initial '['"
  | .missingOpening => "String does not have a second '[' symbol"
  | .nestedBrackets => "Long brackets are nested"
  | .strayCharacter c => "'" ++ String.singleton c ++ "' does not start a valid token"

/-- What the characters of a piece stand for. -/
inductive Content
  | blank
  | comment
  /-- A character that is dropped. -/
  | stray
  /-- A token with this text, which may differ from the characters covered. -/
  | token (kind : Kind) (text : List Char)
  deriving DecidableEq, Repr

/-- A piece of source text. It covers at least one character. -/
structure Piece where
  head : Char
  tail : List Char
  content : Content
  /-- What is wrong with the piece, in the order in which it is noticed. -/
  flaws : List Flaw
  deriving DecidableEq, Repr

namespace Piece

def source (p : Piece) : List Char :=
  p.head :: p.tail

def width (p : Piece) : Nat :=
  p.tail.length + 1

@[simp] theorem length_source (p : Piece) : p.source.length = p.width := rfl

theorem width_pos (p : Piece) : 0 < p.width := Nat.succ_pos _

/-- A piece that is a token with the very text that it covers. -/
def plain (kind : Kind) (head : Char) (tail : List Char) : Piece :=
  ⟨head, tail, .token kind (head :: tail), []⟩

end Piece

end LuaChecker
