import LuaChecker.Piece.Basic
import LuaChecker.Text.Blank
import LuaChecker.Text.Search

/-!
# Long brackets

A long bracket of level `n` opens with `[`, `n` signs `=` and `[`, and closes with `]`, `n`
signs `=` and `]`. The text of a long string always has this form; where the source does
not, the string is repaired:

* whatever stands between the first and the second `[` counts as signs `=`;
* if there is no second `[`, the level is the number of signs `=` found;
* if nothing closes the string, it is cut before the first white space.

`longString_tail_isPrefix` says that a long string covers characters at the start of the
text.
-/

namespace LuaChecker.Piece

def longOpener (level : Nat) : List Char :=
  '[' :: (List.replicate level '=' ++ ['['])

def longCloser (level : Nat) : List Char :=
  ']' :: (List.replicate level '=' ++ [']'])

structure LongStart where
  level : Nat
  /-- The number of characters of the opening after its first bracket. -/
  width : Nat
  flaws : List Flaw

/-- The opening of a long string, read from the text after its first bracket. -/
def longStart (text : List Char) : LongStart :=
  let fill := text.takeWhile (· ≠ '[')
  if fill.length < text.length then
    ⟨fill.length, fill.length + 1, if fill.all (· = '=') then [] else [.strayOpening]⟩
  else
    let level := (text.takeWhile (· = '=')).length
    ⟨level, level, [.missingOpening]⟩

/-- The long string whose first bracket is followed by `text`. -/
def longString (text : List Char) : Piece :=
  let start := longStart text
  let body := text.drop start.width
  let closed? := Text.before? (longCloser start.level) body
  let inner := closed?.getD (body.takeWhile (!Text.isBlank ·))
  let closing := if closed?.isSome then start.level + 2 else 0
  let nested := (Text.before? (longOpener start.level) inner).isSome
  ⟨'[', text.take (start.width + inner.length + closing),
    .token .string (longOpener start.level ++ inner ++ longCloser start.level),
    start.flaws ++ (if closed?.isSome then [] else [Flaw.stringNotClosed]) ++
      if nested then [Flaw.nestedBrackets] else []⟩

theorem longString_tail_isPrefix (text : List Char) : (longString text).tail <+: text :=
  List.take_prefix _ _

end LuaChecker.Piece
