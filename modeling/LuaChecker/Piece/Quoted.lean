import LuaChecker.Piece.Basic
import LuaChecker.Text.Blank

/-!
# Quoted strings

A quoted string runs to the next unescaped quote of its own kind. If there is none, it is
cut before the first white space after its opening quote, and its text gets the closing
quote that the source lacks. Its escapes are examined up to the closing quote or, if there
is none, up to the end of the source.

* `extent_cons_escaped`, `extent_cons`: the recursion equations of `extent`;
* `quoted_tail_isPrefix`: a string covers characters at the start of the text.
-/

namespace LuaChecker.Piece

/-- Whether a character may follow a backslash in a quoted string. -/
def isEscape (c : Char) : Bool :=
  c.isDigit || ['a', 'b', 'f', 'n', 'r', 't', 'v', '\\', '"', '\'', '\n'].contains c

structure Extent where
  /-- The number of characters before the closing quote, or before the end of the text. -/
  length : Nat
  illegal : Nat
  closed : Bool
  deriving DecidableEq, Repr

namespace Extent

/-- The extent that starts one character earlier. -/
def longer (e : Extent) (illegal : Nat) : Extent :=
  ⟨e.length + 1, e.illegal + illegal, e.closed⟩

/-- The loop of `extent`, with the length and the number of illegal escapes so far. -/
def scan (quote : Char) : Bool → Nat → Nat → List Char → Extent
  | _, length, illegal, [] => ⟨length, illegal, false⟩
  | true, length, illegal, c :: cs =>
    scan quote false (length + 1) (if isEscape c then illegal else illegal + 1) cs
  | false, length, illegal, c :: cs =>
    if c = '\\' then scan quote true (length + 1) illegal cs
    else if c = quote then ⟨length, illegal, true⟩
    else scan quote false (length + 1) illegal cs

theorem scan_eq (quote : Char) (escaped : Bool) (length illegal : Nat) (text : List Char) :
    scan quote escaped length illegal text =
      ⟨length + (scan quote escaped 0 0 text).length,
        illegal + (scan quote escaped 0 0 text).illegal,
        (scan quote escaped 0 0 text).closed⟩ := by
  induction text generalizing escaped length illegal with
  | nil => cases escaped <;> simp [scan]
  | cons c cs ih =>
    cases escaped with
    | true =>
      simp only [scan]
      rw [ih, ih false (0 + 1)]
      split <;> simp <;> omega
    | false =>
      simp only [scan]
      split
      · rw [ih, ih true (0 + 1)]
        simp
        omega
      · split
        · simp
        · rw [ih, ih false (0 + 1)]
          simp
          omega

end Extent

/-- The extent of a string with this quote in the text behind its opening quote, or behind a
backslash if `escaped` says so. -/
def extent (quote : Char) (escaped : Bool) (text : List Char) : Extent :=
  Extent.scan quote escaped 0 0 text

@[simp] theorem extent_nil (quote : Char) (escaped : Bool) :
    extent quote escaped [] = ⟨0, 0, false⟩ := by
  cases escaped <;> rfl

theorem extent_cons_escaped (quote c : Char) (cs : List Char) :
    extent quote true (c :: cs) =
      (extent quote false cs).longer (if isEscape c then 0 else 1) := by
  simp only [extent, Extent.scan, Extent.longer]
  rw [Extent.scan_eq]
  split <;> simp [Nat.add_comm]

theorem extent_cons (quote c : Char) (cs : List Char) :
    extent quote false (c :: cs) =
      if c = '\\' then (extent quote true cs).longer 0
      else if c = quote then ⟨0, 0, true⟩
      else (extent quote false cs).longer 0 := by
  simp only [extent, Extent.scan, Extent.longer]
  split
  · rw [Extent.scan_eq]
    simp [Nat.add_comm]
  · split
    · rfl
    · rw [Extent.scan_eq]
      simp [Nat.add_comm]

/-- The string that starts with the character `quote` and goes on in `text`. -/
def quoted (quote : Char) (text : List Char) : Piece :=
  let e := extent quote false text
  let escapes := List.replicate e.illegal Flaw.illegalEscape
  if e.closed then
    let tail := text.take (e.length + 1)
    ⟨quote, tail, .token .string (quote :: tail), escapes⟩
  else
    let kept := text.takeWhile (!Text.isBlank ·)
    ⟨quote, kept, .token .string (quote :: kept ++ [quote]), escapes ++ [.stringNotClosed]⟩

theorem quoted_tail_isPrefix (quote : Char) (text : List Char) :
    (quoted quote text).tail <+: text := by
  simp only [quoted]
  split
  · exact List.take_prefix _ _
  · exact List.takeWhile_prefix _

theorem quoted_head (quote : Char) (text : List Char) : (quoted quote text).head = quote := by
  simp only [quoted]
  split <;> rfl

end LuaChecker.Piece
