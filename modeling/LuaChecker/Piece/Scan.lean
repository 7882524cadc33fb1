import LuaChecker.Piece.Comment
import LuaChecker.Piece.Number
import LuaChecker.Piece.Quoted

/-!
# Cutting a source text into pieces

`scan` reads one piece at the start of a text that is not empty, and `pieces` cuts a whole
text. Both go forward only: what a piece is depends on the text from its start on.

* `scan_head`, `scan_tail_isPrefix`: a piece covers characters at the start of the text;
* `pieces_cons`: the first piece of a text, then the pieces of what it leaves;
* `flatMap_source_pieces`: the pieces of a text make up the text.
-/

namespace LuaChecker.Piece

def isNameStart (c : Char) : Bool :=
  c.isAlpha || c = '_'

def isNamePart (c : Char) : Bool :=
  c.isAlphanum || c = '_'

/-- The name or reserved word that starts with `head` and goes on in `text`. -/
def word (head : Char) (text : List Char) : Piece :=
  let tail := text.takeWhile isNamePart
  plain (if isReserved (String.ofList (head :: tail)) then .keyword else .name) head tail

/-- The symbols that are the start of no other symbol. -/
def singleSymbols : List Char :=
  ['+', '-', '*', '/', '%', '^', '#', '(', ')', '\x7b', '\x7d', '[', ']', ';', ':', ',']

/-- The other symbols, each before those that it starts with. -/
def longSymbols : List (List Char) :=
  [['.', '.', '.'], ['.', '.'], ['.'], ['=', '='], ['~', '='], ['<', '='], ['='],
   ['>', '='], ['<'], ['>']]

/-- The longest symbol at the start of `head :: text`, if there is one. -/
def symbol? (head : Char) (text : List Char) : Option (List Char) :=
  if singleSymbols.contains head then some [head]
  else longSymbols.find? (·.isPrefixOf (head :: text))

/-- The symbol that starts with `head` and goes on in `text`, or a stray character. -/
def symbol (head : Char) (text : List Char) : Piece :=
  match symbol? head text with
  | some s => plain .symbol head (s.drop 1)
  | none => ⟨head, [], .stray, [.strayCharacter head]⟩

/-- Whether a string starts with `head` and goes on in `text`: a quote, or a bracket that
is followed by `=` or by another one. -/
def startsString (head : Char) (text : List Char) : Bool :=
  head = '"' || head = '\'' || (head = '[' && (text.head? = some '=' || text.head? = some '['))

/-- The string that starts with `head` and goes on in `text`. -/
def string (head : Char) (text : List Char) : Piece :=
  if head = '[' then longString text else quoted head text

def startsComment (head : Char) (text : List Char) : Bool :=
  head = '-' && text.head? = some '-'

/-- The piece at the start of the text `head :: text`. With `comments` on, a comment is one
piece; with it off, two dashes are symbols. -/
def scan (comments : Bool) (head : Char) (text : List Char) : Piece :=
  if Text.isBlank head then ⟨head, [], .blank, []⟩
  else if comments && startsComment head text then comment (text.drop 1)
  else if isNameStart head then word head text
  else if head.isDigit then number head text
  else if startsString head text then string head text
  else symbol head text

theorem symbol_head (head : Char) (text : List Char) : (symbol head text).head = head := by
  unfold symbol
  split <;> rfl

theorem symbol?_isPrefix {head : Char} {text s : List Char} (h : symbol? head text = some s) :
    s <+: head :: text := by
  unfold symbol? at h
  split at h
  · cases h
    exact List.cons_prefix_cons.mpr ⟨rfl, List.nil_prefix⟩
  · have hs : s.isPrefixOf (head :: text) = true :=
      List.find?_some (p := fun s : List Char => s.isPrefixOf (head :: text)) h
    exact List.isPrefixOf_iff_prefix.mp hs

theorem symbol_tail_isPrefix (head : Char) (text : List Char) :
    (symbol head text).tail <+: text := by
  unfold symbol
  split
  · rename_i s h
    have hs := symbol?_isPrefix h
    cases s with
    | nil => exact List.nil_prefix
    | cons d ds => exact (List.cons_prefix_cons.mp hs).2
  · exact List.nil_prefix

theorem string_head (head : Char) (text : List Char) : (string head text).head = head := by
  unfold string
  split
  · rename_i h
    exact h.symm
  · exact quoted_head head text

theorem string_tail_isPrefix (head : Char) (text : List Char) :
    (string head text).tail <+: text := by
  unfold string
  split
  · exact longString_tail_isPrefix text
  · exact quoted_tail_isPrefix head text

theorem startsComment_iff {head : Char} {text : List Char} :
    startsComment head text = true ↔ head = '-' ∧ ∃ rest, text = '-' :: rest := by
  cases text <;> simp [startsComment]

theorem comment_head (text : List Char) : (comment text).head = '-' := by
  unfold comment
  split
  · rfl
  · split <;> rfl

theorem scan_head (comments : Bool) (head : Char) (text : List Char) :
    (scan comments head text).head = head := by
  unfold scan
  split
  · rfl
  split
  · rename_i h
    rw [comment_head, (startsComment_iff.mp (Bool.and_eq_true_iff.mp h).2).1]
  split
  · rfl
  split
  · exact number_head head text
  split
  · exact string_head head text
  · exact symbol_head head text

theorem scan_tail_isPrefix (comments : Bool) (head : Char) (text : List Char) :
    (scan comments head text).tail <+: text := by
  unfold scan
  split
  · exact List.nil_prefix
  split
  · rename_i h
    obtain ⟨rest, rfl⟩ := (startsComment_iff.mp (Bool.and_eq_true_iff.mp h).2).2
    exact comment_tail_isPrefix rest
  split
  · exact List.takeWhile_prefix _
  split
  · exact number_tail_isPrefix head text
  split
  · exact string_tail_isPrefix head text
  · exact symbol_tail_isPrefix head text

/-- A piece covers the start of the text, and leaves what is dropped behind it. -/
theorem scan_source_append (comments : Bool) (head : Char) (text : List Char) :
    (scan comments head text).source ++ text.drop (scan comments head text).tail.length =
      head :: text := by
  have h := List.prefix_iff_eq_append.mp (scan_tail_isPrefix comments head text)
  simp only [source, scan_head, List.cons_append, h]

/-- The loop of `pieces`, with the pieces so far, the last one first. -/
def piecesOnto (comments : Bool) (acc : List Piece) : List Char → List Piece
  | [] => acc.reverse
  | c :: cs =>
    let p := scan comments c cs
    piecesOnto comments (p :: acc) (cs.drop p.tail.length)
  termination_by cs => cs.length
  decreasing_by simp only [List.length_drop, List.length_cons]; omega

def pieces (comments : Bool) (source : List Char) : List Piece :=
  piecesOnto comments [] source

@[simp] theorem pieces_nil (comments : Bool) : pieces comments [] = [] := by
  simp [pieces, piecesOnto]

theorem piecesOnto_eq (comments : Bool) (acc : List Piece) (source : List Char) :
    piecesOnto comments acc source = acc.reverse ++ pieces comments source := by
  induction hn : source.length using Nat.strongRecOn generalizing acc source with
  | _ n ih =>
    subst hn
    cases source with
    | nil => simp [piecesOnto]
    | cons c cs =>
      have hlt : (cs.drop (scan comments c cs).tail.length).length < (c :: cs).length := by
        simp only [List.length_drop, List.length_cons]; omega
      rw [pieces, piecesOnto, piecesOnto, ih _ hlt (scan comments c cs :: acc) _ rfl,
        ih _ hlt [scan comments c cs] _ rfl]
      simp

/-- The first piece of a text, then the pieces of what it leaves. -/
theorem pieces_cons (comments : Bool) (c : Char) (cs : List Char) :
    pieces comments (c :: cs) =
      scan comments c cs :: pieces comments (cs.drop (scan comments c cs).tail.length) := by
  rw [pieces, piecesOnto, piecesOnto_eq]
  rfl

theorem flatMap_source_pieces (comments : Bool) (source : List Char) :
    (pieces comments source).flatMap Piece.source = source := by
  induction hn : source.length using Nat.strongRecOn generalizing source with
  | _ n ih =>
    subst hn
    cases source with
    | nil => simp
    | cons c cs =>
      rw [pieces_cons, List.flatMap_cons, ih _ ?_ _ rfl, scan_source_append]
      simp only [List.length_drop, List.length_cons]
      omega

end LuaChecker.Piece
