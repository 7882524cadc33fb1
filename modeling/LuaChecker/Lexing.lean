import LuaChecker.Diagnostic
import LuaChecker.Piece.Scan

/-!
# Tokens of a source text

The pieces of a source text are put in their places, line and position; the tokens and the
diagnostics are read off them. Whatever is wrong with a piece is reported on the line on
which the piece starts.

* `place_cons`: the first piece stands where the text starts, the others stand behind it;
* `lex_tokens`, `lex_diagnostics`: tokens and diagnostics come from the placed pieces, in
  their order.
-/

namespace LuaChecker

structure Spot where
  /-- The line, counted from 1. -/
  line : Nat
  position : Nat
  deriving DecidableEq, Repr

namespace Spot

def start : Spot := ⟨1, 0⟩

/-- The place behind a text that starts here. -/
def past (s : Spot) (text : List Char) : Spot :=
  ⟨s.line + text.count '\n', s.position + text.length⟩

end Spot

structure Placed where
  spot : Spot
  piece : Piece
  deriving DecidableEq, Repr

namespace Placed

/-- The token that a piece stands for, if it stands for one. -/
def token? (p : Placed) : Option Token :=
  match p.piece.content with
  | .token kind text =>
    some ⟨p.spot.line, p.spot.position, p.piece.width, kind, String.ofList text⟩
  | _ => none

/-- What is wrong with a piece, as diagnostics on its first line. -/
def diagnostics (p : Placed) : List Diagnostic :=
  p.piece.flaws.map fun flaw => ⟨some p.spot.line, flaw.message⟩

end Placed

/-- The loop of `place`, with the placed pieces so far, the last one first. -/
def placeOnto (acc : List Placed) : Spot → List Piece → List Placed
  | _, [] => acc.reverse
  | s, p :: ps => placeOnto (⟨s, p⟩ :: acc) (s.past p.source) ps

/-- Puts pieces one behind the other, the first one at the given place. -/
def place (s : Spot) (ps : List Piece) : List Placed :=
  placeOnto [] s ps

theorem placeOnto_eq (acc : List Placed) (s : Spot) (ps : List Piece) :
    placeOnto acc s ps = acc.reverse ++ place s ps := by
  induction ps generalizing acc s with
  | nil => simp [place, placeOnto]
  | cons p ps ih =>
    simp only [place, placeOnto]
    rw [ih, ih [⟨s, p⟩]]
    simp

@[simp] theorem place_nil (s : Spot) : place s [] = [] := rfl

theorem place_cons (s : Spot) (p : Piece) (ps : List Piece) :
    place s (p :: ps) = ⟨s, p⟩ :: place (s.past p.source) ps := by
  rw [place, placeOnto, placeOnto_eq]
  rfl

structure Lexed where
  tokens : List Token
  diagnostics : List Diagnostic
  deriving DecidableEq, Repr

/-- The placed pieces of a whole source text. -/
def placedPieces (comments : Bool) (source : List Char) : List Placed :=
  place .start (Piece.pieces comments source)

/-- Splits a source text into tokens. With `comments` on, comments are skipped. -/
def lex (comments : Bool) (source : List Char) : Lexed :=
  let placed := placedPieces comments source
  ⟨placed.filterMap Placed.token?, placed.flatMap Placed.diagnostics⟩

theorem lex_tokens (comments : Bool) (source : List Char) :
    (lex comments source).tokens = (placedPieces comments source).filterMap Placed.token? := rfl

theorem lex_diagnostics (comments : Bool) (source : List Char) :
    (lex comments source).diagnostics =
      (placedPieces comments source).flatMap Placed.diagnostics := rfl

end LuaChecker
