import LuaChecker.Proofs.Lexing.Lookahead

/-!
# Joining sources at a line end

A source that is read without diagnostics may be put in front of another one, with a line
end between the two. Nothing that is read in the first source looks behind its end, and
nothing is carried into the second one but where it stands.

* `pieces_join`: the pieces of the first source, the line end, the pieces of the second;
* `place_append`, `place_shift`: where pieces stand that are put behind others, and that are
  put further on;
* `placedPieces_join`: the placed pieces of both sources;
* `lex_join`: the tokens and the diagnostics of both sources.
-/

namespace LuaChecker

/-! ## Things further on -/

def Spot.shift (lines chars : Nat) (s : Spot) : Spot := ⟨s.line + lines, s.position + chars⟩

def Placed.shift (lines chars : Nat) (p : Placed) : Placed := ⟨p.spot.shift lines chars, p.piece⟩

/-- The token as many lines and characters further on. -/
def Token.shift (lines chars : Nat) (t : Token) : Token :=
  { t with line := t.line + lines, position := t.position + chars }

/-- The diagnostic as many lines further on. What is about the end of the input stays so. -/
def Diagnostic.shift (lines : Nat) (d : Diagnostic) : Diagnostic :=
  { d with line := d.line.map (· + lines) }

theorem Spot.past_shift (lines chars : Nat) (s : Spot) (text : List Char) :
    (s.shift lines chars).past text = (s.past text).shift lines chars := by
  simp only [past, shift, Nat.add_right_comm]

theorem Placed.token?_shift (lines chars : Nat) (p : Placed) :
    (p.shift lines chars).token? = p.token?.map (Token.shift lines chars) := by
  simp only [token?, shift]
  split <;> rfl

theorem Placed.diagnostics_shift (lines chars : Nat) (p : Placed) :
    (p.shift lines chars).diagnostics = p.diagnostics.map (Diagnostic.shift lines) := by
  simp only [diagnostics, List.map_map]
  rfl

/-! ## Placing pieces -/

theorem place_append (s : Spot) (ps qs : List Piece) :
    place s (ps ++ qs) = place s ps ++ place (s.past (ps.flatMap Piece.source)) qs := by
  induction ps generalizing s with
  | nil => rfl
  | cons p ps ih =>
    rw [List.cons_append, place_cons, place_cons, ih, Spot.past_past, List.flatMap_cons,
      List.cons_append]

theorem place_shift (lines chars : Nat) (s : Spot) (ps : List Piece) :
    place (s.shift lines chars) ps = (place s ps).map (Placed.shift lines chars) := by
  induction ps generalizing s with
  | nil => rfl
  | cons p ps ih =>
    rw [place_cons, place_cons, Spot.past_shift, ih, List.map_cons]
    rfl

/-! ## Both sources -/

section

variable {comments : Bool} {first : List Char}

/-- A line end behind a source without flaws changes no piece of it. -/
theorem Piece.pieces_join (hclean : ∀ p ∈ pieces comments first, p.flaws = [])
    (second : List Char) :
    pieces comments (first ++ '\n' :: second) =
      pieces comments first ++ ofBlank '\n' :: pieces comments second := by
  induction first using pieces_induction comments with
  | nil =>
    rw [List.nil_append, pieces_blank (by decide), pieces_nil]
    rfl
  | piece head tail after htail ih =>
    rw [pieces_of_tail htail] at hclean ⊢
    obtain ⟨hhead, hafter⟩ := List.forall_mem_cons.mp hclean
    -- behind the piece stands what stood there, or now the line end
    have hend : (after ++ '\n' :: second).head? = after.head? ∨
        (after ++ '\n' :: second).head? = some '\n' := by
      cases after with
      | nil => exact .inr rfl
      | cons c cs => exact .inl rfl
    have hagain := scan_again hend hhead htail
    have htail' : (scan comments head (tail ++ (after ++ '\n' :: second))).tail = tail := by
      rw [hagain, htail]
    have hsource : head :: (tail ++ after) ++ '\n' :: second =
        head :: (tail ++ (after ++ '\n' :: second)) := by
      rw [List.cons_append, List.append_assoc]
    rw [hsource, pieces_of_tail htail', hagain, ih hafter, List.cons_append]

theorem placedPieces_join (hclean : (lex comments first).diagnostics = [])
    (second : List Char) :
    placedPieces comments (first ++ '\n' :: second) =
      placedPieces comments first ++ ⟨Spot.start.past first, Piece.ofBlank '\n'⟩ ::
        (placedPieces comments second).map
          (Placed.shift (1 + first.count '\n') (first.length + 1)) := by
  have hspot : (Spot.start.past first).past ['\n'] =
      Spot.start.shift (1 + first.count '\n') (first.length + 1) := by
    simp [Spot.past, Spot.shift, Spot.start, Nat.add_comm]
  rw [placedPieces, Piece.pieces_join (diagnostics_eq_nil_iff.mp hclean), place_append,
    Piece.flatMap_source_pieces, place_cons]
  congr 2
  rw [placedPieces, ← place_shift, ← hspot]
  rfl

end

/-- **Joining.** Behind a source that is read without diagnostics and a line end, another
source is read as it is read alone, further on by the characters and lines in front of it. -/
theorem lex_join {comments : Bool} {first : List Char}
    (hclean : (lex comments first).diagnostics = []) (second : List Char) :
    lex comments (first ++ '\n' :: second) =
      ⟨(lex comments first).tokens ++ (lex comments second).tokens.map
          (Token.shift (1 + first.count '\n') (first.length + 1)),
        (lex comments second).diagnostics.map (Diagnostic.shift (1 + first.count '\n'))⟩ := by
  have hplaced := placedPieces_join hclean second
  have htokens : (lex comments (first ++ '\n' :: second)).tokens =
      (lex comments first).tokens ++ (lex comments second).tokens.map
        (Token.shift (1 + first.count '\n') (first.length + 1)) := by
    rw [lex_tokens, hplaced, List.filterMap_append, List.filterMap_cons_none rfl,
      List.filterMap_map, lex_tokens, lex_tokens, List.map_filterMap]
    congr 1
    exact List.filterMap_congr fun p _ => p.token?_shift _ _
  have hdiagnostics : (lex comments (first ++ '\n' :: second)).diagnostics =
      (lex comments second).diagnostics.map (Diagnostic.shift (1 + first.count '\n')) := by
    rw [lex_diagnostics] at hclean
    rw [lex_diagnostics, hplaced, List.flatMap_append, hclean, List.nil_append,
      List.flatMap_cons, List.flatMap_map, lex_diagnostics, List.map_flatMap]
    exact List.flatMap_congr fun p _ => p.diagnostics_shift _ _
  rw [← htokens, ← hdiagnostics]

/-- A comment that goes over two lines stands in front of a string that is not closed. -/
theorem lex_join_comment :
    (lex true "--[[\n]] x".toList).diagnostics = [] ∧
      lex true ("--[[\n]] x".toList ++ '\n' :: "'y".toList) =
        ⟨[⟨2, 8, 1, .name, "x"⟩, ⟨3, 10, 2, .string, "'y'"⟩],
          [⟨some 3, "String not closed"⟩]⟩ := by
  have hclean : (lex true "--[[\n]] x".toList).diagnostics = [] := by decide +kernel
  refine ⟨hclean, ?_⟩
  rw [lex_join hclean]
  decide +kernel

end LuaChecker
