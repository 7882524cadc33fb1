import LuaChecker.Proofs.Lexing.Joining

/-!
# Comments are white space

In a source that is read without diagnostics, the skipped comments may be overwritten with
spaces, their line ends left as they are. The text that remains is read with comments off,
and the tokens are the same, in the same places: where a comment stood, blanks stand now,
and a token in front of it ends there all the same.

* `blankOut_skippedSpans`: the source with its comments overwritten, piece by piece;
* `pieces_blanked`: its pieces are the old ones, with a blank for each character of a comment;
* `filterMap_token?_spaced`: blanks in place of a comment move nothing;
* `lex_blankOut`: the same tokens are read.
-/

namespace LuaChecker

instance (s : Span) (i : Nat) : Decidable (s.Holds i) :=
  inferInstanceAs (Decidable (_ ∧ _))

/-- A character overwritten: a line end stays, anything else becomes a space. -/
def overwritten (c : Char) : Char := if c = '\n' then c else ' '

/-- The character `c` of position `i`, overwritten if one of the spans holds that position. -/
def overwrittenIn (spans : List Span) (i : Nat) (c : Char) : Char :=
  if ∃ s ∈ spans, s.Holds i then overwritten c else c

/-- A text with every character overwritten that one of the spans holds. -/
def blankOut (spans : List Span) (text : List Char) : List Char :=
  text.mapIdx (overwrittenIn spans)

theorem isBlank_overwritten (c : Char) : Text.isBlank (overwritten c) = true := by
  unfold overwritten
  split
  · rename_i h
    rw [h]
    rfl
  · rfl

theorem overwritten_eq_newline_iff {c : Char} : overwritten c = '\n' ↔ c = '\n' := by
  unfold overwritten
  split
  · rfl
  · rename_i h
    exact iff_of_false (by decide) h

theorem Spot.past_map_overwritten (s : Spot) (text : List Char) :
    s.past (text.map overwritten) = s.past text := by
  have hcount : (text.map overwritten).count '\n' = text.count '\n' := by
    rw [List.count_eq_countP, List.countP_map, List.count_eq_countP]
    exact List.countP_congr fun c _ => by simp [overwritten_eq_newline_iff]
  rw [past, past, hcount, List.length_map]

/-! ## Comments overwritten piece by piece -/

namespace Piece

/-- The characters of a piece, overwritten if the piece is a comment. -/
def blanked (p : Piece) : List Char :=
  p.source.map fun c => if p.content = .comment then overwritten c else c

/-- What is read in place of a piece when comments are overwritten. -/
def spaced (p : Piece) : List Piece :=
  if p.content = .comment then (p.source.map overwritten).map ofBlank else [p]

theorem length_blanked (p : Piece) : p.blanked.length = p.width := List.length_map _

theorem blanked_comment {p : Piece} (h : p.content = .comment) :
    p.blanked = p.source.map overwritten := by
  simp only [blanked, h, if_true]

theorem blanked_of_ne {p : Piece} (h : p.content ≠ .comment) : p.blanked = p.source := by
  simp only [blanked, h, if_false, List.map_id']

end Piece

/-- A position is in a comment if the first piece is one and holds it, or if a later one
does. -/
theorem exists_skipped_holds_iff {s : Spot} {p : Piece} {ps : List Piece} {i : Nat} :
    (∃ sp ∈ (place s (p :: ps)).filterMap Placed.skipped?, sp.Holds i) ↔
      (p.content = .comment ∧ (Placed.mk s p).span.Holds i) ∨
        ∃ sp ∈ (place (s.past p.source) ps).filterMap Placed.skipped?, sp.Holds i := by
  rw [place_cons]
  by_cases hcontent : p.content = .comment
  · have hskipped : (Placed.mk s p).skipped? = some (Placed.mk s p).span := if_pos hcontent
    rw [List.filterMap_cons_some hskipped]
    simp only [List.mem_cons, exists_eq_or_imp, hcontent, true_and]
  · have hskipped : (Placed.mk s p).skipped? = none := if_neg hcontent
    rw [List.filterMap_cons_none hskipped]
    simp only [hcontent, false_and, false_or]

theorem position_le_of_skipped {s : Spot} {ps : List Piece} {sp : Span} {i : Nat}
    (hsp : sp ∈ (place s ps).filterMap Placed.skipped?) (hi : sp.Holds i) : s.position ≤ i := by
  obtain ⟨p, hp, hskipped⟩ := List.mem_filterMap.mp hsp
  obtain ⟨rfl, -⟩ := Placed.skipped?_eq_some hskipped
  exact (position_le_of_mem hp).trans hi.1

theorem overwrittenIn_first {s : Spot} {p : Piece} {ps : List Piece} {i : Nat}
    (hi : i < p.width) (c : Char) :
    overwrittenIn ((place s (p :: ps)).filterMap Placed.skipped?) (s.position + i) c =
      if p.content = .comment then overwritten c else c := by
  apply if_congr _ rfl rfl
  rw [exists_skipped_holds_iff]
  constructor
  · rintro (⟨hcontent, -⟩ | ⟨sp, hsp, hholds⟩)
    · exact hcontent
    · -- a later comment starts behind the first piece
      have hle : s.position + p.width ≤ s.position + i := position_le_of_skipped hsp hholds
      omega
  · intro hcontent
    exact .inl ⟨hcontent, Nat.le_add_right _ _, Nat.add_lt_add_left hi _⟩

theorem overwrittenIn_later {s : Spot} {p : Piece} {ps : List Piece} {i : Nat}
    (hi : s.position + p.width ≤ i) (c : Char) :
    overwrittenIn ((place s (p :: ps)).filterMap Placed.skipped?) i c =
      overwrittenIn ((place (s.past p.source) ps).filterMap Placed.skipped?) i c := by
  apply if_congr _ rfl rfl
  rw [exists_skipped_holds_iff]
  apply or_iff_right
  rintro ⟨-, -, hlt⟩
  exact absurd hlt (Nat.not_lt.mpr hi)

/-- Overwriting the comments among placed pieces, piece by piece. -/
theorem mapIdx_place (s : Spot) (ps : List Piece) :
    ((ps.flatMap Piece.source).mapIdx fun i =>
        overwrittenIn ((place s ps).filterMap Placed.skipped?) (s.position + i)) =
      ps.flatMap Piece.blanked := by
  induction ps generalizing s with
  | nil => rfl
  | cons p ps ih =>
    rw [List.flatMap_cons, List.flatMap_cons, List.mapIdx_append, ← ih (s.past p.source)]
    congr 1
    · apply List.ext_getElem
      · rw [List.length_mapIdx, Piece.length_source, Piece.length_blanked]
      · intro i hi _
        rw [List.length_mapIdx, Piece.length_source] at hi
        rw [List.getElem_mapIdx, overwrittenIn_first hi]
        simp only [Piece.blanked, List.getElem_map]
    · apply List.mapIdx_eq_mapIdx_iff.mpr
      intro i _
      have hposition : s.position + (i + p.source.length) = (s.past p.source).position + i := by
        simp only [Spot.past]
        omega
      have hle : s.position + p.width ≤ (s.past p.source).position + i := Nat.le_add_right _ _
      rw [hposition, overwrittenIn_later hle]

theorem blankOut_skippedSpans (comments : Bool) (source : List Char) :
    blankOut (skippedSpans comments source) source =
      (Piece.pieces comments source).flatMap Piece.blanked := by
  have hplaced := mapIdx_place .start (Piece.pieces comments source)
  rw [Piece.flatMap_source_pieces] at hplaced
  rw [← hplaced]
  simp only [blankOut, skippedSpans, placedPieces, Spot.start, Nat.zero_add]

/-! ## Reading what remains -/

namespace Piece

variable {comments : Bool}

theorem pieces_blanks {blanks : List Char} (h : ∀ c ∈ blanks, Text.isBlank c = true)
    (text : List Char) :
    pieces comments (blanks ++ text) = blanks.map ofBlank ++ pieces comments text := by
  induction blanks with
  | nil => rfl
  | cons c cs ih =>
    obtain ⟨hc, hcs⟩ := List.forall_mem_cons.mp h
    rw [List.cons_append, pieces_blank hc, ih hcs, List.map_cons, List.cons_append]

/-- Behind a piece stands the character that stood there, or a space in its place. -/
theorem exchanges_blanked (comments : Bool) (after : List Char) :
    Text.Exchanges after ((pieces comments after).flatMap blanked) := by
  cases after with
  | nil =>
    rw [pieces_nil]
    exact .inl rfl
  | cons c cs =>
    rw [pieces_cons, List.flatMap_cons]
    by_cases hcomment : (scan comments c cs).content = .comment
    · right
      intro d hd
      rw [blanked_comment hcomment, source, List.map_cons] at hd
      cases hd
      exact isBlank_overwritten _
    · left
      rw [blanked_of_ne hcomment, source, scan_head]
      rfl

/-- With comments on, a piece that is no comment is read as it is with comments off. -/
theorem scan_of_content_ne {head : Char} {text : List Char}
    (h : (scan comments head text).content ≠ .comment) :
    scan comments head text = scan false head text := by
  apply scan_of_not_comment
  rw [← Bool.not_eq_true]
  intro hcomment
  obtain ⟨rfl, hstart⟩ := Bool.and_eq_true_iff.mp hcomment
  obtain ⟨rfl, rest, rfl⟩ := startsComment_iff.mp hstart
  exact h (comment_content rest)

theorem pieces_blanked {source : List Char} (hclean : ∀ p ∈ pieces comments source, p.flaws = []) :
    pieces false ((pieces comments source).flatMap blanked) =
      (pieces comments source).flatMap spaced := by
  induction source using pieces_induction comments with
  | nil => rw [pieces_nil, List.flatMap_nil, List.flatMap_nil, pieces_nil]
  | piece head tail after htail ih =>
    rw [pieces_of_tail htail] at hclean ⊢
    obtain ⟨hhead, hafter⟩ := List.forall_mem_cons.mp hclean
    have hsource : (scan comments head (tail ++ after)).source = head :: tail := by
      rw [source, scan_head, htail]
    rw [List.flatMap_cons, List.flatMap_cons, ← ih hafter]
    by_cases hcontent : (scan comments head (tail ++ after)).content = .comment
    · rw [blanked_comment hcontent, spaced, if_pos hcontent]
      apply pieces_blanks
      exact List.forall_mem_map.mpr fun c _ => isBlank_overwritten c
    · rw [blanked_of_ne hcontent, spaced, if_neg hcontent, hsource]
      rw [scan_of_content_ne hcontent] at hhead htail ⊢
      have hagain := scan_plain_again (exchanges_blanked comments after) hhead htail
      rw [List.cons_append, pieces_of_tail (by rw [hagain, htail]), hagain,
        List.singleton_append]

end Piece

/-! ## Tokens in their places -/

theorem filterMap_token?_blanks (s : Spot) (blanks : List Char) :
    (place s (blanks.map Piece.ofBlank)).filterMap Placed.token? = [] := by
  induction blanks generalizing s with
  | nil => rfl
  | cons c cs ih =>
    rw [List.map_cons, place_cons, List.filterMap_cons_none rfl, ih]

theorem flatMap_source_blanks (blanks : List Char) :
    (blanks.map Piece.ofBlank).flatMap Piece.source = blanks := by
  rw [List.flatMap_map]
  exact List.flatMap_singleton' blanks

theorem filterMap_token?_spaced (s : Spot) (ps : List Piece) :
    (place s (ps.flatMap Piece.spaced)).filterMap Placed.token? =
      (place s ps).filterMap Placed.token? := by
  induction ps generalizing s with
  | nil => rfl
  | cons p ps ih =>
    rw [List.flatMap_cons, place_append, List.filterMap_append, ih, place_cons]
    by_cases hcontent : p.content = .comment
    · have hnone : (Placed.mk s p).token? = none := by rw [Placed.token?, hcontent]
      rw [Piece.spaced, if_pos hcontent, filterMap_token?_blanks, flatMap_source_blanks,
        Spot.past_map_overwritten, List.filterMap_cons_none hnone, List.nil_append]
    · rw [Piece.spaced, if_neg hcontent, List.flatMap_singleton, ← List.filterMap_append]
      rfl

/-- **Comments are white space.** A source that is read without diagnostics with comments on
may have every character of its comments overwritten with a space, line ends apart. With
comments off the result is read without diagnostics, too, and as the very same tokens. -/
theorem lex_blankOut {source : List Char} (hclean : (lex true source).diagnostics = []) :
    lex false (blankOut (skippedSpans true source) source) = ⟨(lex true source).tokens, []⟩ := by
  have hpieces := Piece.pieces_blanked (diagnostics_eq_nil_iff.mp hclean)
  rw [← blankOut_skippedSpans] at hpieces
  have htokens : (lex false (blankOut (skippedSpans true source) source)).tokens =
      (lex true source).tokens := by
    rw [lex_tokens, placedPieces, hpieces, filterMap_token?_spaced, lex_tokens, placedPieces]
  have hdiagnostics :
      (lex false (blankOut (skippedSpans true source) source)).diagnostics = [] := by
    rw [diagnostics_eq_nil_iff, hpieces]
    intro q hq
    obtain ⟨p, hp, hqp⟩ := List.mem_flatMap.mp hq
    unfold Piece.spaced at hqp
    split at hqp
    · obtain ⟨c, -, rfl⟩ := List.mem_map.mp hqp
      rfl
    · obtain rfl := List.mem_singleton.mp hqp
      exact diagnostics_eq_nil_iff.mp hclean q hp
  rw [← htokens, ← hdiagnostics]

/-- A long comment over two lines stands right behind a number and in front of a string with
dashes; another comment ends the source. -/
theorem lex_blankOut_comments :
    (lex true "1--[=[]\n]]=]'--'--[x".toList).diagnostics = [] ∧
      lex false "1      \n    '--'    ".toList =
        ⟨[⟨1, 0, 1, .number, "1"⟩, ⟨2, 12, 4, .string, "'--'"⟩], []⟩ := by
  have hclean : (lex true "1--[=[]\n]]=]'--'--[x".toList).diagnostics = [] := by
    decide +kernel
  have hblank : blankOut (skippedSpans true "1--[=[]\n]]=]'--'--[x".toList)
      "1--[=[]\n]]=]'--'--[x".toList = "1      \n    '--'    ".toList := by
    decide +kernel
  refine ⟨hclean, ?_⟩
  rw [← hblank, lex_blankOut hclean]
  decide +kernel

end LuaChecker
