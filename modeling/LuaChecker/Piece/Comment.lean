import LuaChecker.Piece.LongBracket

/-!
# Comments

A comment starts with two dashes. A long bracket right after them makes it end with the
bracket; any other comment ends before the next line end. A long comment that nothing
closes takes the rest of the source.

* `longOpening?_eq_some`: an opening that is read is the one that its level writes;
* `comment_tail_isPrefix`: a comment covers characters at the start of the text.
-/

namespace LuaChecker.Piece

/-- The rest of the text after the opening of a long bracket, with the level of that
bracket, if the text starts with one. -/
def longOpening? : List Char → Option (Nat × List Char)
  | '[' :: text =>
    let level := (text.takeWhile (· = '=')).length
    match text.drop level with
    | '[' :: body => some (level, body)
    | _ => none
  | _ => none

/-- The comment whose two dashes are followed by `text`. -/
def comment (text : List Char) : Piece :=
  match longOpening? text with
  | none => ⟨'-', '-' :: text.takeWhile (· ≠ '\n'), .comment, []⟩
  | some (level, body) =>
    match Text.before? (longCloser level) body with
    | some inner =>
      ⟨'-', '-' :: (longOpener level ++ inner ++ longCloser level), .comment, []⟩
    | none => ⟨'-', '-' :: text, .comment, [.commentNotClosed]⟩

/-- What follows a stretch of characters that are all the same. -/
theorem replicate_append_drop (c : Char) (text : List Char) :
    List.replicate (text.takeWhile (· = c)).length c ++
      text.drop (text.takeWhile (· = c)).length = text := by
  induction text with
  | nil => rfl
  | cons d ds ih =>
    by_cases h : d = c
    · subst h
      simpa [List.replicate_succ] using ih
    · simp [h]

theorem longOpening?_eq_some {text body : List Char} {level : Nat}
    (h : longOpening? text = some (level, body)) : text = longOpener level ++ body := by
  unfold longOpening? at h
  split at h
  · rename_i text
    simp only at h
    split at h
    · rename_i body' hd
      simp only [Option.some.injEq, Prod.mk.injEq] at h
      obtain ⟨rfl, rfl⟩ := h
      have hs := replicate_append_drop '=' text
      rw [hd] at hs
      simp only [longOpener, List.cons_append, List.append_assoc, List.nil_append]
      rw [hs]
    · cases h
  · cases h

theorem comment_tail_isPrefix (text : List Char) : (comment text).tail <+: '-' :: text := by
  unfold comment
  split
  · exact List.cons_prefix_cons.mpr ⟨rfl, List.takeWhile_prefix _⟩
  · rename_i level body h
    split
    · rename_i inner hi
      refine List.cons_prefix_cons.mpr ⟨rfl, ?_⟩
      rw [longOpening?_eq_some h, List.append_assoc]
      exact (List.prefix_append_right_inj _).mpr (Text.before?_append hi)
    · exact List.prefix_rfl

end LuaChecker.Piece
