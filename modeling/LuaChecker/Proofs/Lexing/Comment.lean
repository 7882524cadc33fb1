import LuaChecker.Piece.Comment
import Mathlib.Data.List.TakeWhile

/-!
# What comments are

The shape of a comment does not depend on how it is found. A line comment is followed by a
line end or by nothing, a long comment ends with the first closing of its level, and a long
comment that nothing closes goes on to the end of the source.

* `before?_first`, `before?_none`: what a search finds is the first occurrence;
* `longOpening?_none`: an opening that is not read is not there;
* `comment_isComment`: the piece that is read behind two dashes is a comment.
-/

namespace LuaChecker

/-! ## Stretches, and the first occurrence of a pattern -/

namespace Text

/-- What comes behind a stretch of characters is none of them. -/
theorem head?_drop_takeWhile (p : Char → Bool) (text : List Char) :
    ∀ c ∈ (text.drop (text.takeWhile p).length).head?, p c = false := by
  induction text with
  | nil => simp
  | cons c cs ih =>
    by_cases h : p c = true
    · simpa [h] using ih
    · simp [h]

variable {pattern text inner : List Char}

theorem before?_first (hne : pattern ≠ []) (h : before? pattern text = some inner) :
    ¬ pattern <:+: (inner ++ pattern).dropLast := by
  induction text generalizing inner with
  | nil =>
    rw [before?_nil, if_neg (by simpa using hne)] at h
    cases h
  | cons c cs ih =>
    rw [before?_cons] at h
    split at h
    · cases h
      intro hin
      have hlength := hin.length_le
      have hpos := List.length_pos_iff.mpr hne
      simp only [List.nil_append, List.length_dropLast] at hlength
      omega
    · rename_i hfront
      obtain ⟨inner', h', rfl⟩ := Option.map_eq_some_iff.mp h
      have hrest : inner' ++ pattern ≠ [] := by simp [hne]
      rw [List.cons_append, List.dropLast_cons_of_ne_nil hrest, List.infix_cons_iff]
      rintro (hhere | hlater)
      · apply hfront
        have hread : c :: (inner' ++ pattern) <+: c :: cs :=
          List.cons_prefix_cons.mpr ⟨rfl, before?_append h'⟩
        have hcut : c :: (inner' ++ pattern).dropLast <+: c :: (inner' ++ pattern) :=
          List.cons_prefix_cons.mpr ⟨rfl, List.dropLast_prefix _⟩
        exact List.isPrefixOf_iff_prefix.mpr ((hhere.trans hcut).trans hread)
      · exact ih h' hlater

theorem before?_none (h : before? pattern text = none) : ¬ pattern <:+: text := by
  induction text with
  | nil =>
    rw [before?_nil] at h
    split at h
    · cases h
    · rename_i hne
      simpa using hne
  | cons c cs ih =>
    rw [before?_cons] at h
    split at h
    · cases h
    · rename_i hfront
      rw [List.infix_cons_iff]
      rintro (hhere | hlater)
      · exact hfront (List.isPrefixOf_iff_prefix.mpr hhere)
      · exact ih (Option.map_eq_none_iff.mp h) hlater

theorem prefix_dropLast {front shorter : List Char} (hfront : front <+: text)
    (hshorter : shorter <+: text) (hlt : shorter.length < front.length) :
    shorter <+: front.dropLast := by
  rw [List.dropLast_eq_take, List.prefix_take_iff]
  exact ⟨List.prefix_of_prefix_length_le hshorter hfront (Nat.le_of_lt hlt), by omega⟩

/-- A search finds the first occurrence, and what comes behind that is not looked at. -/
theorem before?_eq_some_iff (hne : pattern ≠ []) :
    before? pattern text = some inner ↔
      inner ++ pattern <+: text ∧ ¬ pattern <:+: (inner ++ pattern).dropLast := by
  constructor
  · intro h
    exact ⟨before?_append h, before?_first hne h⟩
  · rintro ⟨hfront, hfirst⟩
    have hoccurs (other : List Char) : pattern <:+: other ++ pattern :=
      (List.suffix_append other pattern).isInfix
    cases hfound : before? pattern text with
    | none => exact absurd ((hoccurs inner).trans hfront.isInfix) (before?_none hfound)
    | some other =>
      have hother := before?_append hfound
      rcases Nat.lt_trichotomy inner.length other.length with hlt | heq | hgt
      · have hearlier := prefix_dropLast hother hfront (by simpa using hlt)
        exact absurd ((hoccurs inner).trans hearlier.isInfix) (before?_first hne hfound)
      · have hsame := List.prefix_of_prefix_length_le hfront hother (by simp [heq])
        have happend := hsame.eq_of_length (by simp [heq])
        rw [List.append_cancel_right happend]
      · have hearlier := prefix_dropLast hfront hother (by simpa using hgt)
        exact absurd ((hoccurs other).trans hearlier.isInfix) hfirst

end Text

namespace Piece

/-! ## Comments -/

/-- A stretch of text is a comment, given what follows it. -/
inductive IsComment : List Char → List Char → Prop
  | line {body after : List Char} (hopening : ∀ level, ¬ longOpener level <+: body ++ after)
      (hline : '\n' ∉ body) (hend : after = [] ∨ after.head? = some '\n') :
      IsComment ('-' :: '-' :: body) after
  | long {level : Nat} {inner after : List Char}
      (hfirst : ¬ longCloser level <:+: (inner ++ longCloser level).dropLast) :
      IsComment ('-' :: '-' :: (longOpener level ++ inner ++ longCloser level)) after
  | unclosed {level : Nat} {body : List Char} (hopen : ¬ longCloser level <:+: body) :
      IsComment ('-' :: '-' :: (longOpener level ++ body)) []

theorem longOpening?_longOpener (level : Nat) (body : List Char) :
    longOpening? (longOpener level ++ body) = some (level, body) := by
  have hlevel : ((List.replicate level '=' ++ '[' :: body).takeWhile (· = '=')).length = level := by
    simp
  simp only [longOpener, List.cons_append, List.append_assoc, List.nil_append, longOpening?,
    hlevel]
  rw [List.drop_left' List.length_replicate]
  rfl

theorem longOpening?_none {text : List Char} (h : longOpening? text = none) (level : Nat) :
    ¬ longOpener level <+: text := by
  rintro ⟨body, rfl⟩
  rw [longOpening?_longOpener] at h
  cases h

theorem comment_content (text : List Char) : (comment text).content = .comment := by
  unfold comment
  split
  · rfl
  · split <;> rfl

theorem comment_flaws {text : List Char} {flaw : Flaw} (h : flaw ∈ (comment text).flaws) :
    flaw = .commentNotClosed := by
  unfold comment at h
  split at h
  · cases h
  · split at h
    · cases h
    · exact List.mem_singleton.mp h

theorem comment_isComment (text : List Char) :
    IsComment (comment text).source (('-' :: text).drop (comment text).tail.length) := by
  unfold comment
  split
  · rename_i hnone
    refine IsComment.line ?_ ?_ ?_
    · intro level
      simp only [List.length_cons, List.drop_succ_cons]
      rw [List.prefix_iff_eq_append.mp (List.takeWhile_prefix _)]
      exact longOpening?_none hnone level
    · intro hmem
      simpa using List.mem_takeWhile_imp hmem
    · have hstop := Text.head?_drop_takeWhile (· ≠ '\n') text
      simp only [List.length_cons, List.drop_succ_cons]
      cases hafter : text.drop (text.takeWhile (· ≠ '\n')).length with
      | nil => exact .inl rfl
      | cons c cs =>
        rw [hafter] at hstop
        exact .inr (by simpa using hstop c rfl)
  · rename_i level body hopening
    split
    · rename_i inner hinner
      exact IsComment.long (Text.before?_first (by simp [longCloser]) hinner)
    · rename_i hnone
      obtain rfl := longOpening?_eq_some hopening
      have hafter : ('-' :: (longOpener level ++ body)).drop
          ('-' :: (longOpener level ++ body)).length = [] := List.drop_length
      rw [hafter]
      exact IsComment.unclosed (Text.before?_none hnone)

end Piece

end LuaChecker
