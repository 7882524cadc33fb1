import LuaChecker.Piece.Number

/-!
# Steps of the number scanner

The number scanner goes from character to character. It takes a digit in every state and a
sign right behind an exponent mark that it keeps. It takes points and exponent marks too, but
of each sort it keeps only the first.

* `isDigit_plain`, `isSign_plain`, `isExponentMark_plain`: the sorts of characters are apart;
* `Number.Follows`: all that a step can be;
* `follows_of_step`: every step is one of these.
-/

namespace LuaChecker.Piece

def isSign (c : Char) : Bool :=
  c = '+' || c = '-'

def isExponentMark (c : Char) : Bool :=
  c = 'e' || c = 'E'

theorem isDigit_plain {c : Char} (h : c.isDigit = true) :
    c ≠ '.' ∧ isExponentMark c = false ∧ isSign c = false := by
  refine ⟨?_, ?_, ?_⟩
  · rintro rfl
    cases h
  · rw [← Bool.not_eq_true]
    intro hmark
    simp only [isExponentMark, Bool.or_eq_true, decide_eq_true_eq] at hmark
    rcases hmark with rfl | rfl <;> cases h
  · rw [← Bool.not_eq_true]
    intro hsign
    simp only [isSign, Bool.or_eq_true, decide_eq_true_eq] at hsign
    rcases hsign with rfl | rfl <;> cases h

theorem isSign_plain {c : Char} (h : isSign c = true) : c ≠ '.' ∧ isExponentMark c = false := by
  simp only [isSign, Bool.or_eq_true, decide_eq_true_eq] at h
  rcases h with rfl | rfl <;> decide

theorem isExponentMark_plain {c : Char} (h : isExponentMark c = true) :
    c ≠ '.' ∧ isSign c = false := by
  simp only [isExponentMark, Bool.or_eq_true, decide_eq_true_eq] at h
  rcases h with rfl | rfl <;> decide

/-- What a step of the number scanner can be: the character, the state behind it, and the
flaw for which the character is left out. -/
inductive Number.Follows (s : Number.State) : Char → Number.State → Option Flaw → Prop
  | sign {c : Char} (hsign : isSign c = true) (h : s.signable = true) :
      Follows s c ⟨s.point, s.exponent, false⟩ none
  | point (h : s.point = false) : Follows s '.' ⟨true, s.exponent, false⟩ none
  | repeatedPoint (h : s.point = true) :
      Follows s '.' ⟨true, s.exponent, false⟩ (some .repeatedPoint)
  | exponent {c : Char} (hmark : isExponentMark c = true) (h : s.exponent = false) :
      Follows s c ⟨s.point, true, true⟩ none
  | repeatedExponent {c : Char} (hmark : isExponentMark c = true) (h : s.exponent = true) :
      Follows s c ⟨s.point, true, false⟩ (some .repeatedExponent)
  | digit {c : Char} (hdigit : c.isDigit = true) :
      Follows s c ⟨s.point, s.exponent, false⟩ none

theorem follows_of_step {s s' : Number.State} {c : Char} {mark : Option Flaw}
    (h : Number.step s c = some (s', mark)) : Number.Follows s c s' mark := by
  unfold Number.step at h
  split at h
  · rename_i hsign
    split at h
    · rename_i hsignable
      cases h
      exact .sign (by simpa [isSign] using hsign) hsignable
    · cases h
  split at h
  · rename_i hpoint
    subst hpoint
    cases h
    cases hseen : s.point with
    | true => exact .repeatedPoint hseen
    | false => exact .point hseen
  split at h
  · rename_i hmark
    have hmark' : isExponentMark c = true := by simpa [isExponentMark] using hmark
    cases h
    cases hseen : s.exponent with
    | true => exact .repeatedExponent hmark' hseen
    | false => exact .exponent hmark' hseen
  split at h
  · rename_i hdigit
    cases h
    exact .digit hdigit
  · cases h

/-- A sign may follow only when the last character that was kept is an exponent mark. -/
theorem Number.Follows.signable {s s' : Number.State} {c : Char} {mark : Option Flaw}
    (hstep : Number.Follows s c s' mark) (h : s'.signable = true) :
    mark = none ∧ isExponentMark c = true := by
  cases hstep with
  | exponent hmark hseen => exact ⟨rfl, hmark⟩
  | _ => cases h

end LuaChecker.Piece
