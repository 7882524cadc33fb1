import LuaChecker.Decimal.Style
import LuaChecker.Proofs.Decimal.Shortest

/-!
# The digits of a numeral

The digits before and behind the point of a numeral that a style writes are those of the
coefficient, with zeros before or behind them.

* `ofDigits_append`, `pow_le_ofDigits`: the values of rows of digits;
* `numeral_forms`: what integer and power of ten a numeral has.
-/

namespace LuaChecker.Decimal

/-! ## Rows of digits -/

theorem ofDigits_append (ds es : List Digit) :
    ofDigits (ds ++ es) = ofDigits ds * 10 ^ es.length + ofDigits es := by
  induction es using List.reverseRecOn with
  | nil => simp [ofDigits]
  | append_singleton es d ih =>
    rw [← List.append_assoc, ofDigits_concat, ofDigits_concat, ih, List.length_append,
      List.length_singleton, pow_succ]
    ring

theorem ofDigits_zeros (k : ℕ) : ofDigits (List.replicate k Digit.zero) = 0 := by
  induction k with
  | zero => rfl
  | succ k ih =>
    rw [List.replicate_succ', ofDigits_concat, ih]
    rfl

theorem ofDigits_append_zeros (ds : List Digit) (k : ℕ) :
    ofDigits (ds ++ List.replicate k Digit.zero) = ofDigits ds * 10 ^ k := by
  rw [ofDigits_append, ofDigits_zeros, List.length_replicate, add_zero]

theorem ofDigits_zeros_append (k : ℕ) (ds : List Digit) :
    ofDigits (List.replicate k Digit.zero ++ ds) = ofDigits ds := by
  rw [ofDigits_append, ofDigits_zeros, zero_mul, zero_add]

theorem length_digits_pos (n : ℕ) : 0 < (digits n).length := by
  rw [digits]
  split
  · exact Nat.one_pos
  · rw [List.length_append]
    exact Nat.succ_pos _

/-- The first digit of a number other than zero is not zero. -/
theorem pow_le_of_digits {n : ℕ} (hn : 0 < n) : 10 ^ ((digits n).length - 1) ≤ n := by
  rw [digits]
  split
  · exact hn
  · have ih := pow_le_of_digits (n := n / 10) (by omega)
    have hlength := length_digits_pos (n / 10)
    have hsucc : (digits (n / 10)).length = (digits (n / 10)).length - 1 + 1 := by omega
    rw [List.length_append, List.length_singleton, Nat.add_sub_cancel, hsucc, pow_succ]
    omega

/-! ## The places of the digits -/

/-- A point among the digits or before them: they are all there, behind zeros. -/
theorem places_of_neg (ds : List Digit) {e : ℤ} (he : e < 0) :
    ofDigits (wholePart ds (e + ds.length) ++ fractionPart ds (e + ds.length)) = ofDigits ds ∧
      ((fractionPart ds (e + ds.length)).length : ℤ) = -e := by
  unfold wholePart fractionPart
  rcases le_or_gt (e + ds.length) 0 with hle | hgt
  · have hnat : (e + ds.length).toNat = 0 := by omega
    rw [if_pos hle, hnat, List.drop_zero, List.length_append, List.length_replicate]
    refine ⟨?_, by push_cast; omega⟩
    rw [List.singleton_append, ← List.cons_append, ← List.replicate_succ, ofDigits_zeros_append]
  · have hzeros : (e + ds.length).toNat - ds.length = 0 := by omega
    have hnone : (-(e + ds.length)).toNat = 0 := by omega
    rw [if_neg (by omega), hzeros, hnone, List.replicate_zero, List.append_nil, List.nil_append,
      List.take_append_drop, List.length_drop]
    exact ⟨rfl, by omega⟩

/-- A point behind the digits: they have zeros behind them. -/
theorem places_of_nonneg {ds : List Digit} (hds : 0 < ds.length) {e : ℤ} (he : 0 ≤ e) :
    wholePart ds (e + ds.length) = ds ++ List.replicate e.toNat Digit.zero ∧
      fractionPart ds (e + ds.length) = [] := by
  have hzeros : (e + ds.length).toNat - ds.length = e.toNat := by omega
  have hnone : (-(e + ds.length)).toNat = 0 := by omega
  unfold wholePart fractionPart
  rw [if_neg (by omega), hzeros, hnone, List.take_of_length_le (by omega),
    List.drop_eq_nil_of_le (by omega)]
  exact ⟨rfl, rfl⟩

/-! ## The forms of a numeral -/

namespace Numeral

/-- The digits of a numeral as an integer. -/
def significand (n : Numeral) : ℕ :=
  ofDigits (n.whole ++ n.fraction)

/-- The power of ten that belongs to the last digit of a numeral. -/
def power (n : Numeral) : ℤ :=
  n.exponent.getD 0 - n.fraction.length

end Numeral

section Forms

variable {style : Style} (negative : Bool) {d : Dyadic}

theorem padded_nil (hpoint : style.keepsPoint = true) : style.padded [] = [Digit.zero] := by
  unfold Style.padded
  rw [hpoint]
  rfl

theorem padded_of_ne_nil {ds : List Digit} (h : ds ≠ []) : style.padded ds = ds := by
  unfold Style.padded
  rw [List.isEmpty_eq_false_iff.mpr h]
  rfl

/-- Zero is written with a point and two digits. -/
theorem numeral_zero (hpoint : style.keepsPoint = true) (h : d.mantissa = 0) :
    style.numeral negative d = ⟨negative, [Digit.zero], [Digit.zero], none⟩ := by
  unfold Style.numeral
  rw [if_pos h, padded_nil hpoint]

/-- A numeral with all its places, or one with an exponent. -/
theorem numeral_of_pos (h : 0 < d.mantissa) {s : Scaled} (hs : d.shortest style.tie = s) :
    style.numeral negative d =
      if style.positional (s.exponent + (digits s.coefficient).length - 1) then
        ⟨negative, wholePart (digits s.coefficient) (s.exponent + (digits s.coefficient).length),
          style.padded (fractionPart (digits s.coefficient)
            (s.exponent + (digits s.coefficient).length)), none⟩
      else
        ⟨negative, (digits s.coefficient).take 1, (digits s.coefficient).drop 1,
          some (s.exponent + (digits s.coefficient).length - 1)⟩ := by
  unfold Style.numeral
  rw [if_neg h.ne', hs]
  simp only [sub_add_cancel]

theorem negative_numeral (d : Dyadic) : (style.numeral negative d).negative = negative := by
  unfold Style.numeral
  simp only
  split
  · rfl
  · split <;> rfl

/-- The digits of a numeral are those of the shortest decimal, with zeros behind them if all
places of a whole number are written. -/
theorem numeral_forms (hpoint : style.keepsPoint = true) (h : 0 < d.mantissa) {s : Scaled}
    (hs : d.shortest style.tie = s) :
    ((style.numeral negative d).significand = s.coefficient ∧
        (style.numeral negative d).power = s.exponent ∧
        (0 ≤ s.exponent →
          style.positional (s.exponent + (digits s.coefficient).length - 1) = false)) ∨
      ((style.numeral negative d).significand = s.coefficient * 10 ^ (s.exponent.toNat + 1) ∧
        (style.numeral negative d).power = -1 ∧ 0 ≤ s.exponent ∧
        style.positional (s.exponent + (digits s.coefficient).length - 1) = true) := by
  have hlength := length_digits_pos s.coefficient
  rw [numeral_of_pos negative h hs]
  split
  · rename_i hpositional
    rcases lt_or_ge s.exponent 0 with hneg | hnonneg
    · left
      obtain ⟨hdigits, hplaces⟩ := places_of_neg (digits s.coefficient) hneg
      rw [padded_of_ne_nil (List.ne_nil_of_length_pos (by omega))]
      refine ⟨hdigits.trans (ofDigits_digits _), ?_, fun h => by omega⟩
      unfold Numeral.power
      simp only [Option.getD_none]
      omega
    · right
      obtain ⟨hwhole, hfraction⟩ := places_of_nonneg hlength hnonneg
      rw [hwhole, hfraction, padded_nil hpoint]
      refine ⟨?_, rfl, hnonneg, hpositional⟩
      unfold Numeral.significand
      simp only
      rw [List.append_assoc, ← List.replicate_succ', ofDigits_append_zeros, ofDigits_digits]
  · rename_i hpositional
    left
    refine ⟨?_, ?_, fun _ => by simpa using hpositional⟩
    · unfold Numeral.significand
      simp only
      rw [List.take_append_drop, ofDigits_digits]
    · unfold Numeral.power
      simp only [Option.getD_some, List.length_drop]
      omega

end Forms

end LuaChecker.Decimal
