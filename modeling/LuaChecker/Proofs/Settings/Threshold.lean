import LuaChecker.Proofs.Json.Double
import LuaChecker.Settings.File

/-!
# Thresholds in settings files

A threshold is written as the shortest decimal that identifies it. What is read from that
decimal is the same threshold if the integer and the power of ten of the decimal are doubles;
in any case a share is read as a share, and what is no share is not read as one.

* `double?_share`, `double?_exact`: shares;
* `double?_negative`, `double?_large`: thresholds that are refused.
-/

namespace LuaChecker.Settings

open Decimal Json

/-! ## The integer and the power of ten -/

theorem positional_iff (e : ℤ) : fileStyle.positional e = true ↔ -5 ≤ e ∧ e ≤ 15 := by
  change (decide (-5 ≤ e) && decide (e ≤ 15)) = true ↔ _
  rw [Bool.and_eq_true, decide_eq_true_eq, decide_eq_true_eq]

section Forms

variable {d : Decimal.Dyadic} (hd : d.IsDouble) (hpos : 0 < d.mantissa) (negative : Bool)
  {s : Scaled} (hs : d.shortest .toEven = s)
include hd hpos hs

/-- A threshold is written with the digits of its shortest decimal. They have zeros behind
them if it is a whole number with all its places, which is not large; a whole number that is
written with an exponent is large. -/
theorem threshold_forms :
    ((fileStyle.numeral negative d).significand = s.coefficient ∧
        (fileStyle.numeral negative d).power = s.exponent ∧
        ∀ k : ℕ, s.exponent = k → 10 ^ 16 ≤ s.coefficient * 10 ^ k) ∨
      ∃ k : ℕ, s.exponent = k ∧
        (fileStyle.numeral negative d).significand = s.coefficient * 10 ^ (k + 1) ∧
        s.coefficient * 10 ^ k < 10 ^ 16 ∧ (fileStyle.numeral negative d).power = -1 := by
  have hcoefficient : 0 < s.coefficient := hs ▸ Dyadic.shortest_coefficient_pos hd hpos .toEven
  have hlength := length_digits_pos s.coefficient
  rcases numeral_forms negative (rfl : fileStyle.keepsPoint = true) hpos hs with
    ⟨hinteger, hpower, hplaces⟩ | ⟨hinteger, hpower, hnonneg, hplaces⟩
  · refine .inl ⟨hinteger, hpower, fun k hk => ?_⟩
    have hplaces := hplaces (by omega)
    rw [← Bool.not_eq_true, positional_iff] at hplaces
    calc 10 ^ 16 ≤ 10 ^ ((digits s.coefficient).length - 1 + k) :=
          Nat.pow_le_pow_right (by decide) (by omega)
      _ ≤ s.coefficient * 10 ^ k := by
          rw [pow_add]
          exact Nat.mul_le_mul_right _ (pow_le_of_digits hcoefficient)
  · right
    obtain ⟨k, hk⟩ := Int.eq_ofNat_of_zero_le hnonneg
    rw [hk, Int.toNat_natCast] at hinteger
    rw [positional_iff] at hplaces
    refine ⟨k, hk, hinteger, ?_, hpower⟩
    calc s.coefficient * 10 ^ k < 10 ^ (digits s.coefficient).length * 10 ^ k := by
          have := lt_pow_length_digits s.coefficient
          gcongr
      _ ≤ 10 ^ 16 := by
          rw [← pow_add]
          exact Nat.pow_le_pow_right (by decide) (by omega)

/-- A share below 1 is divided by a power of ten when it is read. -/
theorem share_forms (hlt : d.value < 1) :
    ∃ k : ℕ, s.exponent = -k ∧ 0 < k ∧ k ≤ 324 ∧ s.coefficient ≤ 10 ^ k ∧
      (fileStyle.numeral negative d).significand = s.coefficient ∧
      (fileStyle.numeral negative d).power = -k := by
  have hcoefficient : 0 < s.coefficient := hs ▸ Dyadic.shortest_coefficient_pos hd hpos .toEven
  have hrounds : d.Rounds s.value := hs ▸ Dyadic.rounds_shortest hd hpos .toEven
  have hfine : -324 ≤ s.exponent := hs ▸ Dyadic.shortest_exponent_ge hd hpos .toEven
  have hvalue : s.value < 1 := by
    by_contra hge
    exact absurd (one_le_value hd hrounds (not_lt.mp hge)) hlt.not_ge
  have hexponent : s.exponent < 0 := by
    by_contra hnonneg
    obtain ⟨k, hk⟩ := Int.eq_ofNat_of_zero_le (not_lt.mp hnonneg)
    have hone : (1 : ℚ) ≤ (s.coefficient * 10 ^ k : ℕ) := by
      exact_mod_cast Nat.one_le_iff_ne_zero.mpr (by positivity)
    unfold Scaled.value at hvalue
    rw [hk, zpow_natCast] at hvalue
    push_cast at hone
    linarith
  obtain ⟨k, hk⟩ := Int.eq_ofNat_of_zero_le (a := -s.exponent) (by omega)
  have hk : s.exponent = -k := by omega
  have hle : s.coefficient ≤ 10 ^ k := by
    unfold Scaled.value at hvalue
    rw [hk, zpow_neg, zpow_natCast, ← div_eq_mul_inv, div_lt_one (by positivity)] at hvalue
    exact_mod_cast hvalue.le
  rcases threshold_forms hd hpos negative hs with ⟨hinteger, hpower, -⟩ | ⟨j, hj, -⟩
  · exact ⟨k, hk, by omega, by omega, hle, hinteger, hpower.trans hk⟩
  · omega

end Forms

/-! ## What is read -/

/-- One is read as one. -/
theorem double?_one :
    double? (fileStyle.numeral false (.reduced 1 0)) =
      some ((Dyadic.reduced 1 0).toFloat false) := by
  have hnumeral : fileStyle.numeral false (.reduced 1 0) = ⟨false, [1], [0], none⟩ := by
    decide +kernel
  have hinteger : (Numeral.mk false [1] [0] none).significand = 10 := by decide
  have hpower : (Numeral.mk false [1] [0] none).power = -(1 : ℕ) := by decide
  have hrounds : (Dyadic.reduced 1 0).Rounds ((10 : ℕ) * 10 ^ (-(1 : ℕ) : ℤ)) := by
    have : ((10 : ℕ) : ℚ) * 10 ^ (-(1 : ℕ) : ℤ) = (Dyadic.reduced 1 0).value := by
      rw [value_one]
      norm_num
    rw [this]
    exact Dyadic.rounds_value _
  rw [hnumeral]
  refine double?_of_scale? (by rw [hinteger]; decide) ⟨isDouble_one, by decide⟩ ?_
  rw [hinteger, hpower]
  exact scale?_exact isDouble_one (by decide) (by decide) (by decide) (by decide) hrounds

theorem reduced_one : Dyadic.reduced 1 0 = ⟨2 ^ 52, -52⟩ := rfl

section Read

variable {d : Decimal.Dyadic} (hd : d.Fits)
include hd

/-- Zero is read with its sign. -/
theorem double?_zero (negative : Bool) (hzero : d.mantissa = 0) :
    double? (fileStyle.numeral negative d) = some (d.toFloat negative) := by
  have hd : d = .zero :=
    Dyadic.eq_of_value_eq hd.toIsDouble Dyadic.isDouble_zero
      ((Dyadic.value_eq_zero hzero).trans (Dyadic.value_eq_zero rfl).symm)
  have hinteger : (Numeral.mk negative [Digit.zero] [Digit.zero] none).significand = 0 := rfl
  have hscale := scale?_zero (k := 1) (by decide) (by decide)
  rw [← hinteger] at hscale
  rw [hd, numeral_zero negative rfl rfl]
  exact double?_of_scale? (by rw [hinteger]; decide) ⟨Dyadic.isDouble_zero, by decide⟩ hscale

theorem eq_one_of_value_eq (h : d.value = 1) : d = .reduced 1 0 :=
  Dyadic.eq_of_value_eq hd.toIsDouble isDouble_one (h.trans value_one.symm)

/-- A share is read as the same share if its integer and its power of ten are doubles. -/
theorem double?_exact (hpos : 0 < d.mantissa) (hle : d.value ≤ 1)
    (hinteger : (d.shortest .toEven).coefficient ≤ 2 ^ 53)
    (hpower : -22 ≤ (d.shortest .toEven).exponent) :
    double? (fileStyle.numeral false d) = some (d.toFloat false) := by
  rcases hle.lt_or_eq with hlt | heq
  · obtain ⟨k, hk, hkpos, -, -, hsignificand, hkpower⟩ :=
      share_forms hd.toIsDouble hpos false rfl hlt
    have hcoefficient := Dyadic.shortest_coefficient_pos hd.toIsDouble hpos .toEven
    have hrounds := Dyadic.rounds_shortest hd.toIsDouble hpos .toEven
    unfold Scaled.value at hrounds
    rw [hk] at hrounds
    have hscale := scale?_exact hd.toIsDouble hcoefficient hinteger hkpos (by omega) hrounds
    rw [← hsignificand, ← hkpower] at hscale
    have := double?_of_scale? (by omega) hd hscale
    rwa [negative_numeral] at this
  · rw [eq_one_of_value_eq hd heq, double?_one]

/-- A share is read as a share. -/
theorem double?_share (hpos : 0 < d.mantissa) (hle : d.value ≤ 1) :
    ∃ q : Decimal.Dyadic, q.Fits ∧ q.value ≤ 1 ∧
      double? (fileStyle.numeral false d) = some (q.toFloat false) := by
  rcases hle.lt_or_eq with hlt | heq
  · obtain ⟨k, -, hkpos, hkle, hkcoefficient, hsignificand, hkpower⟩ :=
      share_forms hd.toIsDouble hpos false rfl hlt
    have hcoefficient := Dyadic.shortest_coefficient_pos hd.toIsDouble hpos .toEven
    have hbits := Dyadic.shortest_coefficient_lt hd.toIsDouble hpos .toEven
    obtain ⟨q, hq, hqle, hscale⟩ :=
      scale?_le_one hcoefficient (by omega) hkpos (by omega) hkcoefficient
    refine ⟨q, hq, hqle, ?_⟩
    rw [← hsignificand, ← hkpower] at hscale
    have := double?_of_scale? (by omega) hq hscale
    rwa [negative_numeral] at this
  · exact ⟨d, hd, hle, by rw [eq_one_of_value_eq hd heq, double?_one]⟩

/-- A whole number that is written with an exponent is read as more than 1, or not at all. -/
theorem double?_whole (negative : Bool) (hpos : 0 < d.mantissa) {k : ℕ}
    (hinteger : (fileStyle.numeral negative d).significand = (d.shortest .toEven).coefficient)
    (hpower : (fileStyle.numeral negative d).power = k)
    (hlarge : 10 ^ 16 ≤ (d.shortest .toEven).coefficient * 10 ^ k) :
    double? (fileStyle.numeral negative d) = none ∨
      ∃ q : Decimal.Dyadic, q.Fits ∧ 1 < q.value ∧
        double? (fileStyle.numeral negative d) = some (q.toFloat negative) := by
  have hcoefficient := Dyadic.shortest_coefficient_pos hd.toIsDouble hpos .toEven
  have hbits := Dyadic.shortest_coefficient_lt hd.toIsDouble hpos .toEven
  have hscale := scale?_whole hcoefficient (by omega) (k := k) (by omega)
  rw [← hinteger, ← hpower] at hscale
  rcases hscale with hscale | ⟨q, hq, hgt, hscale⟩
  · exact .inl (double?_of_scale?_none (by omega) hscale)
  · refine .inr ⟨q, hq, hgt, ?_⟩
    have := double?_of_scale? (by omega) hq hscale
    rwa [negative_numeral] at this

/-- What is read from a threshold, by the way it is written: with places behind the point, as
a whole number with all its places, or as a large number with an exponent. -/
theorem double?_of_forms {P : Decimal.Dyadic → Prop} (negative : Bool) (hpos : 0 < d.mantissa)
    (hdivided : ∀ k : ℕ, 0 < k → (d.shortest .toEven).exponent = -k →
      ∃ q : Decimal.Dyadic, q.Fits ∧ P q ∧
        scale? (d.shortest .toEven).coefficient.toUInt64.toFloat (-k) = some (q.toFloat false))
    (hplaces : ∀ k : ℕ, (d.shortest .toEven).exponent = k →
      (d.shortest .toEven).coefficient * 10 ^ (k + 1) < 2 ^ 64 →
      ∃ q : Decimal.Dyadic, q.Fits ∧ P q ∧
        scale? ((d.shortest .toEven).coefficient * 10 ^ (k + 1)).toUInt64.toFloat (-(1 : ℕ)) =
          some (q.toFloat false))
    (hlarge : ∀ q : Decimal.Dyadic, 1 < q.value → P q) :
    double? (fileStyle.numeral negative d) = none ∨
      ∃ q : Decimal.Dyadic, q.Fits ∧ P q ∧
        double? (fileStyle.numeral negative d) = some (q.toFloat negative) := by
  have hbits := Dyadic.shortest_coefficient_lt hd.toIsDouble hpos .toEven
  rcases threshold_forms hd.toIsDouble hpos negative rfl with
    ⟨hinteger, hpower, hwhole⟩ | ⟨k, hk, hinteger, hsmall, hpower⟩
  · rcases lt_or_ge (d.shortest .toEven).exponent 0 with hneg | hnonneg
    · obtain ⟨k, hk⟩ := Int.eq_ofNat_of_zero_le (a := -(d.shortest .toEven).exponent) (by omega)
      obtain ⟨q, hq, hP, hscale⟩ := hdivided k (by omega) (by omega)
      have hpower : (fileStyle.numeral negative d).power = -k := by omega
      rw [← hinteger, ← hpower] at hscale
      have hread := double?_of_scale? (by omega) hq hscale
      rw [negative_numeral] at hread
      exact .inr ⟨q, hq, hP, hread⟩
    · obtain ⟨k, hk⟩ := Int.eq_ofNat_of_zero_le hnonneg
      refine (double?_whole hd negative hpos hinteger (hpower.trans hk) (hwhole k hk)).imp_right ?_
      rintro ⟨q, hq, hgt, hread⟩
      exact ⟨q, hq, hlarge q hgt, hread⟩
  · have hroom : (d.shortest .toEven).coefficient * 10 ^ (k + 1) < 2 ^ 64 := by
      rw [pow_succ, ← mul_assoc]
      omega
    obtain ⟨q, hq, hP, hscale⟩ := hplaces k hk hroom
    have hpower : (fileStyle.numeral negative d).power = -(1 : ℕ) := hpower
    rw [← hinteger, ← hpower] at hscale
    have hread := double?_of_scale? (hinteger ▸ hroom) hq hscale
    rw [negative_numeral] at hread
    exact .inr ⟨q, hq, hP, hread⟩

/-- A negative threshold is read as a negative one, or not at all. -/
theorem double?_negative (hpos : 0 < d.mantissa) :
    double? (fileStyle.numeral true d) = none ∨
      ∃ q : Decimal.Dyadic, q.Fits ∧ 0 < q.mantissa ∧
        double? (fileStyle.numeral true d) = some (q.toFloat true) := by
  have hcoefficient := Dyadic.shortest_coefficient_pos hd.toIsDouble hpos .toEven
  have hbits := Dyadic.shortest_coefficient_lt hd.toIsDouble hpos .toEven
  have hfine := Dyadic.shortest_exponent_ge hd.toIsDouble hpos .toEven
  refine double?_of_forms hd true hpos (fun k hkpos hk => ?_) (fun k _ hroom => ?_) fun q hgt => ?_
  · exact scale?_pos hcoefficient (by omega) hkpos (by omega) fun h =>
      Dyadic.three_le_shortest_coefficient hd.toIsDouble hpos .toEven (by omega)
  · exact scale?_pos (by positivity) hroom (by decide) (by decide) (by omega)
  · exact Dyadic.value_pos_iff.mp (by linarith)

/-- The shortest decimal of a number over 1 exceeds 1 by more than half of the last place of 1,
because 1 has an even mantissa. -/
theorem shortest_gt (hgt : 1 < d.value) : 1 + 2 ^ (-53 : ℤ) < (d.shortest .toEven).value := by
  have hpos : 0 < d.mantissa := Dyadic.value_pos_iff.mp (by linarith)
  have hrounds := Dyadic.rounds_shortest hd.toIsDouble hpos .toEven
  have hone : (Dyadic.reduced 1 0).Rounds (1 + 2 ^ (-53 : ℤ)) := by
    rw [reduced_one]
    refine ⟨?_, ?_, ?_⟩ <;> norm_num [Dyadic.low, Dyadic.high, Dyadic.isNarrow]
  by_contra hle
  have := hrounds.value_le hd.toIsDouble isDouble_one hone (not_lt.mp hle)
  rw [value_one] at this
  linarith

/-- The digits of a number over 1 exceed the power of ten that they are divided by. -/
theorem coefficient_gt (hgt : 1 < d.value) {k : ℕ} (hk : (d.shortest .toEven).exponent = -k) :
    10 ^ k < (d.shortest .toEven).coefficient ∧
      (k = 16 → 10 ^ 16 + 2 ≤ (d.shortest .toEven).coefficient) := by
  have hvalue := shortest_gt hd hgt
  unfold Scaled.value at hvalue
  rw [hk, zpow_neg (10 : ℚ), zpow_natCast, ← div_eq_mul_inv, lt_div_iff₀ (by positivity)] at hvalue
  constructor
  · have : (10 : ℚ) ^ k < (d.shortest .toEven).coefficient := by
      have : (0 : ℚ) < 2 ^ (-53 : ℤ) * 10 ^ k := by positivity
      linarith
    exact_mod_cast this
  · rintro rfl
    have hexcess : ((10 ^ 16 + 1 : ℕ) : ℚ) < (1 + 2 ^ (-53 : ℤ)) * 10 ^ 16 := by norm_num
    have : 10 ^ 16 + 1 < (d.shortest .toEven).coefficient := by
      exact_mod_cast hexcess.trans hvalue
    omega

theorem exponent_ge_of_one_lt (hgt : 1 < d.value) : -52 ≤ d.exponent := by
  rw [← value_one, Dyadic.value_lt_iff isDouble_one hd.toIsDouble, reduced_one] at hgt
  simp only at hgt
  omega

/-- A threshold over 1 is read as one over 1, or not at all. -/
theorem double?_large (hgt : 1 < d.value) :
    double? (fileStyle.numeral false d) = none ∨
      ∃ q : Decimal.Dyadic, q.Fits ∧ 1 < q.value ∧
        double? (fileStyle.numeral false d) = some (q.toFloat false) := by
  have hpos : 0 < d.mantissa := Dyadic.value_pos_iff.mp (by linarith)
  have hbits := Dyadic.shortest_coefficient_lt hd.toIsDouble hpos .toEven
  have hfine := Dyadic.shortest_exponent_ge_of_one_le hpos .toEven (exponent_ge_of_one_lt hd hgt)
  refine double?_of_forms hd false hpos (fun k hkpos hk => ?_) (fun k hk hroom => ?_)
    fun q hq => hq
  · obtain ⟨hlarge, hsixteen⟩ := coefficient_gt hd hgt hk
    exact scale?_gt_one (by omega) hkpos (by omega) hlarge hsixteen
  · have hten : (d.shortest .toEven).coefficient * 10 ^ (k + 1) =
        (d.shortest .toEven).coefficient * 10 ^ k * 10 := by rw [pow_succ, mul_assoc]
    have hvalue := shortest_gt hd hgt
    have hone : 1 < (d.shortest .toEven).coefficient * 10 ^ k := by
      unfold Scaled.value at hvalue
      rw [hk, zpow_natCast] at hvalue
      have : (0 : ℚ) < 2 ^ (-53 : ℤ) := by positivity
      have : (1 : ℚ) < ((d.shortest .toEven).coefficient * 10 ^ k : ℕ) := by
        push_cast
        linarith
      exact_mod_cast this
    exact scale?_gt_one hroom (by decide) (by decide) (by omega) (by omega)

end Read

end LuaChecker.Settings
