import LuaChecker.Proofs.Decimal.Interval

/-!
# The search for the shortest decimal

The search succeeds: a grid that is finer than the interval around a double has a point in
it, and the search goes on to such grids. So the decimal that it finds rounds to the double.
The grid before had no such point, and therefore the coefficient is small.

* `shortestFrom_spec`: what the search finds;
* `rounds_shortest`: the shortest decimal rounds to the double;
* `shortest_coefficient_lt`, `shortest_exponent_ge`: it is not large, and not fine.
-/

namespace LuaChecker.Decimal

theorem lt_pow_length_digits (n : ℕ) : n < 10 ^ (digits n).length := by
  rw [digits]
  split
  · assumption
  · have ih := lt_pow_length_digits (n / 10)
    rw [List.length_append, List.length_singleton, pow_succ]
    omega

/-- The number that a decimal stands for. -/
def Scaled.value (s : Scaled) : ℚ :=
  s.coefficient * 10 ^ s.exponent

namespace Dyadic

variable {d : Dyadic} {tie : Tie} {e : ℤ} {c : ℕ}

/-! ## One grid -/

theorem below_le_value (d : Dyadic) (e : ℤ) : (d.below e : ℚ) * 10 ^ e ≤ d.value := by
  have h : d.below e * d.mesh e ≤ d.middle * d.quarter e := Nat.div_mul_le_self _ _
  rw [point_le_iff] at h
  unfold middle at h
  unfold value
  push_cast at h
  linarith

theorem mesh_pos (d : Dyadic) (e : ℤ) : 0 < d.mesh e := by
  unfold mesh
  simp only [Nat.pow_eq]
  positivity

theorem value_lt_below (d : Dyadic) (e : ℤ) : d.value < ((d.below e + 1 : ℕ) : ℚ) * 10 ^ e := by
  have h : d.middle * d.quarter e < (d.below e + 1) * d.mesh e :=
    Nat.lt_mul_of_div_lt (Nat.lt_succ_self _) (d.mesh_pos e)
  rw [← not_le, point_le_iff, not_le] at h
  unfold middle at h
  unfold value
  push_cast at h ⊢
  linarith

theorem nearer_eq (tie : Tie) (d : Dyadic) (e : ℤ) :
    d.nearer tie e = d.below e ∨ d.nearer tie e = d.below e + 1 := by
  unfold nearer
  simp only
  split
  · exact .inl rfl
  · split
    · exact .inr rfl
    · cases tie with
      | up => exact .inr rfl
      | toEven =>
        simp only
        split
        · exact .inl rfl
        · exact .inr rfl

/-- A point that is found on a grid rounds to the double. -/
theorem covers_of_onGrid? (h : d.onGrid? tie e = some c) : d.covers e c = true := by
  unfold onGrid? at h
  simp only at h
  cases hdown : d.covers e (d.below e) <;> cases hup : d.covers e (d.below e + 1) <;>
    rw [hdown, hup] at h
  case false.false => cases h
  case false.true =>
    cases h
    exact hup
  case true.false =>
    cases h
    exact hdown
  case true.true =>
    cases h
    rcases d.nearer_eq tie e with hc | hc <;> rw [hc] <;> assumption

theorem isSome_onGrid?_iff :
    (d.onGrid? tie e).isSome = true ↔
      d.covers e (d.below e) = true ∨ d.covers e (d.below e + 1) = true := by
  unfold onGrid?
  simp only
  cases d.covers e (d.below e) <;> cases d.covers e (d.below e + 1) <;> simp

/-- A grid that is finer than the interval around the double has a point in it. -/
theorem isSome_onGrid?_of_fine (tie : Tie) (hd : 0 < d.mantissa) (h : 4 * (10 : ℚ) ^ e < 3 * 2 ^ d.exponent) :
    (d.onGrid? tie e).isSome = true := by
  have hbelow := d.below_le_value e
  have habove := d.value_lt_below e
  have hlow : (d.low : ℚ) * 2 ^ d.exponent ≤ (4 * d.mantissa - 1) * 2 ^ d.exponent := by
    have : d.low + 1 ≤ 4 * d.mantissa := by
      unfold low
      split <;> omega
    have : (d.low : ℚ) + 1 ≤ 4 * d.mantissa := by exact_mod_cast this
    gcongr
    linarith
  have hhigh : (d.high : ℚ) * 2 ^ d.exponent = (4 * d.mantissa + 2) * 2 ^ d.exponent := by
    unfold high
    push_cast
    ring
  have hulp : (0 : ℚ) < 2 ^ d.exponent := by positivity
  unfold value at hbelow habove
  rw [isSome_onGrid?_iff, covers_iff, covers_iff]
  rcases lt_or_ge ((d.low : ℚ) * 2 ^ d.exponent) (4 * (d.below e * 10 ^ e)) with hin | hout
  · left
    refine ⟨hin.le, by linarith, ?_⟩
    rintro (hend | hend) <;> linarith
  · right
    push_cast at habove ⊢
    refine ⟨by linarith, by linarith, ?_⟩
    rintro (hend | hend) <;> linarith

/-- A grid without a point in the interval is not finer than that. -/
theorem coarse_of_onGrid?_eq_none (hpos : 0 < d.mantissa) (h : d.onGrid? tie e = none) :
    3 * 2 ^ d.exponent ≤ 4 * (10 : ℚ) ^ e := by
  by_contra hfine
  have hsome := isSome_onGrid?_of_fine tie hpos (not_le.mp hfine)
  rw [h] at hsome
  cases hsome

/-! ## The search -/

/-- The search finds a point on a grid if there is one within its reach, and the grid before
has none. -/
theorem shortestFrom_spec {e₀ : ℤ} (h₀ : (d.onGrid? tie e₀).isSome = true) (steps : ℕ) (e : ℤ)
    (hle : e₀ ≤ e) (hsteps : e < e₀ + steps) :
    d.covers (d.shortestFrom tie steps e).exponent (d.shortestFrom tie steps e).coefficient = true ∧
      e₀ ≤ (d.shortestFrom tie steps e).exponent ∧
      ((d.shortestFrom tie steps e).exponent = e ∨
        d.onGrid? tie ((d.shortestFrom tie steps e).exponent + 1) = none) := by
  induction steps generalizing e with
  | zero => omega
  | succ steps ih =>
    rw [shortestFrom]
    cases hc : d.onGrid? tie e with
    | some c => exact ⟨covers_of_onGrid? hc, hle, .inl rfl⟩
    | none =>
      have hne : e₀ ≠ e := by
        rintro rfl
        rw [hc] at h₀
        cases h₀
      obtain ⟨hcovers, hge, hlast⟩ := ih (e - 1) (by omega) (by omega)
      refine ⟨hcovers, hge, .inr ?_⟩
      rcases hlast with heq | hnone
      · simp only
        rw [heq, sub_add_cancel, hc]
      · exact hnone

/-- The search starts on a grid that is coarser than the double. -/
theorem value_lt_integralDigits (d : Dyadic) : d.value < 10 ^ d.integralDigits := by
  have hfloor := lt_pow_length_digits
    (d.mantissa * Nat.pow 2 d.exponent.toNat / Nat.pow 2 (-d.exponent).toNat)
  rw [Nat.div_lt_iff_lt_mul (by simp), Nat.pow_eq, Nat.pow_eq] at hfloor
  have hscaled : d.value * 2 ^ (-d.exponent).toNat = d.mantissa * 2 ^ d.exponent.toNat := by
    have hexponent : d.exponent + (-d.exponent).toNat = d.exponent.toNat := by omega
    unfold value
    rw [mul_assoc, ← zpow_natCast (2 : ℚ) (-d.exponent).toNat, ← zpow_add₀ (by norm_num),
      hexponent, zpow_natCast]
  have hfloor' : (d.mantissa : ℚ) * 2 ^ d.exponent.toNat <
      10 ^ d.integralDigits * 2 ^ (-d.exponent).toNat := by
    exact_mod_cast hfloor
  rw [← hscaled] at hfloor'
  exact lt_of_mul_lt_mul_right hfloor' (by positivity)

/-- The least exponent of a double is fine enough for the grid of `10 ^ -324`. -/
theorem fine_of_least (hleast : -1074 ≤ d.exponent) :
    4 * (10 : ℚ) ^ (-324 : ℤ) < 3 * 2 ^ d.exponent := by
  have hnat : 4 * 2 ^ 1074 < 3 * 10 ^ 324 := by decide +kernel
  have hrat : (4 : ℚ) * 2 ^ 1074 < 3 * 10 ^ 324 := by exact_mod_cast hnat
  calc 4 * (10 : ℚ) ^ (-324 : ℤ) < 3 * 2 ^ (-1074 : ℤ) := by
        rw [zpow_neg, zpow_neg, ← div_eq_mul_inv, ← div_eq_mul_inv,
          div_lt_div_iff₀ (by positivity) (by positivity)]
        exact hrat
    _ ≤ 3 * 2 ^ d.exponent := by
        have := zpow_le_zpow_right₀ (by norm_num : (1 : ℚ) ≤ 2) hleast
        gcongr

/-- A double from 1 on is fine enough for the grid of `10 ^ -16`. -/
theorem fine_of_one_le (hleast : -52 ≤ d.exponent) :
    4 * (10 : ℚ) ^ (-16 : ℤ) < 3 * 2 ^ d.exponent := by
  calc 4 * (10 : ℚ) ^ (-16 : ℤ) < 3 * 2 ^ (-52 : ℤ) := by norm_num
    _ ≤ 3 * 2 ^ d.exponent := by
        have := zpow_le_zpow_right₀ (by norm_num : (1 : ℚ) ≤ 2) hleast
        gcongr

/-! ## The size of the coefficient -/

section Coefficient

variable {s : Scaled} (hrounds : d.Rounds s.value)
include hrounds

theorem coefficient_mul_le :
    (4 : ℚ) * (s.coefficient * 10 ^ s.exponent) ≤ (4 * d.mantissa + 2) * 2 ^ d.exponent := by
  have hhigh := hrounds.le_high
  unfold Scaled.value high at hhigh
  push_cast at hhigh
  exact hhigh

/-- On the grid that the search starts on there is only one point but zero. -/
theorem coefficient_lt_of_first (hpos : 0 < d.mantissa) (hfirst : s.exponent = d.integralDigits) :
    s.coefficient < 2 := by
  have hhigh := coefficient_mul_le hrounds
  have hvalue := d.value_lt_integralDigits
  rw [← zpow_natCast, ← hfirst] at hvalue
  unfold value at hvalue
  have hgrid : (0 : ℚ) < 10 ^ s.exponent := by positivity
  have hone : (1 : ℚ) ≤ d.mantissa := by exact_mod_cast hpos
  have hulp : (2 : ℚ) * 2 ^ d.exponent ≤ 2 * (d.mantissa * 2 ^ d.exponent) := by
    rw [← mul_assoc]
    gcongr
    linarith
  have htwo : (s.coefficient : ℚ) * 10 ^ s.exponent < 2 * 10 ^ s.exponent := by linarith
  have hlt : (s.coefficient : ℚ) < 2 := lt_of_mul_lt_mul_right htwo hgrid.le
  exact_mod_cast hlt

/-- On a later grid the interval has few points, because the grid before is too coarse. -/
theorem coefficient_lt_of_coarse (hmantissa : d.mantissa < 2 ^ 53)
    (hcoarse : 3 * 2 ^ d.exponent ≤ 4 * (10 : ℚ) ^ (s.exponent + 1)) :
    s.coefficient < 2 ^ 57 := by
  have hhigh := coefficient_mul_le hrounds
  rw [zpow_add_one₀ (by norm_num)] at hcoarse
  have hgrid : (0 : ℚ) < 10 ^ s.exponent := by positivity
  have hmantissa : (d.mantissa : ℚ) + 1 ≤ 2 ^ 53 := by exact_mod_cast hmantissa
  have hinterval : (4 * d.mantissa + 2 : ℚ) * 2 ^ d.exponent ≤ 2 ^ 55 * 2 ^ d.exponent := by
    gcongr
    linarith
  have hbound : (s.coefficient : ℚ) * 10 ^ s.exponent < 2 ^ 57 * 10 ^ s.exponent := by linarith
  have hlt : (s.coefficient : ℚ) < 2 ^ 57 := lt_of_mul_lt_mul_right hbound hgrid.le
  exact_mod_cast hlt

end Coefficient

/-! ## The decimal that is found -/

section Shortest

variable (hd : d.IsDouble) (hpos : 0 < d.mantissa) (tie : Tie)
include hpos

/-- The decimal that is found, if the grid of `10 ^ e₀` is fine enough. -/
theorem shortest_spec {e₀ : ℤ} (hfine : 4 * (10 : ℚ) ^ e₀ < 3 * 2 ^ d.exponent)
    (hle : e₀ ≤ 0) (hge : -324 ≤ e₀) :
    d.Rounds (d.shortest tie).value ∧ e₀ ≤ (d.shortest tie).exponent ∧
      ((d.shortest tie).exponent = d.integralDigits ∨
        d.onGrid? tie ((d.shortest tie).exponent + 1) = none) := by
  have h := shortestFrom_spec (isSome_onGrid?_of_fine tie hpos hfine)
    (d.integralDigits + 1100) d.integralDigits (by omega) (by push_cast; omega)
  rw [covers_iff] at h
  exact h

theorem shortest_exponent_ge_of_one_le (hleast : -52 ≤ d.exponent) :
    -16 ≤ (d.shortest tie).exponent :=
  (shortest_spec hpos tie (fine_of_one_le hleast) (by decide) (by decide)).2.1

include hd

/-- The shortest decimal of a double rounds to it. -/
theorem rounds_shortest : d.Rounds (d.shortest tie).value :=
  (shortest_spec hpos tie (fine_of_least hd.least_le) (by decide) (by decide)).1

theorem shortest_exponent_ge : -324 ≤ (d.shortest tie).exponent :=
  (shortest_spec hpos tie (fine_of_least hd.least_le) (by decide) (by decide)).2.1

theorem shortest_coefficient_pos : 0 < (d.shortest tie).coefficient := by
  have hvalue := (rounds_shortest hd hpos tie).pos hpos
  unfold Scaled.value at hvalue
  rw [mul_pos_iff_of_pos_right (by positivity), Nat.cast_pos] at hvalue
  exact hvalue

/-- On the finest grid that is ever needed the least double is not next to zero. -/
theorem three_le_shortest_coefficient (hleast : (d.shortest tie).exponent = -324) :
    3 ≤ (d.shortest tie).coefficient := by
  have hlow := (rounds_shortest hd hpos tie).low_le
  unfold Scaled.value at hlow
  rw [hleast] at hlow
  have hquarters : ((2 : ℕ) : ℚ) ≤ d.low := by
    have := low_ge d
    exact_mod_cast (by omega : 2 ≤ d.low)
  have hulp : (2 : ℚ) ^ (-1074 : ℤ) ≤ 2 ^ d.exponent :=
    zpow_le_zpow_right₀ (by norm_num) hd.least_le
  have hle : (2 : ℚ) * 2 ^ (-1074 : ℤ) ≤ 4 * ((d.shortest tie).coefficient * 10 ^ (-324 : ℤ)) :=
    le_trans (mul_le_mul hquarters hulp (by positivity) (by positivity)) hlow
  rw [zpow_neg, zpow_neg, zpow_ofNat, zpow_ofNat, ← div_eq_mul_inv, ← div_eq_mul_inv,
    mul_div_assoc', div_le_div_iff₀ (by positivity) (by positivity)] at hle
  have hnat : 2 * 10 ^ 324 ≤ 4 * (d.shortest tie).coefficient * 2 ^ 1074 := by exact_mod_cast hle
  by_contra hsmall
  have hbound : 4 * (d.shortest tie).coefficient * 2 ^ 1074 ≤ 8 * 2 ^ 1074 :=
    Nat.mul_le_mul_right _ (by omega)
  exact absurd (hnat.trans hbound) (by decide +kernel)

/-- The coefficient of the shortest decimal has at most 57 bits. -/
theorem shortest_coefficient_lt : (d.shortest tie).coefficient < 2 ^ 57 := by
  obtain ⟨hrounds, -, hlast⟩ :=
    shortest_spec hpos tie (fine_of_least hd.least_le) (by decide) (by decide)
  rcases hlast with hfirst | hnone
  · have hsmall := coefficient_lt_of_first hrounds hpos hfirst
    omega
  · have hcoarse := coarse_of_onGrid?_eq_none hpos hnone
    exact coefficient_lt_of_coarse hrounds hd.mantissa_lt hcoarse

end Shortest

end Dyadic

end LuaChecker.Decimal
