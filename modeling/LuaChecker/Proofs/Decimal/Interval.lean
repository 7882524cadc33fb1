import LuaChecker.Decimal.Shortest
import Mathlib.Algebra.Order.Field.Power
import Mathlib.Algebra.Order.Field.Rat
import Mathlib.Tactic.FieldSimp
import Mathlib.Tactic.Linarith
import Mathlib.Tactic.Positivity
import Mathlib.Tactic.Ring

/-!
# The numbers that round to a double

Around every double there is the interval of the numbers that round to it. The intervals of
two doubles do not overlap: where they meet, one of the two has an odd mantissa and does not
have its end. So rounding keeps the order, and it is enough to know one number that rounds
to a double to know the double.

* `Dyadic.IsDouble`: the reduced form of a double;
* `Dyadic.Rounds`: a number rounds to a double;
* `covers_iff`: the test of the search for the shortest decimal is this relation;
* `Rounds.value_le`: rounding keeps the order;
* `Rounds.unique`: a number rounds to one double only.
-/

namespace LuaChecker.Decimal.Dyadic

/-! ## Values -/

/-- The number that a double stands for. -/
def value (d : Dyadic) : ℚ :=
  d.mantissa * 2 ^ d.exponent

/-- A mantissa of at most 53 bits. It has fewer bits only if the exponent is the least one.
How great the exponent may be is left open. -/
structure IsDouble (d : Dyadic) : Prop where
  mantissa_lt : d.mantissa < 2 ^ 53
  least_le : -1074 ≤ d.exponent
  full : d.exponent = -1074 ∨ 2 ^ 52 ≤ d.mantissa

/-- A double that is not too large. -/
structure Fits (d : Dyadic) : Prop extends d.IsDouble where
  exponent_le : d.exponent ≤ 971

theorem value_nonneg (d : Dyadic) : 0 ≤ d.value := by
  unfold value
  positivity

theorem value_pos_iff {d : Dyadic} : 0 < d.value ↔ 0 < d.mantissa := by
  unfold value
  rw [mul_pos_iff_of_pos_right (by positivity), Nat.cast_pos]

theorem two_mul_zpow_le {e e' : ℤ} (h : e < e') : 2 * (2 : ℚ) ^ e ≤ 2 ^ e' := by
  rw [← zpow_one_add₀ (by norm_num)]
  exact zpow_le_zpow_right₀ (by norm_num) (by omega)

/-! ## Ends of the intervals -/

theorem isNarrow_iff {d : Dyadic} :
    d.isNarrow = true ↔ d.mantissa = 2 ^ 52 ∧ -1074 < d.exponent := by
  simp [isNarrow]

theorem low_le_middle (d : Dyadic) : d.low ≤ d.middle := by
  unfold low middle
  omega

theorem middle_lt_high (d : Dyadic) : d.middle < d.high := by
  unfold middle high
  omega

theorem low_ge (d : Dyadic) : 4 * d.mantissa - 2 ≤ d.low := by
  unfold low
  split <;> omega

/-- The lower end of a double with all its bits: there is more room above it than below it
only if it is narrow. -/
theorem low_ge_of_full {d : Dyadic} (h : 2 ^ 52 ≤ d.mantissa) (hleast : -1074 < d.exponent) :
    2 ^ 54 - 1 ≤ d.low := by
  unfold low
  by_cases hnarrow : d.isNarrow = true
  · rw [if_pos hnarrow]
    omega
  · have : d.mantissa ≠ 2 ^ 52 := fun hm => hnarrow (isNarrow_iff.mpr ⟨hm, hleast⟩)
    rw [if_neg hnarrow]
    omega

namespace IsDouble

variable {d d' : Dyadic}

/-- The upper end of a double is at most the lower end of one with a greater exponent, and an
even one does not reach it. -/
theorem high_le_low_of_exponent_lt (hd : d.IsDouble) (hd' : d'.IsDouble)
    (h : d.exponent < d'.exponent) :
    (d.high : ℚ) * 2 ^ d.exponent ≤ d'.low * 2 ^ d'.exponent ∧
      (d.mantissa % 2 = 0 → (d.high : ℚ) * 2 ^ d.exponent < d'.low * 2 ^ d'.exponent) := by
  have hleast := hd.least_le
  have hmantissa := hd.mantissa_lt
  have hfull : 2 ^ 52 ≤ d'.mantissa := hd'.full.resolve_left (by omega)
  have hlow : ((2 ^ 54 - 1 : ℕ) : ℚ) ≤ d'.low :=
    Nat.cast_le.mpr (low_ge_of_full hfull (by omega))
  have hbetween : ((2 ^ 55 - 2 : ℕ) : ℚ) * 2 ^ d.exponent ≤ d'.low * 2 ^ d'.exponent :=
    calc ((2 ^ 55 - 2 : ℕ) : ℚ) * 2 ^ d.exponent
        = (2 ^ 54 - 1 : ℕ) * (2 * 2 ^ d.exponent) := by
          norm_num
          ring
      _ ≤ d'.low * 2 ^ d'.exponent :=
          mul_le_mul hlow (two_mul_zpow_le h) (by positivity) (by positivity)
  constructor
  · have hhigh : d.high ≤ 2 ^ 55 - 2 := by
      unfold high
      omega
    exact le_trans (by gcongr) hbetween
  · intro heven
    have hhigh : d.high < 2 ^ 55 - 2 := by
      unfold high
      omega
    exact lt_of_lt_of_le (by gcongr) hbetween

end IsDouble

/-- The same for two doubles with the same exponent. -/
theorem high_le_low_of_mantissa_lt {d d' : Dyadic} (hexponent : d.exponent = d'.exponent)
    (h : d.mantissa < d'.mantissa) :
    (d.high : ℚ) * 2 ^ d.exponent ≤ d'.low * 2 ^ d'.exponent ∧
      (d.mantissa % 2 = 0 → d'.mantissa % 2 = 0 →
        (d.high : ℚ) * 2 ^ d.exponent < d'.low * 2 ^ d'.exponent) := by
  have hlow := low_ge d'
  rw [hexponent]
  constructor
  · have : d.high ≤ d'.low := by
      unfold high
      omega
    gcongr
  · intro heven heven'
    have : d.high < d'.low := by
      unfold high
      omega
    gcongr

/-! ## Order of doubles -/

section Order

variable {d d' : Dyadic}

theorem value_lt_of_exponent_lt (hd : d.IsDouble) (hd' : d'.IsDouble)
    (h : d.exponent < d'.exponent) : d.value < d'.value := by
  have hends := (hd.high_le_low_of_exponent_lt hd' h).1
  have hmiddle : (d.middle : ℚ) * 2 ^ d.exponent < d.high * 2 ^ d.exponent := by
    have := middle_lt_high d
    gcongr
  have hmiddle' : (d'.low : ℚ) * 2 ^ d'.exponent ≤ d'.middle * 2 ^ d'.exponent := by
    have := low_le_middle d'
    gcongr
  unfold middle at hmiddle hmiddle'
  push_cast at hmiddle hmiddle'
  unfold value
  linarith

theorem value_lt_iff_of_exponent_eq (h : d.exponent = d'.exponent) :
    d.value < d'.value ↔ d.mantissa < d'.mantissa := by
  unfold value
  rw [h, mul_lt_mul_iff_left₀ (by positivity), Nat.cast_lt]

/-- A double is less than another one if its exponent is, or else its mantissa. -/
theorem value_lt_iff (hd : d.IsDouble) (hd' : d'.IsDouble) :
    d.value < d'.value ↔
      d.exponent < d'.exponent ∨ d.exponent = d'.exponent ∧ d.mantissa < d'.mantissa := by
  rcases lt_trichotomy d.exponent d'.exponent with hlt | heq | hgt
  · exact iff_of_true (value_lt_of_exponent_lt hd hd' hlt) (.inl hlt)
  · rw [value_lt_iff_of_exponent_eq heq]
    omega
  · have := value_lt_of_exponent_lt hd' hd hgt
    exact iff_of_false (lt_asymm this) (by omega)

theorem eq_of_value_eq (hd : d.IsDouble) (hd' : d'.IsDouble) (h : d.value = d'.value) :
    d = d' := by
  have hnot : ¬ d.value < d'.value := h.not_lt
  have hnot' : ¬ d'.value < d.value := h.symm.not_lt
  rw [value_lt_iff hd hd'] at hnot
  rw [value_lt_iff hd' hd] at hnot'
  rcases d with ⟨mantissa, exponent⟩
  rcases d' with ⟨mantissa', exponent'⟩
  simp only at hnot hnot'
  obtain rfl : exponent = exponent' := by omega
  obtain rfl : mantissa = mantissa' := by omega
  rfl

end Order

/-! ## Rounding -/

/-- A number rounds to a double: it lies between the ends of the interval around the double,
and it is an end only if the mantissa is even. -/
structure Rounds (d : Dyadic) (v : ℚ) : Prop where
  low_le : d.low * 2 ^ d.exponent ≤ 4 * v
  le_high : 4 * v ≤ d.high * 2 ^ d.exponent
  even : 4 * v = d.low * 2 ^ d.exponent ∨ 4 * v = d.high * 2 ^ d.exponent →
    d.mantissa % 2 = 0

/-- A double rounds to itself. -/
theorem rounds_value (d : Dyadic) : d.Rounds d.value := by
  have hmiddle : 4 * d.value = d.middle * 2 ^ d.exponent := by
    unfold value middle
    push_cast
    ring
  have hlow := low_le_middle d
  have hhigh := middle_lt_high d
  refine ⟨?_, ?_, ?_⟩
  · rw [hmiddle]
    gcongr
  · rw [hmiddle]
    gcongr
  · rw [hmiddle, mul_left_inj' (by positivity), mul_left_inj' (by positivity), Nat.cast_inj,
      Nat.cast_inj]
    unfold middle low at *
    split <;> omega

def zero : Dyadic := ⟨0, -1074⟩

theorem value_eq_zero {d : Dyadic} (h : d.mantissa = 0) : d.value = 0 := by
  unfold value
  rw [h, Nat.cast_zero, zero_mul]

theorem isDouble_zero : zero.IsDouble := ⟨by decide, le_rfl, .inl rfl⟩

theorem rounds_zero : zero.Rounds 0 := by
  have := rounds_value zero
  rwa [value_eq_zero rfl] at this

namespace Rounds

variable {d d' : Dyadic} {u v w : ℚ}

/-- What lies between two numbers that round to a double rounds to it. -/
theorem between (hu : d.Rounds u) (hw : d.Rounds w) (huv : u ≤ v) (hvw : v ≤ w) :
    d.Rounds v := by
  have hlow := hu.low_le
  have hhigh := hw.le_high
  refine ⟨by linarith, by linarith, ?_⟩
  rintro (hend | hend)
  · exact hu.even (.inl (by linarith))
  · exact hw.even (.inr (by linarith))

/-- Rounding keeps the order. -/
theorem value_le (hd : d.IsDouble) (hd' : d'.IsDouble) (h : d.Rounds v) (h' : d'.Rounds w)
    (hvw : v ≤ w) : d.value ≤ d'.value := by
  by_contra hlt
  rw [not_le, value_lt_iff hd' hd] at hlt
  have hends : (d'.high : ℚ) * 2 ^ d'.exponent ≤ d.low * 2 ^ d.exponent ∧
      (d'.mantissa % 2 = 0 → d.mantissa % 2 = 0 →
        (d'.high : ℚ) * 2 ^ d'.exponent < d.low * 2 ^ d.exponent) := by
    rcases hlt with hlt | ⟨heq, hlt⟩
    · have := hd'.high_le_low_of_exponent_lt hd hlt
      exact ⟨this.1, fun heven _ => this.2 heven⟩
    · exact high_le_low_of_mantissa_lt heq hlt
  have hlow := h.low_le
  have hhigh := h'.le_high
  -- Both numbers are the place where the intervals meet, so both mantissas are even.
  have heven : d.mantissa % 2 = 0 := h.even (.inl (by linarith))
  have heven' : d'.mantissa % 2 = 0 := h'.even (.inr (by linarith))
  have := hends.2 heven' heven
  linarith

/-- A number rounds to one double only. -/
theorem unique (hd : d.IsDouble) (hd' : d'.IsDouble) (h : d.Rounds v) (h' : d'.Rounds v) :
    d = d' :=
  eq_of_value_eq hd hd' (le_antisymm (value_le hd hd' h h' le_rfl) (value_le hd' hd h' h le_rfl))

theorem le_value (hd : d.IsDouble) (hd' : d'.IsDouble) (h : d.Rounds v) (hle : d'.value ≤ v) :
    d'.value ≤ d.value :=
  value_le hd' hd (rounds_value d') h hle

theorem value_le_of_le (hd : d.IsDouble) (hd' : d'.IsDouble) (h : d.Rounds v)
    (hle : v ≤ d'.value) : d.value ≤ d'.value :=
  value_le hd hd' h (rounds_value d') hle

theorem nonneg (h : d.Rounds v) : 0 ≤ v := by
  have hlow := h.low_le
  have : (0 : ℚ) ≤ d.low * 2 ^ d.exponent := by positivity
  linarith

theorem pos (h : d.Rounds v) (hd : 0 < d.mantissa) : 0 < v := by
  have hlow := h.low_le
  have : 0 < d.low := by
    have := low_ge d
    omega
  have : (0 : ℚ) < d.low * 2 ^ d.exponent := by positivity
  linarith

/-- Above the least exponent, twice a number rounds to twice the double. -/
theorem double (h : d.Rounds v) (hleast : -1074 < d.exponent) :
    (Dyadic.mk d.mantissa (d.exponent + 1)).Rounds (2 * v) := by
  have hlow : (Dyadic.mk d.mantissa (d.exponent + 1)).low = d.low := by
    have hnarrow : (Dyadic.mk d.mantissa (d.exponent + 1)).isNarrow = d.isNarrow := by
      rw [Bool.eq_iff_iff, isNarrow_iff, isNarrow_iff]
      dsimp only
      omega
    unfold low
    rw [hnarrow]
  have hhigh : (Dyadic.mk d.mantissa (d.exponent + 1)).high = d.high := rfl
  have htwice (x : ℚ) : x * 2 ^ (d.exponent + 1) = 2 * (x * 2 ^ d.exponent) := by
    rw [zpow_add_one₀ (by norm_num)]
    ring
  refine ⟨?_, ?_, ?_⟩
  · rw [hlow, htwice]
    linarith [h.low_le]
  · rw [hhigh, htwice]
    linarith [h.le_high]
  · rw [hlow, hhigh, htwice, htwice]
    rintro (hend | hend)
    · exact h.even (.inl (by linarith))
    · exact h.even (.inr (by linarith))

end Rounds

/-- A number up to `10 ^ 308` rounds to a double that is not too large. -/
theorem Rounds.fits {d : Dyadic} {v : ℚ} (hd : d.IsDouble) (h : d.Rounds v) (hv : v ≤ 10 ^ 308) :
    d.Fits := by
  have hlarge : (Dyadic.mk (3 * 2 ^ 51) 971).IsDouble :=
    ⟨by norm_num, by norm_num, .inr (by norm_num)⟩
  have hnat : 10 ^ 308 ≤ 3 * 2 ^ 1022 := by decide +kernel
  have hle : v ≤ (Dyadic.mk (3 * 2 ^ 51) 971).value :=
    calc v ≤ 10 ^ 308 := hv
      _ ≤ 3 * 2 ^ 1022 := by exact_mod_cast hnat
      _ = 3 * 2 ^ 51 * 2 ^ 971 := by rw [mul_assoc, ← pow_add]
      _ = (Dyadic.mk (3 * 2 ^ 51) 971).value := by
        unfold value
        rw [zpow_ofNat, Nat.cast_mul, Nat.cast_pow]
        rfl
  refine ⟨hd, not_lt.mp fun hlt => ?_⟩
  exact absurd (value_lt_of_exponent_lt hlarge hd hlt) (h.value_le_of_le hd hlarge hle).not_gt

/-- A double that is at most one that is not too large is not too large either. -/
theorem IsDouble.fits_of_le {d d' : Dyadic} (hd : d.IsDouble) (hd' : d'.Fits)
    (h : d.value ≤ d'.value) : d.Fits := by
  refine ⟨hd, not_lt.mp fun hlt => ?_⟩
  have hexponent := hd'.exponent_le
  exact absurd (value_lt_of_exponent_lt hd'.toIsDouble hd (by omega)) h.not_gt

/-! ## Numbers that are doubles -/

/-- A number of at most 53 bits, times a power of two. -/
def reduced (a : ℕ) (b : ℤ) : Dyadic :=
  ⟨a * 2 ^ (52 - a.log2), a.log2 - 52 + b⟩

section Reduced

variable {a : ℕ} {b : ℤ}

theorem isDouble_reduced (hpos : 0 < a) (ha : a < 2 ^ 53) (hb : -1022 ≤ b) :
    (reduced a b).IsDouble := by
  have hlog : a.log2 < 53 := (Nat.log2_lt hpos.ne').mpr ha
  have hbelow := Nat.log2_self_le hpos.ne'
  have habove := Nat.lt_log2_self (n := a)
  refine ⟨?_, ?_, .inr ?_⟩ <;> unfold reduced <;> simp only
  · calc a * 2 ^ (52 - a.log2) < 2 ^ (a.log2 + 1) * 2 ^ (52 - a.log2) := by gcongr
      _ = 2 ^ 53 := by
        rw [← pow_add]
        congr 1
        omega
  · omega
  · calc 2 ^ 52 = 2 ^ a.log2 * 2 ^ (52 - a.log2) := by
          rw [← pow_add]
          congr 1
          omega
      _ ≤ a * 2 ^ (52 - a.log2) := by gcongr

theorem value_reduced (hpos : 0 < a) (ha : a < 2 ^ 53) : (reduced a b).value = a * 2 ^ b := by
  have hlog : a.log2 < 53 := (Nat.log2_lt hpos.ne').mpr ha
  have hexponent : ((52 - a.log2 : ℕ) : ℤ) + (a.log2 - 52 + b) = b := by omega
  unfold reduced value
  push_cast
  rw [mul_assoc, ← zpow_natCast (2 : ℚ), ← zpow_add₀ (by norm_num), hexponent]

end Reduced

/-- An integer of at most 53 bits is a double, and so is the next one. -/
theorem exists_value_eq {n : ℕ} (hpos : 0 < n) (hn : n ≤ 2 ^ 53) :
    ∃ d : Dyadic, d.IsDouble ∧ d.value = n := by
  rcases lt_or_eq_of_le hn with hlt | rfl
  · refine ⟨reduced n 0, isDouble_reduced hpos hlt (by decide), ?_⟩
    rw [value_reduced hpos hlt, zpow_zero, mul_one]
  · refine ⟨reduced 1 53, isDouble_reduced (by decide) (by decide) (by decide), ?_⟩
    rw [value_reduced (by decide) (by decide)]
    norm_num

/-- A number that is a double itself is not changed by rounding. -/
theorem Rounds.value_eq {d d' : Dyadic} (hd : d.IsDouble) (hd' : d'.IsDouble)
    (h : d.Rounds d'.value) : d = d' :=
  h.unique hd hd' (rounds_value d')

/-- What is at least an integer of at most 53 bits does not round to less. -/
theorem Rounds.natCast_le {d : Dyadic} {v : ℚ} {n : ℕ} (hd : d.IsDouble) (h : d.Rounds v)
    (hpos : 0 < n) (hn : n ≤ 2 ^ 53) (hle : n ≤ v) : n ≤ d.value := by
  obtain ⟨d', hd', hvalue⟩ := exists_value_eq hpos hn
  rw [← hvalue] at hle ⊢
  exact h.le_value hd hd' hle

/-! ## The test of the search -/

/-- The two factors of the test compare numbers in the same unit. -/
theorem exists_unit (d : Dyadic) (e : ℤ) :
    ∃ k : ℚ, 0 < k ∧ (d.quarter e : ℚ) = k * 2 ^ d.exponent ∧
      (d.mesh e : ℚ) = k * (4 * 10 ^ e) := by
  refine ⟨2 ^ (((2 - d.exponent).toNat : ℤ) - 2) * 10 ^ ((-e).toNat : ℤ), by positivity, ?_, ?_⟩
  · have hexponent : ((d.exponent - 2).toNat : ℤ) =
        ((2 - d.exponent).toNat : ℤ) - 2 + d.exponent := by omega
    unfold quarter
    simp only [Nat.pow_eq, Nat.cast_mul, Nat.cast_pow, Nat.cast_ofNat]
    rw [← zpow_natCast (2 : ℚ), ← zpow_natCast (10 : ℚ), hexponent, zpow_add₀ (by norm_num)]
    ring
  · have hexponent : (e.toNat : ℤ) = (-e).toNat + e := by omega
    have hfour : (2 : ℚ) ^ ((2 - d.exponent).toNat : ℤ) =
        2 ^ (((2 - d.exponent).toNat : ℤ) - 2) * 4 := by
      rw [zpow_sub₀ (by norm_num)]
      norm_num
    unfold mesh
    simp only [Nat.pow_eq, Nat.cast_mul, Nat.cast_pow, Nat.cast_ofNat]
    rw [← zpow_natCast (2 : ℚ), ← zpow_natCast (10 : ℚ), hexponent, hfour,
      zpow_add₀ (by norm_num)]
    ring

variable {d : Dyadic} {e : ℤ} {c : ℕ}

theorem point_le_iff (n : ℕ) :
    c * d.mesh e ≤ n * d.quarter e ↔ 4 * ((c : ℚ) * 10 ^ e) ≤ n * 2 ^ d.exponent := by
  obtain ⟨k, hk, hquarter, hmesh⟩ := d.exists_unit e
  rw [← Nat.cast_le (α := ℚ), Nat.cast_mul, Nat.cast_mul, hquarter, hmesh]
  have hleft : (c : ℚ) * (k * (4 * 10 ^ e)) = k * (4 * (c * 10 ^ e)) := by ring
  have hright : (n : ℚ) * (k * 2 ^ d.exponent) = k * (n * 2 ^ d.exponent) := by ring
  rw [hleft, hright, mul_le_mul_iff_right₀ hk]

theorem le_point_iff (n : ℕ) :
    n * d.quarter e ≤ c * d.mesh e ↔ n * 2 ^ d.exponent ≤ 4 * ((c : ℚ) * 10 ^ e) := by
  obtain ⟨k, hk, hquarter, hmesh⟩ := d.exists_unit e
  rw [← Nat.cast_le (α := ℚ), Nat.cast_mul, Nat.cast_mul, hquarter, hmesh]
  have hleft : (c : ℚ) * (k * (4 * 10 ^ e)) = k * (4 * (c * 10 ^ e)) := by ring
  have hright : (n : ℚ) * (k * 2 ^ d.exponent) = k * (n * 2 ^ d.exponent) := by ring
  rw [hleft, hright, mul_le_mul_iff_right₀ hk]

/-- The search tests whether a decimal rounds to the double. -/
theorem covers_iff : d.covers e c = true ↔ d.Rounds (c * 10 ^ e) := by
  have hlow := le_point_iff (d := d) (e := e) (c := c) d.low
  have hhigh := point_le_iff (d := d) (e := e) (c := c) d.high
  have hlow' := point_le_iff (d := d) (e := e) (c := c) d.low
  have hhigh' := le_point_iff (d := d) (e := e) (c := c) d.high
  unfold covers
  split
  · rename_i heven
    rw [Bool.and_eq_true, decide_eq_true_eq, decide_eq_true_eq, hlow, hhigh]
    exact ⟨fun h => ⟨h.1, h.2, fun _ => heven⟩, fun h => ⟨h.low_le, h.le_high⟩⟩
  · rename_i hodd
    rw [Bool.and_eq_true, decide_eq_true_eq, decide_eq_true_eq, ← not_le, ← not_le, hlow',
      hhigh', not_le, not_le]
    constructor
    · rintro ⟨hbelow, habove⟩
      refine ⟨hbelow.le, habove.le, ?_⟩
      rintro (hend | hend)
      · exact absurd hend hbelow.ne'
      · exact absurd hend habove.ne
    · intro h
      exact ⟨lt_of_le_of_ne h.low_le fun hend => hodd (h.even (.inl hend.symm)),
        lt_of_le_of_ne h.le_high fun hend => hodd (h.even (.inr hend))⟩

end LuaChecker.Decimal.Dyadic
