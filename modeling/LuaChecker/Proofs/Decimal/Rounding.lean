import LuaChecker.Proofs.Decimal.Interval

/-!
# Rounding a number to a double

A number is rounded from its leading binary digits, and two bits that tell about the rest
whether it is less than half of the last place, half of it, or more.

* `Holds`: what the digits and the two bits tell about a number;
* `rounds_roundWithAccuracy`: rounding leads to the double to which the number rounds.
-/

namespace LuaChecker.Decimal

open Float.Model Float.Model.UnpackedFloat

/-! ## Digits and a rest -/

/-- What two bits tell about the rest of a number: whether it is half of the last place or
more, and whether it is neither nothing nor half of it. -/
def IsRest : Bool → Bool → ℚ → Prop
  | false, false, f => f = 0
  | false, true, f => 0 < f ∧ 2 * f < 1
  | true, false, f => 2 * f = 1
  | true, true, f => 1 < 2 * f ∧ f < 1

/-- Digits and two bits, the last digit at a place, stand for a number. -/
def Holds (em : ExtendedMantissa) (e : ℤ) (v : ℚ) : Prop :=
  ∃ f, IsRest em.roundBit em.stickyBit f ∧ v = (em.mantissa + f) * 2 ^ e

theorem IsRest.nonneg {round sticky : Bool} {f : ℚ} (h : IsRest round sticky f) : 0 ≤ f := by
  cases round <;> cases sticky <;> unfold IsRest at h <;> simp only at h <;> linarith

/-- The last digit becomes a part of the rest. -/
theorem IsRest.shift {round sticky : Bool} {f : ℚ} (h : IsRest round sticky f) (m : ℕ) :
    IsRest (m % 2 != 0) (round || sticky) (((m % 2 : ℕ) + f) / 2) := by
  rcases Nat.mod_two_eq_zero_or_one m with hm | hm <;> rw [hm] <;> cases round <;> cases sticky <;>
    unfold IsRest at h ⊢ <;> simp at h ⊢ <;> first | linarith | skip
  all_goals constructor <;> linarith

theorem Holds.shiftRightOne {em : ExtendedMantissa} {e : ℤ} {v : ℚ} (h : Holds em e v) :
    Holds em.shiftRightOne (e + 1) v := by
  obtain ⟨f, hf, rfl⟩ := h
  refine ⟨((em.mantissa % 2 : ℕ) + f) / 2, hf.shift em.mantissa, ?_⟩
  have hdigits : ((em.mantissa / 2 : ℕ) : ℚ) * 2 + (em.mantissa % 2 : ℕ) = em.mantissa := by
    exact_mod_cast Nat.div_add_mod' em.mantissa 2
  change _ = (((em.mantissa / 2 : ℕ) : ℚ) + _) * _
  rw [zpow_add_one₀ (by norm_num), ← hdigits]
  ring

/-- Digits that are shifted out leave what the two bits tell as true as it was. -/
theorem Holds.shiftRight {em : ExtendedMantissa} {e : ℤ} {v : ℚ} (h : Holds em e v) (n : ℕ) :
    Holds (em >>> n) (e + n) v := by
  change Holds (Nat.repeat ExtendedMantissa.shiftRightOne n em) (e + n) v
  induction n with
  | zero =>
    rw [Nat.cast_zero, add_zero]
    exact h
  | succ n ih =>
    rw [Nat.cast_succ, ← add_assoc]
    exact ih.shiftRightOne

theorem mantissa_ofMantissaAndAccuracy (m : ℕ) (acc : Accuracy) :
    (ExtendedMantissa.ofMantissaAndAccuracy m acc).mantissa = m := by
  cases acc with
  | exact => rfl
  | inexact order => cases order <;> rfl

theorem mantissa_shiftRight (em : ExtendedMantissa) (n : ℕ) :
    (em >>> n).mantissa = em.mantissa / 2 ^ n := by
  change (Nat.repeat ExtendedMantissa.shiftRightOne n em).mantissa = em.mantissa / 2 ^ n
  induction n with
  | zero => exact (Nat.div_one _).symm
  | succ n ih =>
    change (Nat.repeat ExtendedMantissa.shiftRightOne n em).mantissa / 2 = _
    rw [ih, Nat.div_div_eq_div_mul, pow_succ]

/-! ## The nearest integer -/

theorem le_roundedMantissa (em : ExtendedMantissa) : em.mantissa ≤ em.roundedMantissa := by
  rcases em with ⟨m, round, sticky⟩
  cases round <;> cases sticky
  · exact le_rfl
  · exact le_rfl
  · exact Nat.le_add_right _ _
  · exact Nat.le_succ _

theorem roundedMantissa_le (em : ExtendedMantissa) : em.roundedMantissa ≤ em.mantissa + 1 := by
  rcases em with ⟨m, round, sticky⟩
  cases round <;> cases sticky
  · exact Nat.le_succ _
  · exact Nat.le_succ _
  · exact Nat.add_le_add_left (Nat.lt_succ_iff.mp (Nat.mod_lt m (by decide))) m
  · exact le_rfl

/-- A number is at most half of the last place away from what it is rounded to, and no more
than that only if the result is even. -/
theorem Holds.roundedMantissa {em : ExtendedMantissa} {e : ℤ} {v : ℚ} (h : Holds em e v) :
    (2 * em.roundedMantissa - 1) * 2 ^ e ≤ 2 * v ∧ 2 * v ≤ (2 * em.roundedMantissa + 1) * 2 ^ e ∧
      (2 * v = (2 * em.roundedMantissa - 1) * 2 ^ e ∨
        2 * v = (2 * em.roundedMantissa + 1) * 2 ^ e → em.roundedMantissa % 2 = 0) := by
  obtain ⟨f, hf, rfl⟩ := h
  have hunit : (0 : ℚ) < 2 ^ e := by positivity
  have hmul : 2 * ((em.mantissa + f) * 2 ^ e) = 2 * (em.mantissa + f) * (2 : ℚ) ^ e := by ring
  rw [hmul, mul_le_mul_iff_left₀ hunit, mul_le_mul_iff_left₀ hunit, mul_left_inj' hunit.ne',
    mul_left_inj' hunit.ne']
  rcases em with ⟨m, round, sticky⟩
  cases round <;> cases sticky <;>
    simp only [IsRest, ExtendedMantissa.roundedMantissa, ExtendedMantissa.accuracy,
      Accuracy.roundToNearestEven] at hf ⊢
  case false.false =>
    refine ⟨by linarith, by linarith, ?_⟩
    rintro (hend | hend) <;> linarith
  case false.true =>
    refine ⟨by linarith, by linarith, ?_⟩
    rintro (hend | hend) <;> linarith
  case true.false =>
    rcases Nat.mod_two_eq_zero_or_one m with hm | hm <;> rw [hm] <;> push_cast
    · exact ⟨by linarith, by linarith, fun _ => hm⟩
    · exact ⟨by linarith, by linarith, fun _ => by omega⟩
  case true.true =>
    push_cast
    refine ⟨by linarith, by linarith, ?_⟩
    rintro (hend | hend) <;> linarith

/-! ## Rounding to the format -/

/-- A double with a sign, in the form that arithmetic works on. -/
def ofDyadic (s : Sign) (d : Dyadic) : UnpackedFloat :=
  if h : d.mantissa = 0 then .zero s else .finite s d.mantissa d.exponent (Nat.pos_of_ne_zero h)

theorem targetExponent_eq (total : ℤ) :
    Format.binary64.targetExponent total = max (total - 53) (-1074) := rfl

/-- The place of the last digit that is kept, and the digits that are kept. -/
theorem shiftToTargetExponent_eq {m : ℕ} {e : ℤ} (acc : Accuracy)
    (he : e ≤ Format.binary64.targetExponent (totalExponent m e)) :
    ∃ k : ℕ, Format.binary64.targetExponent (totalExponent m e) = e + k ∧
      shiftToTargetExponent Format.binary64 m e acc =
        (ExtendedMantissa.ofMantissaAndAccuracy m acc >>> k, e + k) :=
  ⟨(Format.binary64.targetExponent (totalExponent m e) - e).toNat, by omega, rfl⟩

/-- A mantissa that has its place already stays as it is. -/
theorem shiftToTargetExponent_exact {m : ℕ} {e : ℤ} (hm : m < 2 ^ 53) (he : -1074 ≤ e) :
    shiftToTargetExponent Format.binary64 m e .exact = (⟨m, false, false⟩, e) := by
  have hlog : m.log2 < 53 := by
    rcases Nat.eq_zero_or_pos m with rfl | hpos
    · decide
    · exact (Nat.log2_lt hpos.ne').mpr hm
  have htarget : (Format.binary64.targetExponent (totalExponent m e) - e).toNat = 0 := by
    rw [targetExponent_eq, totalExponent]
    omega
  unfold shiftToTargetExponent shiftToExponent
  simp only
  rw [htarget, Nat.cast_zero, add_zero]
  rfl

theorem shiftToTargetExponent_carry {e : ℤ} (he : -1074 ≤ e) :
    shiftToTargetExponent Format.binary64 (2 ^ 53) e .exact = (⟨2 ^ 52, false, false⟩, e + 1) := by
  have htarget : (Format.binary64.targetExponent (totalExponent (2 ^ 53) e) - e).toNat = 1 := by
    rw [targetExponent_eq, totalExponent, Nat.log2_two_pow]
    omega
  unfold shiftToTargetExponent shiftToExponent
  simp only
  rw [htarget]
  rfl

/-- A mantissa at its place, which may have one bit too many, all of them but the first zero. -/
def carried (r : ℕ) (e : ℤ) : Dyadic :=
  if r = 2 ^ 53 then ⟨2 ^ 52, e + 1⟩ else ⟨r, e⟩

/-- Digits that have their place are rounded to a mantissa, which is then carried. -/
theorem roundWithAccuracy_eq {s : Sign} {m : ℕ} {e : ℤ} {acc : Accuracy} {em : ExtendedMantissa}
    {e' : ℤ} (hshift : shiftToTargetExponent Format.binary64 m e acc = (em, e'))
    (hle : em.roundedMantissa ≤ 2 ^ 53) (he : -1074 ≤ e') :
    roundWithAccuracy Format.binary64 s m e acc = ofDyadic s (carried em.roundedMantissa e') := by
  have hagain : roundWithAccuracy Format.binary64 s m e acc =
      ofDyadic s
        ⟨(shiftToTargetExponent Format.binary64 em.roundedMantissa e' .exact).1.mantissa,
          (shiftToTargetExponent Format.binary64 em.roundedMantissa e' .exact).2⟩ := by
    unfold roundWithAccuracy
    rw [hshift]
    rfl
  rw [hagain, carried]
  split
  · rename_i hcarry
    rw [hcarry, shiftToTargetExponent_carry he]
  · rw [shiftToTargetExponent_exact (by omega) he]

theorem isDouble_carried {r : ℕ} {e : ℤ} (hle : r ≤ 2 ^ 53) (he : -1074 ≤ e)
    (hfull : e = -1074 ∨ 2 ^ 52 ≤ r) : (carried r e).IsDouble := by
  unfold carried
  split
  · exact ⟨by norm_num, Int.le_add_one he, .inr le_rfl⟩
  · exact ⟨lt_of_le_of_ne hle ‹_›, he, hfull⟩

/-- A number at most half of the last place away rounds to a mantissa that fits. A number
below the least mantissa with all its bits would have a place more. -/
theorem rounds_of_near {r : ℕ} {e : ℤ} {v : ℚ} (hv : 0 ≤ v)
    (hfull : e = -1074 ∨ 2 ^ 52 * 2 ^ e ≤ v)
    (hbelow : (2 * r - 1) * 2 ^ e ≤ 2 * v) (habove : 2 * v ≤ (2 * r + 1) * 2 ^ e)
    (heven : 2 * v = (2 * r - 1) * 2 ^ e ∨ 2 * v = (2 * r + 1) * 2 ^ e → r % 2 = 0) :
    (Dyadic.mk r e).Rounds v := by
  have hhigh : ((Dyadic.mk r e).high : ℚ) = 4 * r + 2 := by
    unfold Dyadic.high
    push_cast
    rfl
  by_cases hnarrow : (Dyadic.mk r e).isNarrow = true
  · obtain ⟨hr, he⟩ := Dyadic.isNarrow_iff.mp hnarrow
    have hvalue := hfull.resolve_left (ne_of_gt he)
    have hlow : ((Dyadic.mk r e).low : ℚ) ≤ 4 * 2 ^ 52 := by
      have := Dyadic.low_le_middle (Dyadic.mk r e)
      unfold Dyadic.middle at this
      rw [hr] at this
      exact_mod_cast this
    have hlow : ((Dyadic.mk r e).low : ℚ) * 2 ^ e ≤ 4 * 2 ^ 52 * 2 ^ e := by gcongr
    refine ⟨hlow.trans (by linarith), by rw [hhigh]; linarith, fun _ => ?_⟩
    rw [hr]
    norm_num
  · rcases Nat.eq_zero_or_pos r with rfl | hpos
    · have hlow : (Dyadic.mk 0 e).low = 0 := by
        unfold Dyadic.low
        rw [if_neg hnarrow]
        rfl
      refine ⟨?_, by rw [hhigh]; linarith, fun _ => rfl⟩
      rw [hlow, Nat.cast_zero, zero_mul]
      linarith
    · have hlow : ((Dyadic.mk r e).low : ℚ) = 4 * r - 2 := by
        unfold Dyadic.low
        rw [if_neg hnarrow, Nat.cast_sub (by simp only; omega)]
        push_cast
        rfl
      refine ⟨by rw [hlow]; linarith, by rw [hhigh]; linarith, ?_⟩
      rw [hlow, hhigh]
      rintro (hend | hend)
      · exact heven (.inl (by linarith))
      · exact heven (.inr (by linarith))

/-- A number at most half of the last place away from a mantissa with one bit too many rounds
to that mantissa with its last place dropped. -/
theorem rounds_of_near_carry {e : ℤ} {v : ℚ} (hbelow : (2 ^ 54 - 1) * 2 ^ e ≤ 2 * v)
    (habove : 2 * v ≤ (2 ^ 54 + 1) * 2 ^ e) : (Dyadic.mk (2 ^ 52) (e + 1)).Rounds v := by
  have hunit : (0 : ℚ) < 2 ^ e := by positivity
  have hlow : ((Dyadic.mk (2 ^ 52) (e + 1)).low : ℚ) ≤ 2 ^ 54 - 1 := by
    have : (Dyadic.mk (2 ^ 52) (e + 1)).low + 1 ≤ 2 ^ 54 := by
      unfold Dyadic.low
      split <;> simp only <;> omega
    rw [le_sub_iff_add_le]
    exact_mod_cast this
  have hlow : ((Dyadic.mk (2 ^ 52) (e + 1)).low : ℚ) * 2 ^ e ≤ (2 ^ 54 - 1) * 2 ^ e := by gcongr
  have hhigh : ((Dyadic.mk (2 ^ 52) (e + 1)).high : ℚ) = 2 ^ 54 + 2 := by
    unfold Dyadic.high
    norm_num
  refine ⟨?_, ?_, fun _ => by norm_num⟩
  · rw [zpow_add_one₀ (by norm_num)]
    linarith
  · rw [zpow_add_one₀ (by norm_num), hhigh]
    linarith

theorem rounds_carried {r : ℕ} {e : ℤ} {v : ℚ} (hv : 0 ≤ v)
    (hfull : e = -1074 ∨ 2 ^ 52 * 2 ^ e ≤ v)
    (hbelow : (2 * r - 1) * 2 ^ e ≤ 2 * v) (habove : 2 * v ≤ (2 * r + 1) * 2 ^ e)
    (heven : 2 * v = (2 * r - 1) * 2 ^ e ∨ 2 * v = (2 * r + 1) * 2 ^ e → r % 2 = 0) :
    (carried r e).Rounds v := by
  unfold carried
  split
  · rename_i hcarry
    have hr : (r : ℚ) = 2 ^ 53 := by exact_mod_cast hcarry
    rw [hr] at hbelow habove
    exact rounds_of_near_carry (by linarith) (by linarith)
  · exact rounds_of_near hv hfull hbelow habove heven

/-- Rounding leads to the double to which the number rounds. -/
theorem rounds_roundWithAccuracy (s : Sign) {m : ℕ} {e : ℤ} {acc : Accuracy} {v : ℚ}
    (h : Holds (.ofMantissaAndAccuracy m acc) e v)
    (he : e ≤ Format.binary64.targetExponent (totalExponent m e)) :
    ∃ d : Dyadic, d.IsDouble ∧ d.Rounds v ∧
      roundWithAccuracy Format.binary64 s m e acc = ofDyadic s d := by
  obtain ⟨k, htarget, hshift⟩ := shiftToTargetExponent_eq acc he
  have hholds := h.shiftRight k
  have hkept := mantissa_shiftRight (.ofMantissaAndAccuracy m acc) k
  rw [mantissa_ofMantissaAndAccuracy] at hkept
  rw [targetExponent_eq, totalExponent] at htarget
  have hlt : m / 2 ^ k < 2 ^ 53 := by
    rw [Nat.div_lt_iff_lt_mul (by positivity), ← pow_add]
    exact Nat.lt_log2_self.trans_le (Nat.pow_le_pow_right (by decide) (by omega))
  have hfull : e + k = -1074 ∨ 2 ^ 52 ≤ m / 2 ^ k := by
    by_cases hleast : e + k = -1074
    · exact .inl hleast
    · right
      have hlog : m.log2 = 52 + k := by omega
      have hm : m ≠ 0 := by
        rintro rfl
        rw [Nat.log2_zero] at hlog
        omega
      rw [Nat.le_div_iff_mul_le (by positivity), ← pow_add, ← hlog]
      exact Nat.log2_self_le hm
  generalize ExtendedMantissa.ofMantissaAndAccuracy m acc >>> k = em at hholds hshift hkept
  rw [← hkept] at hlt hfull
  have hge := le_roundedMantissa em
  have hle := roundedMantissa_le em
  obtain ⟨hbelow, habove, heven⟩ := hholds.roundedMantissa
  refine ⟨carried em.roundedMantissa (e + k), isDouble_carried (by omega) (by omega) (by omega),
    rounds_carried ?_ ?_ hbelow habove heven, roundWithAccuracy_eq hshift (by omega) (by omega)⟩
  · obtain ⟨f, hf, rfl⟩ := hholds
    have := hf.nonneg
    positivity
  · obtain ⟨f, hf, rfl⟩ := hholds
    have := hf.nonneg
    refine hfull.imp_right fun hfull => ?_
    have : ((2 ^ 52 : ℕ) : ℚ) ≤ em.mantissa := by exact_mod_cast hfull
    push_cast at this
    gcongr
    linarith

end LuaChecker.Decimal
