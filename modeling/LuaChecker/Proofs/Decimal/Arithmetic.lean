import LuaChecker.Proofs.Decimal.Order
import LuaChecker.Json.Double

/-!
# Arithmetic of doubles

Quotients and products of doubles, and doubles of integers and of powers of ten, are the
exact results, rounded once.

* `toFloat_div`, `toFloat_mul`, `toFloat_neg`: arithmetic;
* `toFloat_toUInt64`, `powerOfTen_eq`: the doubles of integers and of powers of ten;
* `toFloat_natCast`: small integers are doubles themselves.
-/

namespace LuaChecker.Decimal

open Float.Model Float.Model.UnpackedFloat

/-! ## Division -/

/-- A quotient and its remainder stand for the exact quotient. -/
theorem holds_quotient {m m' : ℕ} (hm' : 0 < m') (e : ℤ) :
    Holds (.ofMantissaAndAccuracy (m / m') (accuracyOfFraction (m % m') m')) e
      ((m : ℚ) / m' * 2 ^ e) := by
  have hrest : m % m' < m' := Nat.mod_lt m hm'
  have hpos : (0 : ℚ) < m' := by exact_mod_cast hm'
  have hdiv : (m : ℚ) / m' = (m / m' : ℕ) + (m % m' : ℕ) / m' := by
    rw [div_eq_iff hpos.ne', add_mul, div_mul_cancel₀ _ hpos.ne']
    exact_mod_cast (Nat.div_add_mod' m m').symm
  rw [hdiv]
  refine ⟨(m % m' : ℕ) / m', ?_, by rw [mantissa_ofMantissaAndAccuracy]⟩
  have hlt : ((m % m' : ℕ) : ℚ) / m' < 1 := by
    rw [div_lt_one hpos]
    exact_mod_cast hrest
  unfold accuracyOfFraction
  by_cases hzero : m % m' = 0
  · rw [if_pos hzero, hzero]
    change ((0 : ℕ) : ℚ) / m' = 0
    simp
  · have hfrac : (0 : ℚ) < (m % m' : ℕ) / m' := by
      have : (0 : ℚ) < (m % m' : ℕ) := by exact_mod_cast Nat.pos_of_ne_zero hzero
      positivity
    rw [if_neg hzero]
    have htwice : 2 * (((m % m' : ℕ) : ℚ) / m') = ((2 * (m % m') : ℕ) : ℚ) / m' := by
      push_cast
      ring
    rcases hcompare : compare (2 * (m % m')) m' with _ | _ | _
    · refine ⟨hfrac, ?_⟩
      rw [htwice, div_lt_one hpos]
      exact_mod_cast Nat.compare_eq_lt.mp hcompare
    · change 2 * (((m % m' : ℕ) : ℚ) / m') = 1
      rw [htwice, div_eq_one_iff_eq hpos.ne']
      exact_mod_cast Nat.compare_eq_eq.mp hcompare
    · refine ⟨?_, hlt⟩
      rw [htwice, one_lt_div hpos]
      exact_mod_cast Nat.compare_eq_gt.mp hcompare

/-- The quotient has enough digits to be rounded. -/
theorem quotient_le_target {m m' : ℕ} {e e' t : ℤ} (hm : 0 < m) (hm' : 0 < m')
    (ht : t ≤ e - e')
    (htarget : t ≤ Format.binary64.targetExponent (totalExponent m e - totalExponent m' e')) :
    t ≤ Format.binary64.targetExponent
      (totalExponent ((m <<< (e - e' - t).toNat) / m') t) := by
  rw [targetExponent_eq] at htarget ⊢
  by_cases hleast : t ≤ -1074
  · omega
  · have hbits : 53 + m'.log2 ≤ m.log2 + (e - e' - t).toNat := by
      unfold totalExponent at htarget
      omega
    have hquotient : 2 ^ 52 ≤ (m <<< (e - e' - t).toNat) / m' := by
      rw [Nat.le_div_iff_mul_le hm', Nat.shiftLeft_eq]
      calc 2 ^ 52 * m' ≤ 2 ^ 52 * 2 ^ (m'.log2 + 1) :=
            Nat.mul_le_mul_left _ Nat.lt_log2_self.le
        _ ≤ 2 ^ m.log2 * 2 ^ (e - e' - t).toNat := by
            rw [← pow_add, ← pow_add]
            exact Nat.pow_le_pow_right (by decide) (by omega)
        _ ≤ m * 2 ^ (e - e' - t).toNat := Nat.mul_le_mul_right _ (Nat.log2_self_le hm.ne')
    have hlog : 52 ≤ ((m <<< (e - e' - t).toNat) / m').log2 :=
      (Nat.le_log2 (by omega)).mpr hquotient
    unfold totalExponent
    omega

theorem signOf_false : signOf false = .positive := rfl

/-- A quotient of two doubles is the exact one, rounded. -/
theorem div_ofDyadic {d d' : Dyadic} (hd' : 0 < d'.mantissa) :
    ∃ q : Dyadic, q.IsDouble ∧ q.Rounds (d.value / d'.value) ∧
      UnpackedFloat.div Format.binary64 (ofDyadic .positive d) (ofDyadic .positive d') =
        ofDyadic .positive q := by
  rcases Nat.eq_zero_or_pos d.mantissa with hzero | hpos
  · rw [Dyadic.value_eq_zero hzero, zero_div, ofDyadic_zero hzero, ofDyadic_pos hd']
    exact ⟨.zero, Dyadic.isDouble_zero, Dyadic.rounds_zero, rfl⟩
  · obtain ⟨t, ht⟩ : ∃ t, t = min (d.exponent - d'.exponent)
        (Format.binary64.targetExponent
          (totalExponent d.mantissa d.exponent - totalExponent d'.mantissa d'.exponent)) := ⟨_, rfl⟩
    have hexact : d.value / d'.value =
        ((d.mantissa <<< (d.exponent - d'.exponent - t).toNat : ℕ) : ℚ) / d'.mantissa * 2 ^ t := by
      have hexponent : d.exponent - d'.exponent = (d.exponent - d'.exponent - t).toNat + t := by
        omega
      have hsplit : (2 : ℚ) ^ (d.exponent - d'.exponent) =
          2 ^ (d.exponent - d'.exponent - t).toNat * 2 ^ t := by
        rw [← zpow_natCast, ← zpow_add₀ (by norm_num), ← hexponent]
      unfold Dyadic.value
      rw [Nat.shiftLeft_eq, mul_div_mul_comm, ← zpow_sub₀ (by norm_num), hsplit]
      push_cast
      ring
    have hholds := holds_quotient (m := d.mantissa <<< (d.exponent - d'.exponent - t).toNat) hd' t
    rw [← hexact] at hholds
    obtain ⟨q, hq, hrounds, heq⟩ := rounds_roundWithAccuracy .positive hholds
      (quotient_le_target hpos hd' (by omega) (by omega))
    refine ⟨q, hq, hrounds, ?_⟩
    rw [← heq, ofDyadic_pos hpos, ofDyadic_pos hd', ht]
    rfl

/-! ## Multiplication -/

/-- Digits without a rest stand for their value. -/
theorem holds_exact (m : ℕ) (e : ℤ) :
    Holds (.ofMantissaAndAccuracy m .exact) e (m * 2 ^ e) :=
  ⟨0, rfl, by rw [mantissa_ofMantissaAndAccuracy, add_zero]⟩

/-- A product is the exact one, rounded, if it has enough digits. -/
theorem mul_finite {m m' : ℕ} (e e' : ℤ) (hm : 0 < m) (hm' : 0 < m')
    (hdigits : 2 ^ 52 ≤ m * m' ∨ e + e' ≤ -1074) :
    ∃ q : Dyadic, q.IsDouble ∧ q.Rounds ((m * 2 ^ e) * (m' * 2 ^ e')) ∧
      UnpackedFloat.mul Format.binary64 (.finite .positive m e hm) (.finite .positive m' e' hm') =
        ofDyadic .positive q := by
  have hexact : (m * 2 ^ e) * (m' * 2 ^ e') = ((m * m' : ℕ) : ℚ) * 2 ^ (e + e') := by
    rw [zpow_add₀ (by norm_num)]
    push_cast
    ring
  have htarget : e + e' ≤ Format.binary64.targetExponent (totalExponent (m * m') (e + e')) := by
    rw [targetExponent_eq, totalExponent]
    rcases hdigits with hdigits | hleast
    · have : 52 ≤ (m * m').log2 := (Nat.le_log2 (by omega)).mpr hdigits
      omega
    · omega
  rw [hexact]
  obtain ⟨q, hq, hrounds, heq⟩ := rounds_roundWithAccuracy .positive (holds_exact _ _) htarget
  exact ⟨q, hq, hrounds, heq⟩

theorem mul_ofDyadic {d d' : Dyadic} (hd : d.IsDouble) (hd' : d'.IsDouble) :
    ∃ q : Dyadic, q.IsDouble ∧ q.Rounds (d.value * d'.value) ∧
      UnpackedFloat.mul Format.binary64 (ofDyadic .positive d) (ofDyadic .positive d') =
        ofDyadic .positive q := by
  rcases Nat.eq_zero_or_pos d.mantissa with hzero | hpos
  · rw [Dyadic.value_eq_zero hzero, zero_mul, ofDyadic_zero hzero]
    refine ⟨.zero, Dyadic.isDouble_zero, Dyadic.rounds_zero, ?_⟩
    unfold ofDyadic
    split <;> rfl
  rcases Nat.eq_zero_or_pos d'.mantissa with hzero' | hpos'
  · rw [Dyadic.value_eq_zero hzero', mul_zero, ofDyadic_zero hzero', ofDyadic_pos hpos]
    exact ⟨.zero, Dyadic.isDouble_zero, Dyadic.rounds_zero, rfl⟩
  · rw [ofDyadic_pos hpos, ofDyadic_pos hpos']
    refine mul_finite _ _ hpos hpos' ?_
    rcases hd.full with hleast | hfull
    · rcases hd'.full with hleast' | hfull'
      · right
        omega
      · exact .inl (hfull'.trans (Nat.le_mul_of_pos_left _ hpos))
    · exact .inl (hfull.trans (Nat.le_mul_of_pos_right _ hpos'))

/-! ## Integers -/

theorem log2_shiftLeft {n : ℕ} (hn : 0 < n) (k : ℕ) : (n <<< k).log2 = n.log2 + k := by
  have hbelow := Nat.log2_self_le hn.ne'
  have habove := Nat.lt_log2_self (n := n)
  rw [Nat.shiftLeft_eq, Nat.log2_eq_iff (by positivity), add_right_comm, pow_add, pow_add]
  exact ⟨Nat.mul_le_mul_right _ hbelow, Nat.mul_lt_mul_of_pos_right habove (by positivity)⟩

/-- An integer is rounded after it was given enough digits. -/
theorem round_natCast {n : ℕ} (hn : 0 < n) :
    ∃ q : Dyadic, q.IsDouble ∧ q.Rounds n ∧
      UnpackedFloat.round Format.binary64 .positive n 0 = ofDyadic .positive q := by
  obtain ⟨k, hk⟩ : ∃ k, k = (0 - Format.binary64.targetExponent (totalExponent n 0)).toNat := ⟨_, rfl⟩
  have hexact : (n : ℚ) = ((n <<< k : ℕ) : ℚ) * 2 ^ (0 - (k : ℤ)) := by
    rw [Nat.shiftLeft_eq, zero_sub, zpow_neg, zpow_natCast]
    push_cast
    rw [mul_assoc, mul_inv_cancel₀ (by positivity), mul_one]
  have hholds := holds_exact (n <<< k) (0 - k)
  rw [← hexact] at hholds
  have htotal : totalExponent (n <<< k) (0 - k) = totalExponent n 0 := by
    unfold totalExponent
    rw [log2_shiftLeft hn]
    omega
  have htarget : 0 - (k : ℤ) ≤ Format.binary64.targetExponent (totalExponent (n <<< k) (0 - k)) := by
    rw [htotal]
    omega
  obtain ⟨q, hq, hrounds, heq⟩ := rounds_roundWithAccuracy .positive hholds htarget
  refine ⟨q, hq, hrounds, ?_⟩
  rw [← heq, hk]
  rfl

theorem ofNat_eq (n : ℕ) :
    ∃ q : Dyadic, q.IsDouble ∧ q.Rounds n ∧
      UnpackedFloat.ofNat Format.binary64 n = ofDyadic .positive q := by
  rcases Nat.eq_zero_or_pos n with rfl | hpos
  · exact ⟨.zero, Dyadic.isDouble_zero, by exact_mod_cast Dyadic.rounds_zero, rfl⟩
  · obtain ⟨q, hq, hrounds, heq⟩ := round_natCast hpos
    refine ⟨q, hq, hrounds, ?_⟩
    have : compare (n : ℤ) 0 = .gt := by
      rw [Int.compare_eq_gt]
      exact_mod_cast hpos
    unfold UnpackedFloat.ofNat UnpackedFloat.ofInt UnpackedFloat.normalize
    rw [← heq, this]
    rfl

/-! ## Doubles -/

/-- The double of an integer of at most 64 bits. -/
theorem toFloat_toUInt64 {n : ℕ} (hn : n < 2 ^ 64) :
    ∃ q : Dyadic, q.Fits ∧ q.Rounds n ∧ n.toUInt64.toFloat = q.toFloat false := by
  obtain ⟨q, hq, hrounds, heq⟩ := ofNat_eq n
  have hle : (n : ℚ) ≤ 10 ^ 308 :=
    calc (n : ℚ) ≤ 10 ^ 20 := by
          have : n ≤ 10 ^ 20 := by omega
          exact_mod_cast this
      _ ≤ 10 ^ 308 := pow_le_pow_right₀ (by norm_num) (by norm_num)
  refine ⟨q, hrounds.fits hq hle, hrounds, ?_⟩
  have htoNat : n.toUInt64.toNat = n := UInt64.toNat_ofNat_of_lt' hn
  change Float.ofModel (.pack (UnpackedFloat.ofNat Format.binary64 n.toUInt64.toNat)) = _
  rw [htoNat, heq]
  rfl

section

variable {d d' : Dyadic}

theorem toFloat_div (hd : d.Fits) (hd' : d'.Fits) (hpos : 0 < d'.mantissa) :
    ∃ q : Dyadic, q.IsDouble ∧ q.Rounds (d.value / d'.value) ∧
      d.toFloat false / d'.toFloat false = q.toFloat false := by
  obtain ⟨q, hq, hrounds, heq⟩ := div_ofDyadic (d := d) hpos
  refine ⟨q, hq, hrounds, ?_⟩
  change Float.ofModel (.pack (UnpackedFloat.div Format.binary64 (d.toFloat false).toModel.unpack
    (d'.toFloat false).toModel.unpack)) = _
  rw [toModel_unpack_toFloat false hd, toModel_unpack_toFloat false hd', signOf_false, heq]
  rfl

theorem toFloat_mul (hd : d.Fits) (hd' : d'.Fits) :
    ∃ q : Dyadic, q.IsDouble ∧ q.Rounds (d.value * d'.value) ∧
      d.toFloat false * d'.toFloat false = q.toFloat false := by
  obtain ⟨q, hq, hrounds, heq⟩ := mul_ofDyadic hd.toIsDouble hd'.toIsDouble
  refine ⟨q, hq, hrounds, ?_⟩
  change Float.ofModel (.pack (UnpackedFloat.mul Format.binary64 (d.toFloat false).toModel.unpack
    (d'.toFloat false).toModel.unpack)) = _
  rw [toModel_unpack_toFloat false hd, toModel_unpack_toFloat false hd', signOf_false, heq]
  rfl

theorem toFloat_neg (hd : d.Fits) : -d.toFloat false = d.toFloat true := by
  change Float.ofModel (.pack (UnpackedFloat.neg (d.toFloat false).toModel.unpack)) = _
  rw [toModel_unpack_toFloat false hd]
  unfold Dyadic.toFloat ofDyadic
  split <;> rfl

end

/-! ## Comparison -/

/-- What is read off some doubles that are written down. -/
theorem unpack_literals : unpack 0.0 = .finite false .zero ∧
    unpack 1.0 = .finite false (.reduced 1 0) ∧ unpack 2.0 = .finite false (.reduced 1 1) := by
  decide +kernel

theorem unpack_zero : unpack 0.0 = .finite false .zero := unpack_literals.1

theorem unpack_one : unpack 1.0 = .finite false (.reduced 1 0) := unpack_literals.2.1

theorem unpack_two : unpack 2.0 = .finite false (.reduced 1 1) := unpack_literals.2.2

theorem value_one : (Dyadic.reduced 1 0).value = 1 := by
  rw [Dyadic.value_reduced (by decide) (by decide)]
  norm_num

theorem level_one : level 1.0 = some 1 := by
  rw [level_finite unpack_one, signed, if_neg Bool.false_ne_true, value_one]
  rfl

section

variable {x : Float} {negative : Bool} {d : Dyadic}

theorem toFloat_beq_zero (hd : d.Fits) (hpos : 0 < d.mantissa) :
    (d.toFloat false == 0.0) = false := by
  change (d.toFloat false).toModel.unpack.beq (0.0 : Float).toModel.unpack = false
  rw [toModel_unpack_toFloat false hd, toModel_unpack, unpack_zero, ofDyadic_pos hpos]
  rfl

theorem zero_le_iff (h : unpack x = .finite negative d) :
    0.0 ≤ x ↔ negative = false ∨ d.mantissa = 0 := by
  have hzero : signed false .zero = 0 := Dyadic.value_eq_zero rfl
  rw [le_finite_iff unpack_zero h, hzero, signed]
  cases negative with
  | false => exact iff_of_true (Dyadic.value_nonneg d) (.inl rfl)
  | true =>
    have hpos := Dyadic.value_pos_iff (d := d)
    rw [if_pos rfl, Left.nonneg_neg_iff, ← not_lt, hpos]
    simp

end

/-! ## Powers of ten -/

theorem five_pow_lt {k : ℕ} (hk : k ≤ 22) : 5 ^ k < 2 ^ 53 :=
  (Nat.pow_le_pow_right (by decide) hk).trans_lt (by norm_num)

/-- A power of ten up to `10 ^ 22` is a double. -/
theorem value_ten_pow {k : ℕ} (hk : k ≤ 22) : (Dyadic.reduced (5 ^ k) k).value = 10 ^ k := by
  rw [Dyadic.value_reduced (by positivity) (five_pow_lt hk), zpow_natCast]
  push_cast
  rw [← mul_pow]
  norm_num

theorem value_of_rounds_ten_pow {p : Dyadic} {k : ℕ} (hp : p.IsDouble) (h : p.Rounds (10 ^ k))
    (hk : k ≤ 22) : p.value = 10 ^ k := by
  rw [← value_ten_pow hk] at h ⊢
  rw [h.value_eq hp (Dyadic.isDouble_reduced (by positivity) (five_pow_lt hk) (by omega))]

/-- The powers of ten that are doubles are looked up. -/
theorem unpack_powerOfTen_small : ∀ k : Fin 23,
    unpack (Json.powerOfTen k) = .finite false (.reduced (5 ^ (k : ℕ)) k) := by
  decide +kernel

theorem powerOfTen_large {k : ℕ} (hk : 23 ≤ k) :
    Json.powerOfTen k = .ofModel (.pack (UnpackedFloat.ofScientific Format.binary64 1 k)) := by
  unfold Json.powerOfTen Float.ofScientific
  rw [dif_neg (by omega)]
  rfl

theorem ofScientific_eq {n k : ℕ} (hn : 0 < n) (hk : k ≤ 308) :
    UnpackedFloat.ofScientific Format.binary64 n k =
      UnpackedFloat.mul Format.binary64
        (.finite .positive (n <<< 53) (-53) (by rw [Nat.shiftLeft_eq]; positivity))
        (.finite .positive (10 ^ k) 0 (by positivity)) := by
  unfold UnpackedFloat.ofScientific
  rw [dif_neg hn.ne', if_neg, if_neg, if_pos (Int.natCast_nonneg k)]
  · rfl
  · change ¬ (k : ℤ) < -(2048 + (n.log2 : ℤ))
    omega
  · change ¬ (k : ℤ) > 2048
    omega

/-- Digits and an exponent of ten are one product, rounded once. -/
theorem rounds_ofScientific {n k : ℕ} (hn : 0 < n) (hk : k ≤ 308) :
    ∃ q : Dyadic, q.IsDouble ∧ q.Rounds (n * 10 ^ k) ∧
      UnpackedFloat.ofScientific Format.binary64 n k = ofDyadic .positive q := by
  have hshift : 0 < n <<< 53 := by
    rw [Nat.shiftLeft_eq]
    positivity
  have hpow : 0 < 10 ^ k := by positivity
  obtain ⟨q, hq, hrounds, heq⟩ := mul_finite (-53) 0 hshift hpow (.inl (by
    rw [Nat.shiftLeft_eq]
    calc 2 ^ 52 ≤ 1 * 2 ^ 53 * 1 := by norm_num
      _ ≤ n * 2 ^ 53 * 10 ^ k := by gcongr <;> omega))
  have hexact : ((n <<< 53 : ℕ) : ℚ) * 2 ^ (-53 : ℤ) * ((10 ^ k : ℕ) * 2 ^ (0 : ℤ)) =
      n * 10 ^ k := by
    rw [Nat.shiftLeft_eq, zpow_zero]
    push_cast
    ring
  rw [hexact] at hrounds
  exact ⟨q, hq, hrounds, (ofScientific_eq hn hk).trans heq⟩

/-- The double of a power of ten. -/
theorem powerOfTen_eq {k : ℕ} (hk : k ≤ 308) :
    ∃ q : Dyadic, q.Fits ∧ q.Rounds (10 ^ k) ∧ Json.powerOfTen k = q.toFloat false := by
  by_cases hsmall : k < 23
  · have hunpack := unpack_powerOfTen_small ⟨k, hsmall⟩
    refine ⟨_, fits_of_unpack hunpack, ?_, (toFloat_of_unpack hunpack).symm⟩
    rw [← value_ten_pow (Nat.le_of_lt_succ hsmall)]
    exact Dyadic.rounds_value _
  · obtain ⟨q, hq, hrounds, heq⟩ := rounds_ofScientific one_pos hk
    rw [Nat.cast_one, one_mul] at hrounds
    refine ⟨q, hrounds.fits hq (pow_le_pow_right₀ (by norm_num) hk), hrounds, ?_⟩
    rw [powerOfTen_large (by omega)]
    exact congrArg (fun x => Float.ofModel (.pack x)) heq

/-! ## Natural numbers -/

theorem value_two : (Dyadic.reduced 1 1).value = 2 := by
  rw [Dyadic.value_reduced (by decide) (by decide)]
  norm_num

/-- An integer of at most 53 bits that rounds to a double is that double. -/
theorem value_of_rounds_natCast {q : Dyadic} {n : ℕ} (hq : q.IsDouble) (h : q.Rounds n)
    (hn : n ≤ 2 ^ 53) : q.value = n := by
  rcases Nat.eq_zero_or_pos n with rfl | hpos
  · rw [Nat.cast_zero, ← Dyadic.value_eq_zero (d := .zero) rfl] at h
    rw [h.value_eq hq Dyadic.isDouble_zero, Dyadic.value_eq_zero rfl, Nat.cast_zero]
  · obtain ⟨d, hd, hvalue⟩ := Dyadic.exists_value_eq hpos hn
    rw [← hvalue] at h ⊢
    rw [h.value_eq hq hd]

/-- The double of a small integer is the integer itself. -/
theorem toFloat_natCast {n : ℕ} (hn : n < 2 ^ 53) :
    ∃ q : Dyadic, q.Fits ∧ q.value = n ∧ n.toFloat = q.toFloat false := by
  obtain ⟨q, hq, hrounds, heq⟩ := toFloat_toUInt64 (n := n) (by omega)
  obtain ⟨p, hp, hproduct, hmul⟩ := toFloat_mul hq (fits_of_unpack unpack_one)
  rw [value_one, mul_one] at hproduct
  obtain rfl : p = q := hproduct.value_eq hp hq.toIsDouble
  refine ⟨p, hq, value_of_rounds_natCast hp hrounds hn.le, ?_⟩
  -- the integer is read as a decimal, and multiplied by the power of ten with exponent zero
  have hone : Float.exactlyRepresentablePowersOfTen[0] = 1.0 := rfl
  rw [← hmul, ← heq, toFloat_of_unpack unpack_one, ← hone]
  exact dif_pos ⟨hn, Nat.zero_le 22⟩

/-- The double of any natural number, which may be infinite. -/
theorem exists_rounds_natCast (n : ℕ) :
    ∃ q : Dyadic, q.IsDouble ∧ q.Rounds n ∧ n.toFloat = q.toFloat false := by
  by_cases hsmall : n < 2 ^ 53
  · obtain ⟨q, hq, hvalue, heq⟩ := toFloat_natCast hsmall
    refine ⟨q, hq.toIsDouble, ?_, heq⟩
    rw [← hvalue]
    exact Dyadic.rounds_value q
  · obtain ⟨q, hq, hrounds, heq⟩ := rounds_ofScientific (n := n) (k := 0) (by omega) (by decide)
    rw [pow_zero, mul_one] at hrounds
    refine ⟨q, hq, hrounds, ?_⟩
    have hlarge : n.toFloat =
        .ofModel (.pack (UnpackedFloat.ofScientific Format.binary64 n (0 : ℕ))) :=
      dif_neg fun h => hsmall h.1
    rw [hlarge, heq]
    rfl

/-- Twice the double of a natural number is the double of twice the number. -/
theorem rounds_two_mul {d q : Dyadic} {n : ℕ} (hd : d.IsDouble) (hn : d.Rounds n)
    (hq : q.IsDouble) (hproduct : q.Rounds (2 * d.value)) : q.Rounds (2 * n) := by
  by_cases hsmall : n ≤ 2 ^ 53
  · rwa [value_of_rounds_natCast hd hn hsmall] at hproduct
  · have hlarge : (2 ^ 53 : ℕ) ≤ d.value :=
      hn.natCast_le hd (by norm_num) le_rfl (by exact_mod_cast (not_le.mp hsmall).le)
    have hexponent : -1074 < d.exponent := by
      by_contra hleast
      have hmantissa : (d.mantissa : ℚ) < 2 ^ 53 := by exact_mod_cast hd.mantissa_lt
      have hunit : (2 : ℚ) ^ d.exponent ≤ 1 := zpow_le_one_of_nonpos₀ (by norm_num) (by omega)
      have : d.value < 2 ^ 53 := by
        unfold Dyadic.value
        nlinarith
      push_cast at hlarge
      exact this.not_ge hlarge
    have hdouble : (Dyadic.mk d.mantissa (d.exponent + 1)).IsDouble :=
      ⟨hd.mantissa_lt, by dsimp only; omega, .inr (hd.full.resolve_left (by omega))⟩
    have hvalue : 2 * d.value = (Dyadic.mk d.mantissa (d.exponent + 1)).value := by
      unfold Dyadic.value
      rw [zpow_add_one₀ (by norm_num)]
      ring
    rw [hvalue] at hproduct
    obtain rfl := hproduct.value_eq hq hdouble
    exact hn.double hexponent

/-! ## Infinite doubles -/

theorem level_of_zero {x : Float} {s : Sign} (h : x.toModel.unpack = .zero s) :
    level x = some 0 := by
  rw [toModel_unpack] at h
  cases hx : unpack x with
  | nan | infinite negative =>
    rw [hx] at h
    cases h
  | finite negative d =>
    rw [hx, Unpacked.parts, ofDyadic] at h
    split at h
    · rename_i hzero
      rw [level_finite hx, signed, Dyadic.value_eq_zero hzero]
      simp
    · cases h

theorem level_of_notANumber {x : Float} (h : x.toModel.unpack = .notANumber) :
    level x = none := by
  rw [toModel_unpack] at h
  cases hx : unpack x with
  | nan => exact congrArg Unpacked.level hx
  | infinite negative =>
    rw [hx] at h
    cases h
  | finite negative d =>
    rw [hx, Unpacked.parts, ofDyadic] at h
    split at h <;> cases h

theorem unpack_pack_notANumber : (Float.Model.pack .notANumber).unpack = .notANumber := rfl

/-- What is divided by an infinite double becomes zero, if it is a number at all. -/
theorem level_div_large {x : Float} {d : Dyadic} (hd : d.IsDouble) (hlarge : 971 < d.exponent) :
    ∀ u ∈ level (x / d.toFloat false), u = 0 := by
  have hdiv : (x / d.toFloat false).toModel.unpack = (Float.Model.pack
      (UnpackedFloat.div Format.binary64 x.toModel.unpack (.infinity .positive))).unpack := by
    rw [← signOf_false, ← unpack_pack_large _ hd hlarge]
    rfl
  intro u hu
  cases hx : x.toModel.unpack with
  | notANumber | infinity s =>
    rw [hx] at hdiv
    rw [level_of_notANumber (hdiv.trans unpack_pack_notANumber)] at hu
    cases hu
  | zero s | finite s m e hm =>
    rw [hx] at hdiv
    rw [level_of_zero (hdiv.trans unpack_packedZero)] at hu
    exact (Option.some.inj hu).symm

end LuaChecker.Decimal
