import LuaChecker.Proofs.Decimal.Arithmetic
import LuaChecker.Proofs.Decimal.Places

/-!
# Reading a JSON number as a double

The digits of a numeral are gathered into an integer, which is rounded to a double; the power
of ten is rounded to a double; and the quotient or the product of the two is rounded. If the
integer and the power are doubles themselves, only the last of these steps rounds.

* `double?_eq`: an integer with room for all digits;
* `scale?_exact`: only one step rounds;
* `scale?_le_one`, `scale?_pos`, `scale?_gt_one`, `scale?_whole`: what is kept in any case.
-/

namespace LuaChecker.Json

open Decimal

/-! ## Gathering digits -/

namespace Gathered

theorem addWhole_of_room {ds : List Digit} {d : Digit} {e : ℤ} (h : ofDigits (ds ++ [d]) ≤ limit) :
    addWhole ⟨ofDigits ds, e, false⟩ d = ⟨ofDigits (ds ++ [d]), e, false⟩ := by
  rw [ofDigits_concat] at h ⊢
  unfold addWhole
  rw [if_neg (by simpa using h)]

theorem addFraction_of_room {ds : List Digit} {d : Digit} {e : ℤ}
    (h : ofDigits (ds ++ [d]) ≤ limit) :
    addFraction ⟨ofDigits ds, e, false⟩ d = ⟨ofDigits (ds ++ [d]), e - 1, false⟩ := by
  rw [ofDigits_concat] at h ⊢
  unfold addFraction
  rw [if_neg (by simpa using h)]

theorem ofDigits_le_append (ds es : List Digit) : ofDigits ds ≤ ofDigits (ds ++ es) := by
  rw [ofDigits_append]
  exact (Nat.le_mul_of_pos_right _ (by positivity)).trans (Nat.le_add_right _ _)

theorem foldl_addWhole (es ds : List Digit) (e : ℤ)
    (h : ofDigits (ds ++ es) ≤ limit) :
    es.foldl addWhole ⟨ofDigits ds, e, false⟩ = ⟨ofDigits (ds ++ es), e, false⟩ := by
  induction es generalizing ds with
  | nil => rw [List.append_nil, List.foldl_nil]
  | cons d es ih =>
    rw [List.append_cons] at h ⊢
    rw [List.foldl_cons, addWhole_of_room ((ofDigits_le_append _ es).trans h), ih _ h]

theorem foldl_addFraction (es ds : List Digit) (e : ℤ)
    (h : ofDigits (ds ++ es) ≤ limit) :
    es.foldl addFraction ⟨ofDigits ds, e, false⟩ = ⟨ofDigits (ds ++ es), e - es.length, false⟩ := by
  induction es generalizing ds e with
  | nil => rw [List.append_nil, List.foldl_nil, List.length_nil, Nat.cast_zero, sub_zero]
  | cons d es ih =>
    rw [List.append_cons] at h ⊢
    rw [List.foldl_cons, addFraction_of_room ((ofDigits_le_append _ es).trans h), ih _ _ h,
      List.length_cons, Nat.cast_succ, sub_sub, add_comm]

theorem ofNumeral_of_room {n : Numeral} (h : n.significand ≤ limit) :
    ofNumeral n = ⟨n.significand, -n.fraction.length, false⟩ := by
  have hwhole := foldl_addWhole n.whole [] 0 ((ofDigits_le_append _ n.fraction).trans h)
  have hfraction := foldl_addFraction n.fraction n.whole 0 h
  rw [zero_sub] at hfraction
  unfold ofNumeral
  change n.whole.foldl addWhole ⟨0, 0, false⟩ = _ at hwhole
  rw [hwhole]
  exact hfraction

end Gathered

/-- A numeral is read as its integer and its power of ten, if the integer has room for all
digits. -/
theorem double?_eq {n : Numeral} (h : n.significand < 2 ^ 64) :
    double? n = (scale? n.significand.toUInt64.toFloat n.power).map fun x =>
      if n.negative then -x else x := by
  have hroom : n.significand ≤ Gathered.limit := by
    change n.significand ≤ 2 ^ 64 - 1
    omega
  have hpower : -(n.fraction.length : ℤ) + n.exponent.getD 0 = n.power := neg_add_eq_sub _ _
  unfold double?
  simp only [Gathered.ofNumeral_of_room hroom, hpower]

/-- The sign is put on a double that was read. -/
theorem double?_of_scale? {n : Numeral} {q : Decimal.Dyadic} (h : n.significand < 2 ^ 64)
    (hq : q.Fits) (hscale : scale? n.significand.toUInt64.toFloat n.power = some (q.toFloat false)) :
    double? n = some (q.toFloat n.negative) := by
  rw [double?_eq h, hscale, Option.map_some]
  cases n.negative with
  | false => rfl
  | true => rw [if_pos rfl, toFloat_neg hq]

theorem double?_of_scale?_none {n : Numeral} (h : n.significand < 2 ^ 64)
    (hscale : scale? n.significand.toUInt64.toFloat n.power = none) : double? n = none := by
  rw [double?_eq h, hscale, Option.map_none]

variable {a : Decimal.Dyadic}

/-! ## Scaling -/

theorem isDouble_one : (Dyadic.reduced 1 0).IsDouble :=
  Dyadic.isDouble_reduced (by decide) (by decide) (by decide)

theorem one_le_value {d : Decimal.Dyadic} {v : ℚ} (hd : d.IsDouble) (h : d.Rounds v) (hv : 1 ≤ v) :
    1 ≤ d.value := by
  rw [← value_one] at hv ⊢
  exact h.le_value hd isDouble_one hv

theorem value_le_one {d : Decimal.Dyadic} {v : ℚ} (hd : d.IsDouble) (h : d.Rounds v) (hv : v ≤ 1) :
    d.value ≤ 1 := by
  rw [← value_one] at hv ⊢
  exact h.value_le_of_le hd isDouble_one hv

theorem one_le_ten_pow (k : ℕ) : (1 : ℚ) ≤ 10 ^ k :=
  one_le_pow₀ (by norm_num)

/-- A power of ten that is small enough for a double. -/
theorem scale?_div (ha : a.Fits) {k : ℕ} (hk : 0 < k) (hk' : k ≤ 308) :
    ∃ p q : Decimal.Dyadic, p.IsDouble ∧ p.Rounds (10 ^ k) ∧ q.Fits ∧ q.Rounds (a.value / p.value) ∧
      a.toFloat false / powerOfTen k = q.toFloat false ∧
      scale? (a.toFloat false) (-k) = some (q.toFloat false) := by
  obtain ⟨p, hp, hpower, hpeq⟩ := powerOfTen_eq hk'
  have hone : 1 ≤ p.value := one_le_value hp.toIsDouble hpower (one_le_ten_pow k)
  have hpos : 0 < p.mantissa := Dyadic.value_pos_iff.mp (by linarith)
  obtain ⟨q, hq, hrounds, hqeq⟩ := toFloat_div ha hp hpos
  have hle : q.value ≤ a.value :=
    hrounds.value_le_of_le hq ha.toIsDouble (div_le_self a.value_nonneg hone)
  refine ⟨p, q, hp.toIsDouble, hpower, hq.fits_of_le ha hle, hrounds, by rw [hpeq, hqeq], ?_⟩
  rw [scale?, if_neg (by omega), if_pos (by omega), Int.natAbs_neg, Int.natAbs_natCast, hpeq, hqeq]

/-- A power of ten that is too large for a double is divided by in two steps. -/
theorem scale?_div_far (ha : a.Fits) (hpos : 0 < a.mantissa) {k : ℕ} (hk : 308 < k)
    (hk' : k ≤ 616) :
    ∃ p b p' q : Decimal.Dyadic, p.IsDouble ∧ p.Rounds (10 ^ 308) ∧
      b.Fits ∧ b.Rounds (a.value / p.value) ∧ p'.IsDouble ∧ p'.Rounds (10 ^ (k - 308)) ∧
      q.Fits ∧ q.Rounds (b.value / p'.value) ∧
      scale? (a.toFloat false) (-k) = some (q.toFloat false) := by
  obtain ⟨p, b, hp, hpower, hb, hquotient, hbeq, -⟩ := scale?_div ha (k := 308) (by decide) le_rfl
  obtain ⟨p', q, hp', hpower', hq, hquotient', -, hscale⟩ :=
    scale?_div hb (k := k - 308) (by omega) (by omega)
  have hexponent : -(k : ℤ) + 308 = -(k - 308 : ℕ) := by omega
  refine ⟨p, b, p', q, hp, hpower, hb, hquotient, hp', hpower', hq, hquotient', ?_⟩
  rw [scale?, if_neg (by omega), if_neg (by omega), toFloat_beq_zero ha hpos, if_neg (by decide),
    hexponent, hbeq, hscale]

theorem scale?_mul (ha : a.Fits) {k : ℕ} (hk : k ≤ 308) :
    ∃ p q : Decimal.Dyadic, p.IsDouble ∧ p.Rounds (10 ^ k) ∧ q.IsDouble ∧ q.Rounds (a.value * p.value) ∧
      scale? (a.toFloat false) k = if 971 < q.exponent then none else some (q.toFloat false) := by
  obtain ⟨p, hp, hpower, hpeq⟩ := powerOfTen_eq hk
  obtain ⟨q, hq, hrounds, hqeq⟩ := toFloat_mul ha hp
  refine ⟨p, q, hp.toIsDouble, hpower, hq, hrounds, ?_⟩
  rw [scale?, if_pos (by omega), if_pos (by omega), Int.toNat_natCast, hpeq, hqeq]
  simp only [isInf_toFloat false hq, decide_eq_true_eq]

theorem scale?_mul_far (ha : a.Fits) (hpos : 0 < a.mantissa) {k : ℕ} (hk : 308 < k) :
    scale? (a.toFloat false) k = none := by
  rw [scale?, if_pos (by omega), if_neg (by omega), toFloat_beq_zero ha hpos, if_neg (by decide)]

/-! ## Integers with a power of ten -/

theorem scale?_zero {k : ℕ} (hk : 0 < k) (hk' : k ≤ 308) :
    scale? (0 : ℕ).toUInt64.toFloat (-k) = some (Decimal.Dyadic.zero.toFloat false) := by
  obtain ⟨a, ha, hinteger, haeq⟩ := toFloat_toUInt64 (n := 0) (by decide)
  obtain ⟨p, q, -, -, hq, hquotient, -, hscale⟩ := scale?_div ha hk hk'
  have hvalue : Decimal.Dyadic.zero.value = 0 := Dyadic.value_eq_zero rfl
  rw [Nat.cast_zero, ← hvalue] at hinteger
  rw [hinteger.value_eq ha.toIsDouble Dyadic.isDouble_zero, hvalue, zero_div, ← hvalue] at hquotient
  rw [haeq, hscale, hquotient.value_eq hq.toIsDouble Dyadic.isDouble_zero]

section Integer

variable {n k : ℕ}

/-- An integer and a power of ten that are doubles are divided exactly, and then rounded. -/
theorem scale?_exact {d : Decimal.Dyadic} (hd : d.IsDouble) (hn : 0 < n) (hn' : n ≤ 2 ^ 53)
    (hk : 0 < k) (hk' : k ≤ 22) (h : d.Rounds (n * 10 ^ (-k : ℤ))) :
    scale? n.toUInt64.toFloat (-k) = some (d.toFloat false) := by
  obtain ⟨a, ha, hinteger, haeq⟩ := toFloat_toUInt64 (n := n) (by omega)
  obtain ⟨p, q, hp, hpower, hq, hquotient, -, hscale⟩ := scale?_div ha hk (by omega)
  obtain ⟨a', ha', hvalue⟩ := Dyadic.exists_value_eq hn hn'
  rw [← hvalue] at hinteger
  obtain rfl := hinteger.value_eq ha.toIsDouble ha'
  rw [hvalue, value_of_rounds_ten_pow hp hpower hk'] at hquotient
  rw [zpow_neg, zpow_natCast, ← div_eq_mul_inv] at h
  rw [haeq, hscale, hquotient.unique hq.toIsDouble hd h]

/-- A share is read as a share. -/
theorem scale?_le_one (hn : 0 < n) (hn' : n < 2 ^ 64) (hk : 0 < k) (hk' : k ≤ 616)
    (hle : n ≤ 10 ^ k) :
    ∃ q : Decimal.Dyadic, q.Fits ∧ q.value ≤ 1 ∧
      scale? n.toUInt64.toFloat (-k) = some (q.toFloat false) := by
  obtain ⟨a, ha, hinteger, haeq⟩ := toFloat_toUInt64 hn'
  rw [haeq]
  rcases le_or_gt k 308 with hnear | hfar
  · obtain ⟨p, q, hp, hpower, hq, hquotient, -, hscale⟩ := scale?_div ha hk hnear
    refine ⟨q, hq, value_le_one hq.toIsDouble hquotient ?_, hscale⟩
    exact div_le_one_of_le₀
      (hinteger.value_le ha.toIsDouble hp hpower (by exact_mod_cast hle)) p.value_nonneg
  · have hone : 1 ≤ a.value := one_le_value ha.toIsDouble hinteger (by exact_mod_cast hn)
    obtain ⟨p, b, p', q, hp, hpower, hb, hquotient, hp', hpower', hq, hquotient', hscale⟩ :=
      scale?_div_far ha (Dyadic.value_pos_iff.mp (by linarith)) hfar hk'
    have hlarge : (n : ℚ) ≤ 10 ^ 308 :=
      calc (n : ℚ) ≤ 10 ^ 20 := by
            have : n ≤ 10 ^ 20 := by omega
            exact_mod_cast this
        _ ≤ 10 ^ 308 := pow_le_pow_right₀ (by norm_num) (by norm_num)
    have hbone : b.value ≤ 1 := by
      refine value_le_one hb.toIsDouble hquotient ?_
      exact div_le_one_of_le₀ (hinteger.value_le ha.toIsDouble hp hpower hlarge) p.value_nonneg
    have hpone' : 1 ≤ p'.value := one_le_value hp' hpower' (one_le_ten_pow _)
    refine ⟨q, hq, value_le_one hq.toIsDouble hquotient' ?_, hscale⟩
    exact div_le_one_of_le₀ (hbone.trans hpone') p'.value_nonneg

theorem mantissa_pos_of_rounds {q : Decimal.Dyadic} {v : ℚ} (hq : q.IsDouble) (h : q.Rounds v)
    (hv : 2 ^ (-1074 : ℤ) < 2 * v) : 0 < q.mantissa := by
  by_contra hzero
  have hzero : q.mantissa = 0 := by omega
  have hleast : q.exponent = -1074 := hq.full.resolve_right (by omega)
  have hhigh := h.le_high
  unfold Dyadic.high at hhigh
  rw [hzero, hleast] at hhigh
  generalize (2 : ℚ) ^ (-1074 : ℤ) = least at hv hhigh
  push_cast at hhigh
  linarith

/-- The powers of ten that are divided by are not much larger than they should be. -/
theorem value_mul_least_le {p : Decimal.Dyadic} (hp : p.IsDouble) (h : p.Rounds (10 ^ k))
    (hk : k ≤ 308) : p.value * 2 ^ (-1074 : ℤ) ≤ 9 * 2 ^ (-54 : ℤ) := by
  have hlarge : (Dyadic.reduced 9 1020).value = 9 * 2 ^ (1020 : ℤ) := by
    rw [Dyadic.value_reduced (by decide) (by decide)]
    rfl
  have hnat : 10 ^ 308 ≤ 9 * 2 ^ 1020 := by decide +kernel
  have hle : (10 : ℚ) ^ k ≤ (Dyadic.reduced 9 1020).value :=
    calc (10 : ℚ) ^ k ≤ 10 ^ 308 := pow_le_pow_right₀ (by norm_num) hk
      _ ≤ 9 * 2 ^ 1020 := by exact_mod_cast hnat
      _ = (Dyadic.reduced 9 1020).value := by rw [hlarge, zpow_ofNat]
  have hvalue := h.value_le_of_le hp
    (Dyadic.isDouble_reduced (by decide) (by decide) (by decide)) hle
  rw [hlarge] at hvalue
  calc p.value * 2 ^ (-1074 : ℤ) ≤ 9 * 2 ^ (1020 : ℤ) * 2 ^ (-1074 : ℤ) := by gcongr
    _ = 9 * 2 ^ (-54 : ℤ) := by rw [mul_assoc, ← zpow_add₀ (by norm_num)]; rfl

/-- After the first of two divisions there are still enough digits. -/
theorem le_value_of_rounds_div {p b : Decimal.Dyadic} {c m : ℕ} (hp : p.IsDouble)
    (hpower : p.Rounds (10 ^ 308)) (hb : b.IsDouble) (hquotient : b.Rounds (a.value / p.value))
    (hc : (c : ℚ) ≤ a.value) (hm : m < 2 ^ 53) (hcm : 9 * m ≤ c * 2 ^ 54) :
    (m : ℚ) * 2 ^ (-1074 : ℤ) ≤ b.value := by
  have hpone : 1 ≤ p.value := one_le_value hp hpower (one_le_ten_pow 308)
  have hple := value_mul_least_le hp hpower le_rfl
  have hmc : (m : ℚ) * (9 * 2 ^ (-54 : ℤ)) ≤ c := by
    have : (9 : ℚ) * m ≤ c * 2 ^ 54 := by exact_mod_cast hcm
    rw [zpow_neg, zpow_ofNat, ← div_eq_mul_inv, mul_div_assoc', div_le_iff₀ (by norm_num)]
    linarith
  have hdouble : (Dyadic.mk m (-1074)).IsDouble := ⟨hm, le_rfl, .inl rfl⟩
  refine hquotient.le_value hb hdouble ?_
  rw [le_div_iff₀ (by linarith)]
  calc (Dyadic.mk m (-1074)).value * p.value = m * (p.value * 2 ^ (-1074 : ℤ)) := by
        unfold Dyadic.value
        ring
    _ ≤ m * (9 * 2 ^ (-54 : ℤ)) := by gcongr
    _ ≤ a.value := hmc.trans hc

/-- What is not too small for a double is not read as zero. -/
theorem scale?_pos (hn : 0 < n) (hn' : n < 2 ^ 64) (hk : 0 < k) (hk' : k ≤ 324)
    (hsmall : k = 324 → 3 ≤ n) :
    ∃ q : Decimal.Dyadic, q.Fits ∧ 0 < q.mantissa ∧
      scale? n.toUInt64.toFloat (-k) = some (q.toFloat false) := by
  obtain ⟨a, ha, hinteger, haeq⟩ := toFloat_toUInt64 hn'
  rw [haeq]
  have hone : 1 ≤ a.value := one_le_value ha.toIsDouble hinteger (by exact_mod_cast hn)
  have hleast : (0 : ℚ) < 2 ^ (-1074 : ℤ) := by positivity
  rcases le_or_gt k 308 with hnear | hfar
  · obtain ⟨p, q, hp, hpower, hq, hquotient, -, hscale⟩ := scale?_div ha hk hnear
    refine ⟨q, hq, mantissa_pos_of_rounds hq.toIsDouble hquotient ?_, hscale⟩
    have hpone : 1 ≤ p.value := one_le_value hp hpower (one_le_ten_pow k)
    have hple := (value_mul_least_le hp hpower hnear).trans_lt (by norm_num : _ < (1 : ℚ))
    rw [mul_div_assoc', lt_div_iff₀ (by linarith)]
    linarith
  · obtain ⟨p, b, p', q, hp, hpower, hb, hquotient, hp', hpower', hq, hquotient', hscale⟩ :=
      scale?_div_far ha (Dyadic.value_pos_iff.mp (by linarith)) hfar (by omega)
    refine ⟨q, hq, mantissa_pos_of_rounds hq.toIsDouble hquotient' ?_, hscale⟩
    rw [value_of_rounds_ten_pow hp' hpower' (by omega), mul_div_assoc', lt_div_iff₀ (by positivity)]
    -- The second power of ten is less than twice the mantissa that is left.
    obtain ⟨c, m, hc, hm, hcm, htwice⟩ : ∃ c m : ℕ, (c : ℚ) ≤ a.value ∧ m < 2 ^ 53 ∧
        9 * m ≤ c * 2 ^ 54 ∧ (10 : ℚ) ^ (k - 308) < 2 * m := by
      rcases eq_or_ne k 324 with rfl | hne
      · refine ⟨3, 5 * 2 ^ 50, ?_, by norm_num, by norm_num, by norm_num⟩
        exact hinteger.natCast_le ha.toIsDouble (by decide) (by norm_num)
          (by exact_mod_cast hsmall rfl)
      · refine ⟨1, 2 ^ 50, by exact_mod_cast hone, by norm_num, by norm_num, ?_⟩
        calc (10 : ℚ) ^ (k - 308) ≤ 10 ^ 15 := pow_le_pow_right₀ (by norm_num) (by omega)
          _ < 2 * (2 ^ 50 : ℕ) := by norm_num
    have hbvalue := le_value_of_rounds_div hp hpower hb.toIsDouble hquotient hc hm hcm
    calc (2 : ℚ) ^ (-1074 : ℤ) * 10 ^ (k - 308) < 2 ^ (-1074 : ℤ) * (2 * m) := by gcongr
      _ = 2 * (m * 2 ^ (-1074 : ℤ)) := by ring
      _ ≤ 2 * b.value := by gcongr

/-- What exceeds 1 by enough is read as more than 1. -/
theorem scale?_gt_one (hn' : n < 2 ^ 64) (hk : 0 < k) (hk' : k ≤ 16) (hgt : 10 ^ k < n)
    (hfine : k = 16 → 10 ^ 16 + 2 ≤ n) :
    ∃ q : Decimal.Dyadic, q.Fits ∧ 1 < q.value ∧
      scale? n.toUInt64.toFloat (-k) = some (q.toFloat false) := by
  obtain ⟨a, ha, hinteger, haeq⟩ := toFloat_toUInt64 hn'
  obtain ⟨p, q, hp, hpower, hq, hquotient, -, hscale⟩ := scale?_div ha hk (by omega)
  rw [value_of_rounds_ten_pow hp hpower (by omega)] at hquotient
  refine ⟨q, hq, ?_, by rw [haeq, hscale]⟩
  have hnext : (Dyadic.mk (2 ^ 52 + 1) (-52)).IsDouble := ⟨by norm_num, by norm_num, .inr (by norm_num)⟩
  -- The integer exceeds the power of ten by so much that the quotient rounds to more than 1.
  have hexcess : (1 + 2 / 10 ^ 16) * 10 ^ k ≤ a.value := by
    rcases eq_or_ne k 16 with rfl | hne
    · have hvalue : (Dyadic.reduced (5 * 10 ^ 15 + 1) 1).value = 10 ^ 16 + 2 := by
        rw [Dyadic.value_reduced (by norm_num) (by norm_num)]
        norm_num
      have hle : ((10 : ℚ) ^ 16 + 2) ≤ n := by exact_mod_cast hfine rfl
      rw [← hvalue] at hle
      have := hinteger.le_value ha.toIsDouble
        (Dyadic.isDouble_reduced (by norm_num) (by norm_num) (by norm_num)) hle
      rw [hvalue] at this
      linarith
    · have hpow : 10 ^ k ≤ 10 ^ 15 := Nat.pow_le_pow_right (by decide) (by omega)
      have := hinteger.natCast_le ha.toIsDouble (n := 10 ^ k + 1) (by positivity) (by omega)
        (by exact_mod_cast hgt)
      push_cast at this
      have : (10 : ℚ) ^ k ≤ 10 ^ 15 := by exact_mod_cast hpow
      linarith
  have hrounds : (Dyadic.mk (2 ^ 52 + 1) (-52)).Rounds (1 + 2 / 10 ^ 16) := by
    refine ⟨?_, ?_, ?_⟩ <;> norm_num [Dyadic.low, Dyadic.high, Dyadic.isNarrow]
  have hle := hrounds.value_le hnext hq.toIsDouble hquotient
    ((le_div_iff₀ (by positivity)).mpr hexcess)
  refine lt_of_lt_of_le ?_ hle
  unfold Dyadic.value
  norm_num

/-- What is not divided and exceeds 1 is read as more than 1, if it is not too large. -/
theorem scale?_whole (hn : 0 < n) (hn' : n < 2 ^ 64) (hgt : 1 < n * 10 ^ k) :
    scale? n.toUInt64.toFloat k = none ∨
      ∃ q : Decimal.Dyadic, q.Fits ∧ 1 < q.value ∧
        scale? n.toUInt64.toFloat k = some (q.toFloat false) := by
  obtain ⟨a, ha, hinteger, haeq⟩ := toFloat_toUInt64 hn'
  have hone : 1 ≤ a.value := one_le_value ha.toIsDouble hinteger (by exact_mod_cast hn)
  rw [haeq]
  rcases le_or_gt k 308 with hnear | hfar
  · obtain ⟨p, q, hp, hpower, hq, hproduct, hscale⟩ := scale?_mul ha hnear
    rw [hscale]
    split
    · exact .inl rfl
    · refine .inr ⟨q, ⟨hq, by omega⟩, ?_, rfl⟩
      have hpone : 1 ≤ p.value := one_le_value hp hpower (one_le_ten_pow k)
      have hfactors : 2 ≤ a.value ∨ 2 ≤ p.value := by
        rcases eq_or_ne n 1 with rfl | hne
        · have hten : 10 ^ 1 ≤ 10 ^ k := Nat.pow_le_pow_right (by decide) (by
            rcases Nat.eq_zero_or_pos k with rfl | hk
            · omega
            · exact hk)
          refine .inr (hpower.natCast_le hp (n := 2) (by decide) (by norm_num) ?_)
          have : 2 ≤ 10 ^ k := by omega
          exact_mod_cast this
        · refine .inl (hinteger.natCast_le ha.toIsDouble (n := 2) (by decide) (by norm_num) ?_)
          have : 2 ≤ n := by omega
          exact_mod_cast this
      have hle : 2 ≤ a.value * p.value := by
        rcases hfactors with hfactor | hfactor
        · exact hfactor.trans (le_mul_of_one_le_right a.value_nonneg hpone)
        · exact hfactor.trans (le_mul_of_one_le_left p.value_nonneg hone)
      have := hproduct.natCast_le hq (n := 2) (by decide) (by norm_num) (by exact_mod_cast hle)
      push_cast at this
      linarith
  · exact .inl (scale?_mul_far ha (Dyadic.value_pos_iff.mp (by linarith)) hfar)

end Integer

end LuaChecker.Json
