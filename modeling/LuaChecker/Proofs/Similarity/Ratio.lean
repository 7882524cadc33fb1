import LuaChecker.Proofs.Similarity.Blocks

/-!
# Bounds of the ratio

The characters in matching blocks are at most half of all characters, and rounding keeps the
order, so a ratio is never more than one. It is a number for all words whose characters can be
counted in 64 bits.

* `exists_ratio`: the ratio of two words is a share;
* `level_ratio_le`: no ratio is more than one, and this holds for words of any length;
* `ratio_isNaN`: the ratio of two words is a number.
-/

namespace LuaChecker.Similarity

open Decimal

variable {a b : String}

theorem two_mul_matching_le (a b : String) :
    2 * matching a b ≤ a.toList.length + b.toList.length :=
  two_mul_le_of_matches (matches_matching a b)

/-- The double of twice the number of matching characters. -/
theorem exists_twice_matching {total : Decimal.Dyadic} (htotal : total.Fits)
    (hrounds : total.Rounds (a.toList.length + b.toList.length : ℕ)) :
    ∃ twice : Decimal.Dyadic, twice.Fits ∧ twice.value ≤ total.value ∧
      2.0 * (matching a b).toFloat = twice.toFloat false := by
  have hhalf := two_mul_matching_le a b
  obtain ⟨n, hn, hnrounds, hnfloat⟩ := exists_rounds_natCast (matching a b)
  have hnfits : n.Fits := by
    refine hn.fits_of_le htotal (hnrounds.value_le hn htotal.toIsDouble hrounds ?_)
    exact_mod_cast (by omega : matching a b ≤ a.toList.length + b.toList.length)
  obtain ⟨twice, htwice, hproduct, hmul⟩ := toFloat_mul (fits_of_unpack unpack_two) hnfits
  rw [toFloat_of_unpack unpack_two, ← hnfloat] at hmul
  rw [value_two] at hproduct
  have hle : twice.value ≤ total.value := by
    refine (rounds_two_mul hn hnrounds htwice hproduct).value_le htwice htotal.toIsDouble hrounds ?_
    exact_mod_cast hhalf
  exact ⟨twice, htwice.fits_of_le htotal hle, hle, hmul⟩

/-- The ratio is a share if the number of all characters has a finite double. -/
theorem exists_ratio_of_fits (h : a ≠ "" ∨ b ≠ "") {total : Decimal.Dyadic} (htotal : total.Fits)
    (hrounds : total.Rounds (a.toList.length + b.toList.length : ℕ))
    (hfloat : (a.toList.length + b.toList.length).toFloat = total.toFloat false) :
    ∃ q : Decimal.Dyadic, q.Fits ∧ q.value ≤ 1 ∧ ratio a b = q.toFloat false := by
  obtain ⟨twice, htwice, hle, hmul⟩ := exists_twice_matching htotal hrounds
  have hpositive : 0 < total.value := by
    have hone := hrounds.natCast_le (n := 1) htotal.toIsDouble one_pos (by norm_num)
      (by exact_mod_cast length_pos_of_ne h)
    push_cast at hone
    linarith
  obtain ⟨q, hq, hquotient, hdiv⟩ :=
    toFloat_div htwice htotal (Decimal.Dyadic.value_pos_iff.mp hpositive)
  have hone := fits_of_unpack unpack_one
  have hshare : q.value ≤ (Decimal.Dyadic.reduced 1 0).value := by
    refine hquotient.value_le_of_le hq hone.toIsDouble ?_
    rw [value_one]
    exact (div_le_one hpositive).mpr hle
  refine ⟨q, hq.fits_of_le hone hshare, value_one ▸ hshare, ?_⟩
  rw [ratio_of_ne h, hmul, hfloat, hdiv]

/-- The ratio of two words is a share. -/
theorem exists_ratio (hlength : a.toList.length + b.toList.length < 2 ^ 64) :
    ∃ q : Decimal.Dyadic, q.Fits ∧ q.value ≤ 1 ∧ ratio a b = q.toFloat false := by
  by_cases hempty : a.toList.length + b.toList.length = 0
  · refine ⟨_, fits_of_unpack unpack_one, value_one.le, ?_⟩
    rw [toFloat_of_unpack unpack_one]
    exact if_pos hempty
  · obtain ⟨total, htotal, hrounds, hfloat⟩ :=
      exists_rounds_natCast (a.toList.length + b.toList.length)
    have hfits : total.Fits := by
      refine hrounds.fits htotal ?_
      calc ((a.toList.length + b.toList.length : ℕ) : ℚ) ≤ 10 ^ 20 := by
            exact_mod_cast (by omega : a.toList.length + b.toList.length ≤ 10 ^ 20)
        _ ≤ 10 ^ 308 := pow_le_pow_right₀ (by norm_num) (by norm_num)
    exact exists_ratio_of_fits (ne_of_length_ne hempty) hfits hrounds hfloat

theorem ratio_isNaN (hlength : a.toList.length + b.toList.length < 2 ^ 64) :
    (ratio a b).isNaN = false := by
  obtain ⟨q, hq, -, hratio⟩ := exists_ratio hlength
  rw [hratio, ← isSome_level_iff, level_finite (unpack_toFloat false hq)]
  rfl

/-- No ratio is more than one. -/
theorem level_ratio_le : ∀ u ∈ level (ratio a b), u ≤ 1 := by
  intro u hu
  by_cases hempty : a.toList.length + b.toList.length = 0
  · rw [show ratio a b = 1.0 from if_pos hempty, level_one] at hu
    exact (Option.some.inj hu).ge
  · have hne := ne_of_length_ne hempty
    obtain ⟨total, htotal, hrounds, hfloat⟩ :=
      exists_rounds_natCast (a.toList.length + b.toList.length)
    by_cases hlarge : 971 < total.exponent
    · rw [ratio_of_ne hne, hfloat] at hu
      rw [level_div_large htotal hlarge u hu]
      exact zero_le_one
    · obtain ⟨q, hq, hle, hratio⟩ :=
        exists_ratio_of_fits hne ⟨htotal, not_lt.mp hlarge⟩ hrounds hfloat
      rw [hratio, level_finite (unpack_toFloat false hq)] at hu
      rw [← Option.some.inj hu]
      exact_mod_cast hle

/-- A threshold of one or more is never exceeded, and neither is one that is not a number. -/
theorem not_lt_ratio {threshold : Float} (h : 1.0 ≤ threshold ∨ threshold.isNaN = true) :
    ¬ threshold < ratio a b := by
  intro hlt
  obtain ⟨t, ht, u, hu, htu⟩ := lt_iff_level.mp hlt
  rcases h with h | h
  · obtain ⟨v, hv, t', ht', hvt⟩ := le_iff_level.mp h
    obtain rfl := Option.mem_unique ht ht'
    obtain rfl := Option.mem_unique hv level_one
    exact absurd (htu.trans_le (level_ratio_le u hu)) hvt.not_gt
  · have : (level threshold).isSome = true := Option.isSome_of_mem ht
    rw [isSome_level_iff, h] at this
    cases this

end LuaChecker.Similarity
