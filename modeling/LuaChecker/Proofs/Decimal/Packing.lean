import LuaChecker.Proofs.Decimal.Rounding
import Mathlib

/-!
# Doubles and their bits

The parts of a double are read off its bits, and they are the parts that arithmetic works
on. A double that is finite is made from its parts again.

* `toModel_unpack`: the parts that are read off are those that arithmetic works on;
* `fits_of_unpack`: what is read off a finite double is in its reduced form;
* `unpack_toFloat`, `toFloat_of_unpack`: taking apart and making are inverse.
-/

namespace LuaChecker.Decimal

open Float.Model Float.Model.UnpackedFloat

def signOf (negative : Bool) : Sign :=
  if negative then .negative else .positive

theorem signOf_inj {negative negative' : Bool} (h : signOf negative = signOf negative') :
    negative = negative' := by
  cases negative <;> cases negative'
  · rfl
  · cases h
  · cases h
  · rfl

/-- The parts of a double in the form that arithmetic works on. -/
def Unpacked.parts : Unpacked → UnpackedFloat
  | .nan => .notANumber
  | .infinite negative => .infinity (signOf negative)
  | .finite negative magnitude => ofDyadic (signOf negative) magnitude

/-- The double with a sign and a magnitude. -/
def Dyadic.toFloat (negative : Bool) (d : Dyadic) : Float :=
  .ofModel (.pack (ofDyadic (signOf negative) d))

/-! ## The fields of the bits -/

section Fields

variable (b : BitVec Format.binary64.numBits)

theorem toNat_unpackMantissa : (unpackMantissa b).toNat = b.toNat % 2 ^ 52 := by
  rw [unpackMantissa_def, BitVec.extractLsb'_toNat, Nat.shiftRight_zero]

theorem toNat_unpackExponent : (unpackExponent b).toNat = b.toNat / 2 ^ 52 % 2 ^ 11 := by
  rw [unpackExponent_def, BitVec.extractLsb'_toNat, Nat.shiftRight_eq_div_pow]

theorem ofBitVec_unpackSign : Sign.ofBitVec (unpackSign b) = signOf (b.toNat / 2 ^ 63 = 1) := by
  have hlt : b.toNat / 2 ^ 63 < 2 := by
    rw [Nat.div_lt_iff_lt_mul (by decide)]
    exact b.isLt
  have hsign : (unpackSign b).toNat = b.toNat / 2 ^ 63 := by
    rw [unpackSign_def, BitVec.extractLsb'_toNat, Nat.shiftRight_eq_div_pow]
    exact Nat.mod_eq_of_lt hlt
  unfold Sign.ofBitVec signOf
  by_cases hone : b.toNat / 2 ^ 63 = 1
  · have : unpackSign b ≠ 0#1 := by
      intro hzero
      rw [hzero] at hsign
      rw [← hsign] at hone
      cases hone
    rw [if_neg this, if_pos (by simpa using hone)]
  · have : unpackSign b = 0#1 := by
      apply BitVec.eq_of_toNat_eq
      rw [hsign]
      change b.toNat / 2 ^ 63 = 0
      omega
    rw [if_pos this, if_neg (by simpa using hone)]

end Fields

/-! ## Taking apart -/

theorem zero_ofDyadic (s : Sign) (e : ℤ) : ofDyadic s ⟨0, e⟩ = .zero s := rfl

theorem ofDyadic_zero {s : Sign} {d : Dyadic} (h : d.mantissa = 0) : ofDyadic s d = .zero s :=
  dif_pos h

theorem ofDyadic_pos {s : Sign} {d : Dyadic} (h : 0 < d.mantissa) :
    ofDyadic s d = .finite s d.mantissa d.exponent h :=
  dif_neg h.ne'

theorem finite_congr {s : Sign} {m m' : ℕ} {e e' : ℤ} {h : 0 < m} {h' : 0 < m'} (hm : m = m')
    (he : e = e') : UnpackedFloat.finite s m e h = .finite s m' e' h' := by
  subst hm he
  rfl

theorem unpackExponent_eq_iff (b : BitVec Format.binary64.numBits) (e : BitVec 11) :
    unpackExponent b = e ↔ b.toNat / 2 ^ 52 % 2 ^ 11 = e.toNat := by
  rw [← toNat_unpackExponent]
  exact BitVec.toNat_inj.symm

theorem unpackMantissa_eq_zero_iff (b : BitVec Format.binary64.numBits) :
    unpackMantissa b = 0#52 ↔ b.toNat % 2 ^ 52 = 0 := by
  rw [← toNat_unpackMantissa]
  exact BitVec.toNat_inj.symm

theorem toNat_one_append (m : BitVec 52) : (1#1 ++ m).toNat = 2 ^ 52 + m.toNat := by
  rw [BitVec.toNat_append, ← Nat.shiftLeft_add_eq_or_of_lt m.isLt]
  rfl

/-- The parts that are read off a double are those that arithmetic works on. -/
theorem toModel_unpack (x : Float) : x.toModel.unpack = (Decimal.unpack x).parts := by
  obtain ⟨b, hb⟩ : ∃ b, b = x.toBits.toBitVec := ⟨_, rfl⟩
  have hnat : x.toBits.toNat = b.toNat := by
    rw [hb]
    rfl
  have hmodel : x.toModel.unpack = UnpackedFloat.unpack Format.binary64 b := by
    rw [hb]
    rfl
  have hspecial := unpackExponent_eq_iff b (-1#11)
  have hleast := unpackExponent_eq_iff b 0#11
  have hzero := unpackMantissa_eq_zero_iff b
  rw [hmodel]
  unfold Decimal.unpack UnpackedFloat.unpack
  simp only [Nat.pow_eq, hnat]
  rw [ofBitVec_unpackSign]
  by_cases h₁ : b.toNat / 2 ^ 52 % 2 ^ 11 = 2047
  · rw [if_pos (hspecial.mpr h₁), if_pos h₁]
    by_cases h₂ : b.toNat % 2 ^ 52 = 0
    · rw [if_pos (hzero.mpr h₂), if_pos h₂]
      rfl
    · rw [if_neg (hzero.not.mpr h₂), if_neg h₂]
      rfl
  · rw [if_neg (hspecial.not.mpr h₁), if_neg h₁]
    by_cases h₂ : b.toNat / 2 ^ 52 % 2 ^ 11 = 0
    · rw [if_pos (hleast.mpr h₂), if_pos h₂]
      by_cases h₃ : b.toNat % 2 ^ 52 = 0
      · rw [dif_pos (hzero.mpr h₃), h₃]
        rfl
      · rw [dif_neg (hzero.not.mpr h₃), Unpacked.parts, ofDyadic_pos (Nat.pos_of_ne_zero h₃)]
        refine finite_congr (toNat_unpackMantissa b) ?_
        rw [toNat_unpackExponent, h₂]
        rfl
    · rw [if_neg (hleast.not.mpr h₂), if_neg h₂, Unpacked.parts, ofDyadic_pos (by positivity)]
      refine finite_congr ?_ ?_
      · rw [toNat_one_append, toNat_unpackMantissa]
      · rw [toNat_unpackExponent]
        rfl

/-- What is read off a finite double is in its reduced form. -/
theorem fits_of_unpack {x : Float} {negative : Bool} {d : Dyadic}
    (h : unpack x = .finite negative d) : d.Fits := by
  have hexponent : x.toBits.toNat / 2 ^ 52 % 2 ^ 11 < 2 ^ 11 := Nat.mod_lt _ (by decide)
  have hfraction : x.toBits.toNat % 2 ^ 52 < 2 ^ 52 := Nat.mod_lt _ (by decide)
  unfold unpack at h
  simp only [Nat.pow_eq] at h
  split at h
  · split at h <;> cases h
  · split at h
    · cases h
      exact ⟨⟨by simp only; omega, le_rfl, .inl rfl⟩, by norm_num⟩
    · cases h
      exact ⟨⟨by simp only; omega, by simp only; omega, .inr (by simp only; omega)⟩,
        by simp only; omega⟩

theorem pack_unpack_model (f : Float.Model) : Float.Model.pack f.unpack = f := by
  have hbits : UnpackedFloat.pack Format.binary64 f.unpack = f.toBits.toBitVec :=
    pack_unpack_of_valid f.valid (by decide)
  rcases f with ⟨⟨bits⟩, hvalid⟩
  unfold Float.Model.pack
  simp only [hbits]

/-- A finite double is made from what is read off it. -/
theorem toFloat_of_unpack {x : Float} {negative : Bool} {d : Dyadic}
    (h : unpack x = .finite negative d) : d.toFloat negative = x := by
  have hparts := toModel_unpack x
  rw [h, Unpacked.parts] at hparts
  rw [Dyadic.toFloat, ← hparts, pack_unpack_model]

/-! ## Making -/

/-- A mantissa of 52 bits or fewer and the least exponent, packed and taken apart again. -/
theorem unpack_packComponents_least (s : Sign) {m : ℕ} (hpos : 0 < m) (hm : m < 2 ^ 52) :
    UnpackedFloat.unpack Format.binary64
      (packComponents Format.binary64 s 0#11 (BitVec.ofNat 52 m)) = .finite s m (-1074) hpos := by
  have hmantissa : (BitVec.ofNat 52 m).toNat = m := by
    rw [BitVec.toNat_ofNat, Nat.mod_eq_of_lt hm]
  have hzero : BitVec.ofNat 52 m ≠ 0#52 := by
    intro h
    rw [h] at hmantissa
    exact hpos.ne hmantissa
  unfold UnpackedFloat.unpack
  simp only [unpackExponent_packComponents, unpackMantissa_packComponents,
    unpackSign_packComponents, Sign.ofBitVec_toBitVec]
  rw [if_neg (by decide), if_pos trivial, dif_neg hzero]
  exact finite_congr hmantissa rfl

/-- A mantissa of 53 bits and an exponent, packed and taken apart again. -/
theorem unpack_packComponents_full (s : Sign) {m e : ℕ} (hpos : 0 < m) (hfull : 2 ^ 52 ≤ m)
    (hm : m < 2 ^ 53) (he : 0 < e) (he' : e < 2047) :
    UnpackedFloat.unpack Format.binary64
      (packComponents Format.binary64 s (BitVec.ofNat 11 e) (BitVec.ofNat 52 m)) =
        .finite s m (e - 1075) hpos := by
  have hexponent : (BitVec.ofNat 11 e).toNat = e := by
    rw [BitVec.toNat_ofNat, Nat.mod_eq_of_lt (by omega)]
  have hspecial : BitVec.ofNat 11 e ≠ -1#11 := by
    intro h
    rw [h] at hexponent
    exact he'.ne' hexponent
  have hleast : BitVec.ofNat 11 e ≠ 0#11 := by
    intro h
    rw [h] at hexponent
    exact he.ne hexponent
  have hmantissa : (1#1 ++ BitVec.ofNat 52 m).toNat = m := by
    rw [toNat_one_append, BitVec.toNat_ofNat]
    omega
  unfold UnpackedFloat.unpack
  simp only [unpackExponent_packComponents, unpackMantissa_packComponents,
    unpackSign_packComponents, Sign.ofBitVec_toBitVec]
  rw [if_neg hspecial, if_neg hleast]
  refine finite_congr hmantissa ?_
  rw [hexponent]
  rfl

/-- The bits of a double that is not zero. -/
theorem pack_ofDyadic (s : Sign) {d : Dyadic} (hd : d.IsDouble) (hpos : 0 < d.mantissa) :
    UnpackedFloat.pack Format.binary64 (ofDyadic s d) =
      if 971 < d.exponent then packedInfinity Format.binary64 s
      else if 2 ^ 52 ≤ d.mantissa then
        packComponents Format.binary64 s (BitVec.ofNat 11 (d.exponent + 1075).toNat)
          (BitVec.ofNat 52 d.mantissa)
      else packComponents Format.binary64 s 0#11 (BitVec.ofNat 52 d.mantissa) := by
  have hleast := hd.least_le
  have hlarge : 2 ^ 11 ≤ (d.exponent + 1023 + 52).toNat + 1 ↔ 971 < d.exponent := by omega
  have hfull : d.mantissa.log2 + 1 = 53 ↔ 2 ^ 52 ≤ d.mantissa := by
    have hlt := (Nat.log2_lt hpos.ne').mpr hd.mantissa_lt
    rw [← Nat.le_log2 hpos.ne']
    omega
  rw [ofDyadic_pos hpos]
  change (if 2 ^ 11 ≤ (d.exponent + 1023 + 52).toNat + 1 then packedInfinity Format.binary64 s
    else if d.mantissa.log2 + 1 = 53 then
      packComponents Format.binary64 s (BitVec.ofNat 11 (d.exponent + 1023 + 52).toNat)
        (BitVec.ofNat 52 d.mantissa)
    else packComponents Format.binary64 s 0#11 (BitVec.ofNat 52 d.mantissa)) = _
  rw [if_congr hlarge rfl (if_congr hfull rfl rfl), add_assoc]
  rfl

/-- A double that is not too large is kept by packing. -/
theorem unpack_pack_ofDyadic (s : Sign) {d : Dyadic} (hd : d.Fits) :
    (Float.Model.pack (ofDyadic s d)).unpack = ofDyadic s d := by
  rcases Nat.eq_zero_or_pos d.mantissa with hzero | hpos
  · unfold ofDyadic
    rw [dif_pos hzero]
    exact unpack_packedZero
  · have hleast := hd.least_le
    have hexponent := hd.exponent_le
    change UnpackedFloat.unpack Format.binary64 (UnpackedFloat.pack Format.binary64 _) = _
    rw [pack_ofDyadic s hd.toIsDouble hpos, if_neg hd.exponent_le.not_gt, ofDyadic_pos hpos]
    by_cases hfull : 2 ^ 52 ≤ d.mantissa
    · rw [if_pos hfull, unpack_packComponents_full s hpos hfull hd.mantissa_lt (by omega) (by omega)]
      exact finite_congr rfl (by omega)
    · rw [if_neg hfull, unpack_packComponents_least s hpos (by omega)]
      exact finite_congr rfl (hd.full.resolve_right hfull).symm

/-- A double that is too large becomes infinite. -/
theorem unpack_pack_large (s : Sign) {d : Dyadic} (hd : d.IsDouble) (hexponent : 971 < d.exponent) :
    (Float.Model.pack (ofDyadic s d)).unpack = .infinity s := by
  have hpos : 0 < d.mantissa := by
    have := hd.full
    omega
  change UnpackedFloat.unpack Format.binary64 (UnpackedFloat.pack Format.binary64 _) = _
  rw [pack_ofDyadic s hd hpos, if_pos hexponent]
  unfold packedInfinity UnpackedFloat.unpack
  simp only [unpackExponent_packComponents, unpackMantissa_packComponents,
    unpackSign_packComponents, Sign.ofBitVec_toBitVec]
  rfl

theorem ofDyadic_inj {s s' : Sign} {d d' : Dyadic} (hd : d.IsDouble) (hd' : d'.IsDouble)
    (h : ofDyadic s d = ofDyadic s' d') : s = s' ∧ d = d' := by
  have hfull := hd.full
  have hfull' := hd'.full
  rcases d with ⟨m, e⟩
  rcases d' with ⟨m', e'⟩
  simp only at hfull hfull'
  rcases Nat.eq_zero_or_pos m with rfl | hpos <;> rcases Nat.eq_zero_or_pos m' with rfl | hpos'
  · obtain rfl : e = e' := by omega
    rw [zero_ofDyadic, zero_ofDyadic] at h
    injection h with hs
    exact ⟨hs, rfl⟩
  · rw [zero_ofDyadic, ofDyadic_pos hpos'] at h
    cases h
  · rw [zero_ofDyadic, ofDyadic_pos hpos] at h
    cases h
  · rw [ofDyadic_pos hpos, ofDyadic_pos hpos'] at h
    injection h with hs hm he
    simp only at hm he
    subst hm he
    exact ⟨hs, rfl⟩

theorem toModel_unpack_toFloat (negative : Bool) {d : Dyadic} (hd : d.Fits) :
    (d.toFloat negative).toModel.unpack = ofDyadic (signOf negative) d :=
  unpack_pack_ofDyadic _ hd

/-- What is read off a double that was made from a sign and a magnitude. -/
theorem unpack_toFloat (negative : Bool) {d : Dyadic} (hd : d.Fits) : unpack (d.toFloat negative) = .finite negative d := by
  have hparts := toModel_unpack (d.toFloat negative)
  rw [toModel_unpack_toFloat negative hd] at hparts
  cases hread : unpack (d.toFloat negative) with
  | nan =>
    rw [hread, Unpacked.parts, ofDyadic] at hparts
    split at hparts <;> cases hparts
  | infinite negative' =>
    rw [hread, Unpacked.parts, ofDyadic] at hparts
    split at hparts <;> cases hparts
  | finite negative' d' =>
    rw [hread, Unpacked.parts] at hparts
    obtain ⟨hs, rfl⟩ := ofDyadic_inj hd.toIsDouble (fits_of_unpack hread).toIsDouble hparts
    rw [signOf_inj hs]

theorem isInf_toFloat (negative : Bool) {d : Dyadic} (hd : d.IsDouble) :
    (d.toFloat negative).isInf = decide (971 < d.exponent) := by
  change (Float.Model.pack (ofDyadic (signOf negative) d)).unpack.isInf = _
  by_cases hlarge : 971 < d.exponent
  · rw [unpack_pack_large _ hd hlarge, decide_eq_true hlarge]
    rfl
  · rw [unpack_pack_ofDyadic _ ⟨hd, not_lt.mp hlarge⟩, decide_eq_false hlarge, ofDyadic]
    split <;> rfl

end LuaChecker.Decimal
