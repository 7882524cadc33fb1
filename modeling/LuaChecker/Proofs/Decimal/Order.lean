import LuaChecker.Proofs.Decimal.Packing

/-!
# The order of doubles

Two doubles are compared like the numbers that they stand for; an infinity stands at one of
the two ends, and what is not a number stands nowhere, so that no comparison with it holds.

* `lt_iff_level`, `le_iff_level`: comparisons are those of the places of two doubles;
* `level_finite`: the place of a finite double;
* `Double.lt_of_le_of_lt`, `Double.le_of_not_lt` and others: the laws that follow.
-/

namespace LuaChecker.Decimal

open Float.Model Float.Model.UnpackedFloat

/-! ## Places -/

/-- The number that a sign and a magnitude stand for. -/
def signed (negative : Bool) (d : Dyadic) : ℚ :=
  if negative then -d.value else d.value

/-- Where a double stands among the numbers, with the infinities at the ends. What is not a
number has no place. -/
def Unpacked.level : Unpacked → Option (WithBot (WithTop ℚ))
  | .nan => none
  | .infinite true => some ⊥
  | .infinite false => some ((⊤ : WithTop ℚ) : WithBot (WithTop ℚ))
  | .finite negative d => some ((signed negative d : WithTop ℚ) : WithBot (WithTop ℚ))

/-- The place of a double. -/
def level (x : Float) : Option (WithBot (WithTop ℚ)) := (unpack x).level

theorem level_finite {x : Float} {negative : Bool} {d : Dyadic}
    (h : unpack x = .finite negative d) :
    level x = some ((signed negative d : WithTop ℚ) : WithBot (WithTop ℚ)) :=
  congrArg Unpacked.level h

theorem isNaN_ofDyadic (s : Sign) (d : Dyadic) : (ofDyadic s d).isNaN = false := by
  unfold ofDyadic
  split <;> rfl

theorem isSome_level_iff {x : Float} : (level x).isSome = true ↔ x.isNaN = false := by
  change _ ↔ x.toModel.unpack.isNaN = false
  rw [toModel_unpack, level]
  cases unpack x with
  | nan => decide
  | infinite negative => cases negative <;> exact iff_of_true rfl rfl
  | finite negative d => exact iff_of_true rfl (isNaN_ofDyadic _ d)

/-! ## Comparing -/

/-- Of two magnitudes the exponents are compared first, as it is right for reduced forms. -/
theorem compare_eq_cmp {d d' : Dyadic} (hd : d.IsDouble) (hd' : d'.IsDouble) :
    (compare d.exponent d'.exponent).then (compare d.mantissa d'.mantissa) =
      cmp d.value d'.value := by
  rcases lt_trichotomy d.value d'.value with hlt | heq | hgt
  · rw [hlt.cmp_eq_lt]
    rcases (Dyadic.value_lt_iff hd hd').mp hlt with hexponent | ⟨hexponent, hmantissa⟩
    · rw [Int.compare_eq_lt.mpr hexponent]
      rfl
    · rw [Int.compare_eq_eq.mpr hexponent, Nat.compare_eq_lt.mpr hmantissa]
      rfl
  · obtain rfl := Dyadic.eq_of_value_eq hd hd' heq
    rw [heq.cmp_eq_eq, Int.compare_eq_eq.mpr rfl, Nat.compare_eq_eq.mpr rfl]
    rfl
  · rw [hgt.cmp_eq_gt]
    rcases (Dyadic.value_lt_iff hd' hd).mp hgt with hexponent | ⟨hexponent, hmantissa⟩
    · rw [Int.compare_eq_gt.mpr hexponent]
      rfl
    · rw [Int.compare_eq_eq.mpr hexponent.symm, Nat.compare_eq_gt.mpr hmantissa]
      rfl

theorem cmp_neg_neg (u v : ℚ) : cmp (-u) (-v) = (cmp u v).swap := by
  rw [cmp_swap]
  rcases lt_trichotomy u v with h | h | h
  · rw [h.cmp_eq_gt, cmp_eq_gt_iff]; linarith
  · rw [h]; simp
  · rw [h.cmp_eq_lt, cmp_eq_lt_iff]; linarith

theorem compare_finite {negative negative' : Bool} {d d' : Dyadic} (hd : d.IsDouble)
    (hd' : d'.IsDouble) :
    (ofDyadic (signOf negative) d).compare (ofDyadic (signOf negative') d') =
      some (cmp (signed negative d) (signed negative' d')) := by
  rcases Nat.eq_zero_or_pos d.mantissa with hzero | hpos <;>
    rcases Nat.eq_zero_or_pos d'.mantissa with hzero' | hpos'
  · have hv : signed negative d = 0 := by simp [signed, Dyadic.value_eq_zero hzero]
    have hv' : signed negative' d' = 0 := by simp [signed, Dyadic.value_eq_zero hzero']
    rw [ofDyadic_zero hzero, ofDyadic_zero hzero', hv, hv']
    rfl
  · have hv : signed negative d = 0 := by simp [signed, Dyadic.value_eq_zero hzero]
    have hv' := Dyadic.value_pos_iff.mpr hpos'
    rw [ofDyadic_zero hzero, ofDyadic_pos hpos', hv]
    cases negative' with
    | false => exact congrArg some hv'.cmp_eq_lt.symm
    | true => exact congrArg some (neg_lt_zero.mpr hv').cmp_eq_gt.symm
  · have hv := Dyadic.value_pos_iff.mpr hpos
    have hv' : signed negative' d' = 0 := by simp [signed, Dyadic.value_eq_zero hzero']
    rw [ofDyadic_pos hpos, ofDyadic_zero hzero', hv']
    cases negative with
    | false => exact congrArg some hv.cmp_eq_gt.symm
    | true => exact congrArg some (neg_lt_zero.mpr hv).cmp_eq_lt.symm
  · have hv := Dyadic.value_pos_iff.mpr hpos
    have hv' := Dyadic.value_pos_iff.mpr hpos'
    have hcompare := compare_eq_cmp hd hd'
    rw [ofDyadic_pos hpos, ofDyadic_pos hpos']
    cases negative with
    | false =>
      cases negative' with
      | false => exact congrArg some hcompare
      | true => exact congrArg some ((neg_lt_zero.mpr hv').trans hv).cmp_eq_gt.symm
    | true =>
      cases negative' with
      | false => exact congrArg some ((neg_lt_zero.mpr hv).trans hv').cmp_eq_lt.symm
      | true =>
        have hswap := (congrArg Ordering.swap hcompare).trans (cmp_neg_neg _ _).symm
        exact congrArg some hswap

theorem cmp_coe (u v : ℚ) :
    cmp ((u : WithTop ℚ) : WithBot (WithTop ℚ)) ((v : WithTop ℚ) : WithBot (WithTop ℚ)) =
      cmp u v := by
  simp only [cmp, cmpUsing, WithBot.coe_lt_coe, WithTop.coe_lt_coe]

theorem compare_infinity_left (negative : Bool) (s : Sign) (d : Dyadic) :
    (UnpackedFloat.infinity (signOf negative)).compare (ofDyadic s d) =
      some (if negative then .lt else .gt) := by
  unfold ofDyadic
  cases negative <;> split <;> rfl

theorem compare_infinity_right (negative : Bool) (s : Sign) (d : Dyadic) :
    (ofDyadic s d).compare (UnpackedFloat.infinity (signOf negative)) =
      some (if negative then .gt else .lt) := by
  unfold ofDyadic
  cases negative <;> split <;> cases s <;> rfl

theorem compare_notANumber_right (f : UnpackedFloat) : f.compare notANumber = none := by
  cases f with
  | notANumber | zero => rfl
  | infinity s | finite s => cases s <;> rfl

theorem compare_unpack (x y : Float) :
    x.toModel.unpack.compare y.toModel.unpack = Option.map₂ cmp (level x) (level y) := by
  have hbottom (v : ℚ) : (⊥ : WithBot (WithTop ℚ)) < (v : WithTop ℚ) := WithBot.bot_lt_coe _
  have htop (v : ℚ) : ((v : WithTop ℚ) : WithBot (WithTop ℚ)) < (⊤ : WithTop ℚ) :=
    WithBot.coe_lt_coe.mpr (WithTop.coe_lt_top v)
  rw [toModel_unpack, toModel_unpack, level, level]
  cases hx : unpack x with
  | nan => rfl
  | infinite negative =>
    cases hy : unpack y with
    | nan => cases negative <;> rfl
    | infinite negative' =>
      cases negative <;> cases negative'
      · exact congrArg some (cmp_self_eq_eq _).symm
      · exact congrArg some (WithBot.bot_lt_coe _).cmp_eq_gt.symm
      · exact congrArg some (WithBot.bot_lt_coe _).cmp_eq_lt.symm
      · exact congrArg some (cmp_self_eq_eq _).symm
    | finite negative' d' =>
      refine (compare_infinity_left negative _ d').trans ?_
      cases negative with
      | false => exact congrArg some (htop _).cmp_eq_gt.symm
      | true => exact congrArg some (hbottom _).cmp_eq_lt.symm
  | finite negative d =>
    cases hy : unpack y with
    | nan => exact compare_notANumber_right _
    | infinite negative' =>
      refine (compare_infinity_right negative' _ d).trans ?_
      cases negative' with
      | false => exact congrArg some (htop _).cmp_eq_lt.symm
      | true => exact congrArg some (hbottom _).cmp_eq_gt.symm
    | finite negative' d' =>
      have hfinite := @compare_finite negative negative' d d' (fits_of_unpack hx).toIsDouble
        (fits_of_unpack hy).toIsDouble
      exact hfinite.trans (congrArg some (cmp_coe _ _).symm)

theorem lt_iff_level {x y : Float} : x < y ↔ ∃ u ∈ level x, ∃ v ∈ level y, u < v := by
  change decide (x.toModel < y.toModel) = true ↔ _
  rw [decide_eq_true_iff]
  change (x.toModel.unpack.compare y.toModel.unpack == some .lt) = true ↔ _
  rw [compare_unpack, beq_iff_eq]
  simp [Option.map₂_eq_some_iff, cmp_eq_lt_iff]

theorem le_iff_level {x y : Float} : x ≤ y ↔ ∃ u ∈ level x, ∃ v ∈ level y, u ≤ v := by
  change decide (x.toModel ≤ y.toModel) = true ↔ _
  rw [decide_eq_true_iff]
  change (x.toModel.unpack.compare y.toModel.unpack).any (·.isLE) = true ↔ _
  rw [compare_unpack]
  cases level x with
  | none => simp
  | some u =>
    cases level y with
    | none => simp
    | some v => simp [Ordering.isLE_iff_ne_gt, cmp_eq_gt_iff]

/-- Finite doubles are compared like the numbers that they stand for. -/
theorem le_finite_iff {x y : Float} {negative negative' : Bool} {d d' : Dyadic}
    (hx : unpack x = .finite negative d) (hy : unpack y = .finite negative' d') :
    x ≤ y ↔ signed negative d ≤ signed negative' d' := by
  rw [le_iff_level, level_finite hx, level_finite hy]
  simp

/-! ## Laws -/

namespace Double

variable {x y z : Float}

theorem le_of_lt (h : x < y) : x ≤ y := by
  obtain ⟨u, hu, v, hv, huv⟩ := lt_iff_level.mp h
  exact le_iff_level.mpr ⟨u, hu, v, hv, huv.le⟩

theorem lt_irrefl (x : Float) : ¬ x < x := by
  intro h
  obtain ⟨u, hu, v, hv, huv⟩ := lt_iff_level.mp h
  obtain rfl := Option.mem_unique hu hv
  exact huv.false

theorem lt_of_le_of_lt (h : x ≤ y) (h' : y < z) : x < z := by
  obtain ⟨u, hu, v, hv, huv⟩ := le_iff_level.mp h
  obtain ⟨v', hv', w, hw, hvw⟩ := lt_iff_level.mp h'
  obtain rfl := Option.mem_unique hv hv'
  exact lt_iff_level.mpr ⟨u, hu, w, hw, huv.trans_lt hvw⟩

theorem lt_of_lt_of_le (h : x < y) (h' : y ≤ z) : x < z := by
  obtain ⟨u, hu, v, hv, huv⟩ := lt_iff_level.mp h
  obtain ⟨v', hv', w, hw, hvw⟩ := le_iff_level.mp h'
  obtain rfl := Option.mem_unique hv hv'
  exact lt_iff_level.mpr ⟨u, hu, w, hw, huv.trans_le hvw⟩

theorem le_refl (hx : x.isNaN = false) : x ≤ x := by
  obtain ⟨u, hu⟩ := Option.isSome_iff_exists.mp (isSome_level_iff.mpr hx)
  exact le_iff_level.mpr ⟨u, hu, u, hu, le_rfl⟩

/-- Of two doubles that are numbers one is at most the other. -/
theorem le_of_not_lt (hx : x.isNaN = false) (hy : y.isNaN = false) (h : ¬ x < y) : y ≤ x := by
  obtain ⟨u, hu⟩ := Option.isSome_iff_exists.mp (isSome_level_iff.mpr hx)
  obtain ⟨v, hv⟩ := Option.isSome_iff_exists.mp (isSome_level_iff.mpr hy)
  refine le_iff_level.mpr ⟨v, hv, u, hu, not_lt.mp fun huv => h ?_⟩
  exact lt_iff_level.mpr ⟨u, hu, v, hv, huv⟩

end Double

end LuaChecker.Decimal
