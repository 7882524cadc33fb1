import LuaChecker.Proofs.Json.RoundTrip
import LuaChecker.Proofs.Settings.Threshold

/-!
# Reading settings that were written

The text of settings is read with the same format and the same choice about comments. The
threshold is the same if the integer and the power of ten of its shortest decimal are doubles.
In any case a share is read as a share, and what is no share is not read as one, so settings
are accepted after they were written exactly if they were valid before.

* `ofText_toText`: what is read from the text of settings;
* `threshold?_of_share`, `threshold?_of_not_share`: what becomes of a threshold;
* `ofText_of_valid`, `ofText_of_invalid`: what becomes of the settings.
-/

namespace LuaChecker.Settings

open Decimal Json

/-! ## The text of settings -/

/-- A threshold as it is written. -/
def thresholdJson (x : Float) : Json :=
  match fileStyle.numeral? x with
  | some n => .number n
  | none => .null

theorem isNumeral_wholePart {c : Nat} (hc : 0 < c) (point : Int) :
    wholePart (digits c) point ≠ [] ∧
      ((wholePart (digits c) point).head? = some Digit.zero →
        wholePart (digits c) point = [Digit.zero]) := by
  have hhead := head?_digits hc
  unfold wholePart
  split
  · exact ⟨List.cons_ne_nil _ _, fun _ => rfl⟩
  · obtain ⟨k, hk⟩ : ∃ k, point.toNat = k + 1 := ⟨point.toNat - 1, by omega⟩
    obtain ⟨d, ds, hds⟩ := List.exists_cons_of_ne_nil (digits_ne_nil c)
    rw [hds] at hhead ⊢
    rw [hk, List.take_succ_cons, List.cons_append]
    exact ⟨List.cons_ne_nil _ _, fun h => absurd h hhead⟩

theorem isNumeral_numeral (negative : Bool) {d : Decimal.Dyadic} (hd : d.IsDouble) :
    IsNumeral (fileStyle.numeral negative d) := by
  rcases Nat.eq_zero_or_pos d.mantissa with hzero | hpos
  · rw [numeral_zero negative rfl hzero]
    exact ⟨List.cons_ne_nil _ _, fun _ => rfl⟩
  · have hcoefficient := Dyadic.shortest_coefficient_pos hd hpos .toEven
    have hhead := head?_digits hcoefficient
    have hne := digits_ne_nil (d.shortest .toEven).coefficient
    rw [numeral_of_pos negative hpos rfl]
    split
    · exact ⟨(isNumeral_wholePart hcoefficient _).1, (isNumeral_wholePart hcoefficient _).2⟩
    · obtain ⟨digit, ds, hds⟩ := List.exists_cons_of_ne_nil hne
      change (digits (d.shortest fileStyle.tie).coefficient) = _ at hds
      rw [hds]
      change (digits (d.shortest fileStyle.tie).coefficient).head? ≠ _ at hhead
      rw [hds] at hhead
      exact ⟨List.cons_ne_nil _ _, fun h => absurd h hhead⟩

theorem isPlain_thresholdJson (x : Float) : (thresholdJson x).IsPlain := by
  unfold thresholdJson Style.numeral?
  cases h : unpack x with
  | nan => trivial
  | infinite negative => trivial
  | finite negative d => exact isNumeral_numeral negative (fits_of_unpack h).toIsDouble

theorem toJson_eq (s : Settings) :
    s.toJson = .object
      [(some "similarity_threshold", thresholdJson s.threshold),
        (some "lua_comments", .bool s.comments),
        (some "format", .string (some s.format.label))] := rfl

theorem read?_toText (s : Settings) : Json.read? s.toText = some s.toJson := by
  refine read?_pretty ?_
  rw [toJson_eq]
  exact ⟨rfl, isPlain_thresholdJson s.threshold, rfl, trivial, rfl, rfl, trivial⟩

/-- Everything but the threshold is read as it was written. -/
theorem ofJson?_toJson (s : Settings) :
    ofJson? s.toJson =
      (threshold? (thresholdJson s.threshold)).map fun t => ⟨t, s.comments, s.format⟩ := by
  have hformat : format? (.string (some s.format.label)) = some s.format :=
    Format.ofLabel?_label s.format
  rw [toJson_eq, ofJson?]
  simp only [member?, List.filter_cons, List.filter_nil, Option.some.injEq, String.reduceEq,
    decide_true, decide_false, if_true, if_false, Bool.false_eq_true, comments?, hformat]
  cases threshold? (thresholdJson s.threshold) with
  | none => rfl
  | some t => rfl

/-- What is read from the text of settings. -/
theorem ofText_toText (s : Settings) :
    ofText s.toText =
      match threshold? (thresholdJson s.threshold) with
      | some t => validate ⟨t, s.comments, s.format⟩
      | none => .error .shape := by
  unfold ofText
  rw [read?_toText, Option.bind_some, ofJson?_toJson]
  cases threshold? (thresholdJson s.threshold) with
  | none => rfl
  | some t => rfl

/-! ## What becomes of a threshold -/

/-- Whether the integer and the power of ten of the shortest decimal of a double are doubles. -/
def hasExactDecimal (x : Float) : Bool :=
  match unpack x with
  | .finite _ d =>
    d.mantissa = 0 ||
      ((d.shortest .toEven).coefficient ≤ 2 ^ 53 && -22 ≤ (d.shortest .toEven).exponent)
  | _ => false

theorem hasExactDecimal_iff {x : Float} {negative : Bool} {d : Decimal.Dyadic}
    (h : unpack x = .finite negative d) :
    hasExactDecimal x = true ↔
      d.mantissa = 0 ∨
        (d.shortest .toEven).coefficient ≤ 2 ^ 53 ∧ -22 ≤ (d.shortest .toEven).exponent := by
  unfold hasExactDecimal
  rw [h]
  simp only [Bool.or_eq_true, Bool.and_eq_true, decide_eq_true_eq]

theorem thresholdJson_of_finite {x : Float} {negative : Bool} {d : Decimal.Dyadic}
    (h : unpack x = .finite negative d) :
    threshold? (thresholdJson x) = double? (fileStyle.numeral negative d) := by
  unfold thresholdJson Style.numeral?
  rw [h]
  rfl

/-- A number from 0 to 1. -/
def IsShare (x : Float) : Prop :=
  0.0 ≤ x ∧ x ≤ 1.0

theorem isValid_iff (s : Settings) : s.isValid = true ↔ IsShare s.threshold := by
  unfold isValid IsShare
  rw [Bool.and_eq_true, decide_eq_true_eq, decide_eq_true_eq]

section Share

variable {x : Float}

theorem not_isShare_of_nan (h : unpack x = .nan) : ¬ IsShare x := by
  rintro ⟨hlow, -⟩
  obtain ⟨u, hu, v, hv, -⟩ := le_iff_level.mp hlow
  rw [level, h] at hv
  cases hv

theorem not_isShare_of_infinite {negative : Bool} (h : unpack x = .infinite negative) :
    ¬ IsShare x := by
  rintro ⟨hlow, hhigh⟩
  rw [le_iff_level, level_finite unpack_zero, level, h] at hlow
  rw [le_iff_level, level_finite unpack_one, level, h] at hhigh
  cases negative with
  | false => simp [Unpacked.level] at hhigh
  | true => simp [Unpacked.level] at hlow

theorem isShare_iff {negative : Bool} {d : Decimal.Dyadic} (h : unpack x = .finite negative d) :
    IsShare x ↔ d.mantissa = 0 ∨ negative = false ∧ d.value ≤ 1 := by
  unfold IsShare
  rw [zero_le_iff h, le_finite_iff h unpack_one, signed, signed, value_one]
  rcases Nat.eq_zero_or_pos d.mantissa with hzero | hpos
  · have hvalue := Decimal.Dyadic.value_eq_zero hzero
    refine iff_of_true ⟨.inr hzero, ?_⟩ (.inl hzero)
    cases negative <;> simp [hvalue]
  · cases negative <;> simp [hpos.ne']

/-- A share is read as a share, and as the same one if its decimal is exact. -/
theorem threshold?_of_share (h : IsShare x) :
    ∃ y, threshold? (thresholdJson x) = some y ∧ IsShare y ∧ (hasExactDecimal x = true → y = x) := by
  cases hx : unpack x with
  | nan => exact absurd h (not_isShare_of_nan hx)
  | infinite negative => exact absurd h (not_isShare_of_infinite hx)
  | finite negative d =>
    have hd := fits_of_unpack hx
    have hsame := toFloat_of_unpack hx
    rw [thresholdJson_of_finite hx]
    rcases Nat.eq_zero_or_pos d.mantissa with hzero | hpos
    · exact ⟨x, by rw [double?_zero hd negative hzero, hsame], h, fun _ => rfl⟩
    · obtain ⟨rfl, hle⟩ := ((isShare_iff hx).mp h).resolve_left hpos.ne'
      obtain ⟨q, hq, hqle, hread⟩ := double?_share hd hpos hle
      refine ⟨q.toFloat false, hread, (isShare_iff (unpack_toFloat false hq)).mpr (.inr ⟨rfl, hqle⟩),
        fun hexact => ?_⟩
      obtain ⟨hinteger, hpower⟩ := ((hasExactDecimal_iff hx).mp hexact).resolve_left hpos.ne'
      rw [double?_exact hd hpos hle hinteger hpower, hsame] at hread
      exact (Option.some.inj hread).symm

theorem double?_of_not_share {negative : Bool} {d : Decimal.Dyadic}
    (hx : unpack x = .finite negative d) (h : ¬ IsShare x) :
    double? (fileStyle.numeral negative d) = none ∨
      ∃ y, double? (fileStyle.numeral negative d) = some y ∧ ¬ IsShare y := by
  have hd := fits_of_unpack hx
  rw [isShare_iff hx, not_or, not_and] at h
  have hpos : 0 < d.mantissa := Nat.pos_of_ne_zero h.1
  cases negative with
  | false =>
    refine (double?_large hd (not_le.mp (h.2 rfl))).imp_right ?_
    rintro ⟨q, hq, hgt, hsome⟩
    have hmantissa := Dyadic.value_pos_iff.mp (zero_lt_one.trans hgt)
    refine ⟨_, hsome, ?_⟩
    rw [isShare_iff (unpack_toFloat false hq)]
    rintro (hzero | ⟨-, hle⟩)
    · omega
    · exact absurd hle (not_le.mpr hgt)
  | true =>
    refine (double?_negative hd hpos).imp_right ?_
    rintro ⟨q, hq, hqpos, hsome⟩
    refine ⟨_, hsome, ?_⟩
    rw [isShare_iff (unpack_toFloat true hq)]
    rintro (hzero | ⟨hsign, -⟩)
    · omega
    · cases hsign

/-- What is no share is not read as one. -/
theorem threshold?_of_not_share (h : ¬ IsShare x) {y : Float}
    (hread : threshold? (thresholdJson x) = some y) : ¬ IsShare y := by
  cases hx : unpack x with
  | nan =>
    unfold thresholdJson Style.numeral? at hread
    rw [hx] at hread
    cases hread
  | infinite negative =>
    unfold thresholdJson Style.numeral? at hread
    rw [hx] at hread
    cases hread
  | finite negative d =>
    rw [thresholdJson_of_finite hx] at hread
    rcases double?_of_not_share hx h with hnone | ⟨z, hsome, hnot⟩
    · rw [hnone] at hread
      cases hread
    · rw [hsome] at hread
      cases hread
      exact hnot

end Share

/-- Settings that are valid are read again, valid and with the same choices. -/
theorem ofText_of_valid {s : Settings} (h : s.isValid = true) :
    ∃ t, ofText s.toText = .ok ⟨t, s.comments, s.format⟩ ∧ IsShare t ∧
      (hasExactDecimal s.threshold = true → t = s.threshold) := by
  obtain ⟨t, hread, hshare, hexact⟩ := threshold?_of_share ((isValid_iff s).mp h)
  have hvalid : isValid ⟨t, s.comments, s.format⟩ = true := (isValid_iff _).mpr hshare
  refine ⟨t, ?_, hshare, hexact⟩
  rw [ofText_toText, hread]
  simp only [validate, hvalid, if_true]

/-- Settings that are not valid are refused when they are read. -/
theorem ofText_of_invalid {s : Settings} (h : s.isValid = false) :
    ∃ fault, ofText s.toText = .error fault := by
  have hshare : ¬ IsShare s.threshold := by
    rw [← isValid_iff, h]
    decide
  rw [ofText_toText]
  cases hread : threshold? (thresholdJson s.threshold) with
  | none => exact ⟨_, rfl⟩
  | some t =>
    have hvalid : isValid ⟨t, s.comments, s.format⟩ = false := by
      rw [← Bool.not_eq_true, isValid_iff]
      exact threshold?_of_not_share hshare hread
    exact ⟨.threshold t, by simp only [validate, hvalid, Bool.false_eq_true, if_false]⟩

end LuaChecker.Settings
