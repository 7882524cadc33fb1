import LuaChecker.Similarity.Run

/-!
# The search finds the first longest run

The search fills a table of the common runs that end at each pair of places of a window, row by
row. Of the two rows that it keeps, one is that of the place before, and the other one is filled up
to the current place; what an earlier row has left behind that place is never read. The longest run
so far gives way to a longer one only. Runs of one length start in the order in which they end, so
it is the first of the longest ones that is found.

* `le_commonEnd_iff`: the length of the common run that ends at two places;
* `Leads.step`: a run that gives way only to a longer one is the first of the longest;
* `Filled.fill`, `Filled.fillRow`: what is kept of the table and of the longest run;
* `longestMatch_isFirstLongest`: the run that is found in a window.
-/

namespace LuaChecker.Similarity

variable {α : Type}

/-! ## Runs -/

namespace Run

/-- A contiguous text of this length stands in both texts, at the two places. -/
def IsCommon (r : Run) (a b : List α) : Prop :=
  ∃ text : List α, text.length = r.size ∧ text <+: a.drop r.left ∧ text <+: b.drop r.right

/-- None of the common runs is longer. Of those that are as long none starts earlier in the
first text, and of those that start there none starts earlier in the second. -/
structure IsFirstLongest (r : Run) (a b : List α) : Prop where
  common : r.IsCommon a b
  longest : ∀ s : Run, s.IsCommon a b → s.size ≤ r.size
  first : ∀ s : Run, s.IsCommon a b → s.size = r.size →
    r.left ≤ s.left ∧ (s.left = r.left → r.right ≤ s.right)

theorem IsFirstLongest.unique {r s : Run} {a b : List α} (hr : r.IsFirstLongest a b)
    (hs : s.IsFirstLongest a b) : r = s := by
  have hsize : r.size = s.size :=
    Nat.le_antisymm (hs.longest r hr.common) (hr.longest s hs.common)
  obtain ⟨hleft, hright⟩ := hr.first s hs.common hsize.symm
  obtain ⟨hleft', hright'⟩ := hs.first r hr.common hsize
  have hsame : r.left = s.left := Nat.le_antisymm hleft hleft'
  have hsame' : r.right = s.right := Nat.le_antisymm (hright hsame.symm) (hright' hsame)
  cases r
  cases s
  simp_all

/-- The two texts have the same characters at the places of a common run. -/
theorem isCommon_iff {r : Run} {a b : List α} :
    r.IsCommon a b ↔ ∀ k < r.size, ∃ c, a[r.left + k]? = some c ∧ b[r.right + k]? = some c := by
  constructor
  · rintro ⟨text, hsize, ⟨rest, hrest⟩, ⟨rest', hrest'⟩⟩ k hk
    rw [← hsize] at hk
    refine ⟨text[k], ?_, ?_⟩
    · rw [← List.getElem?_drop, ← hrest, List.getElem?_append_left hk, List.getElem?_eq_getElem hk]
    · rw [← List.getElem?_drop, ← hrest', List.getElem?_append_left hk, List.getElem?_eq_getElem hk]
  · intro h
    have hsame : (a.drop r.left).take r.size = (b.drop r.right).take r.size := by
      refine List.ext_getElem? fun k => ?_
      rw [List.getElem?_take, List.getElem?_take]
      split
      · rename_i hk
        obtain ⟨c, ha, hb⟩ := h k hk
        rw [List.getElem?_drop, List.getElem?_drop, ha, hb]
      · rfl
    refine ⟨(a.drop r.left).take r.size, ?_, List.take_prefix _ _, hsame ▸ List.take_prefix _ _⟩
    rw [List.length_take, List.length_drop]
    by_cases hzero : r.size = 0
    · omega
    · obtain ⟨c, ha, -⟩ := h (r.size - 1) (by omega)
      have := (List.getElem?_eq_some_iff.mp ha).1
      omega

end Run

/-! ## Windows -/

namespace Window

/-- The window lies in both texts. -/
structure Fits (w : Window) (a b : Array α) : Prop where
  left : w.left ≤ w.leftEnd
  leftEnd : w.leftEnd ≤ a.size
  right : w.right ≤ w.rightEnd
  rightEnd : w.rightEnd ≤ b.size

/-- The part of the first text. -/
def leftText (w : Window) (a : Array α) : List α := (a.toList.take w.leftEnd).drop w.left

/-- The part of the second text. -/
def rightText (w : Window) (b : Array α) : List α := (b.toList.take w.rightEnd).drop w.right

/-- A run, by its places in the parts. -/
def relative (w : Window) (r : Run) : Run := ⟨r.left - w.left, r.right - w.right, r.size⟩

variable {w : Window} {a b : Array α}

theorem Fits.length_leftText (h : w.Fits a b) : (w.leftText a).length = w.leftEnd - w.left := by
  have := h.leftEnd
  rw [leftText, List.length_drop, List.length_take, Array.length_toList]
  omega

theorem Fits.length_rightText (h : w.Fits a b) :
    (w.rightText b).length = w.rightEnd - w.right := by
  have := h.rightEnd
  rw [rightText, List.length_drop, List.length_take, Array.length_toList]
  omega

theorem getElem?_leftText {p : Nat} (hp : p < w.leftEnd - w.left) :
    (w.leftText a)[p]? = a[w.left + p]? := by
  rw [leftText, List.getElem?_drop, List.getElem?_take_of_lt (by omega), Array.getElem?_toList]

theorem getElem?_rightText {q : Nat} (hq : q < w.rightEnd - w.right) :
    (w.rightText b)[q]? = b[w.right + q]? := by
  rw [rightText, List.getElem?_drop, List.getElem?_take_of_lt (by omega), Array.getElem?_toList]

end Window

/-! ## Common ends -/

variable [DecidableEq α] {a b : Array α} {w : Window}

/-- The length of the longest common run that ends in front of these places of a window. -/
def commonEnd (a b : Array α) (w : Window) : Nat → Nat → Nat
  | p + 1, q + 1 => if a[w.left + p]? = b[w.right + q]? then commonEnd a b w p q + 1 else 0
  | _, _ => 0

theorem commonEnd_zero (p : Nat) : commonEnd a b w p 0 = 0 := by
  cases p <;> rfl

theorem le_commonEnd_iff {n p q : Nat} :
    n ≤ commonEnd a b w p q ↔ n ≤ p ∧ n ≤ q ∧
      ∀ k < n, a[w.left + (p - n + k)]? = b[w.right + (q - n + k)]? := by
  fun_induction commonEnd a b w p q generalizing n with
  | case1 p q hlast ih =>
    cases n with
    | zero => simp
    | succ n =>
      rw [Nat.succ_le_succ_iff, ih, Nat.succ_le_succ_iff, Nat.succ_le_succ_iff]
      refine and_congr_right fun hp => and_congr_right fun hq => ?_
      rw [Nat.succ_sub_succ, Nat.succ_sub_succ, Nat.forall_lt_succ_right]
      refine (and_iff_left ?_).symm
      rwa [Nat.sub_add_cancel hp, Nat.sub_add_cancel hq]
  | case2 p q hlast =>
    constructor
    · intro hn
      obtain rfl := Nat.le_zero.mp hn
      simp
    · rintro ⟨hp, hq, h⟩
      cases n with
      | zero => exact Nat.le_refl 0
      | succ n =>
        have hk := h n (Nat.lt_succ_self n)
        rw [Nat.succ_sub_succ, Nat.succ_sub_succ, Nat.sub_add_cancel (Nat.le_of_succ_le_succ hp),
          Nat.sub_add_cancel (Nat.le_of_succ_le_succ hq)] at hk
        exact absurd hk hlast
  | case3 p q hnone =>
    constructor
    · intro hn
      obtain rfl := Nat.le_zero.mp hn
      simp
    · rintro ⟨hp, hq, -⟩
      cases p with
      | zero => exact hp
      | succ p =>
        cases q with
        | zero => exact hq
        | succ q => exact (hnone p q rfl rfl).elim

theorem commonEnd_le (p q : Nat) : commonEnd a b w p q ≤ p ∧ commonEnd a b w p q ≤ q := by
  obtain ⟨hp, hq, -⟩ := le_commonEnd_iff.mp (Nat.le_refl (commonEnd a b w p q))
  exact ⟨hp, hq⟩

/-- What ends in front of two places of a window is a common run of its two parts. -/
theorem le_commonEnd_iff_isCommon (h : w.Fits a b) {n p q : Nat} (hp : p ≤ w.leftEnd - w.left)
    (hq : q ≤ w.rightEnd - w.right) :
    n ≤ commonEnd a b w p q ↔ n ≤ p ∧ n ≤ q ∧
      Run.IsCommon ⟨p - n, q - n, n⟩ (w.leftText a) (w.rightText b) := by
  rw [le_commonEnd_iff, Run.isCommon_iff]
  refine and_congr_right fun hnp => and_congr_right fun hnq => forall_congr' fun k => ?_
  refine imp_congr_right fun hk => ?_
  dsimp only at hk ⊢
  have hleft : p - n + k < w.leftEnd - w.left := by omega
  have hright : q - n + k < w.rightEnd - w.right := by omega
  rw [Window.getElem?_leftText hleft, Window.getElem?_rightText hright]
  have hin : w.left + (p - n + k) < a.size := by
    have := h.leftEnd
    omega
  constructor
  · intro hsame
    exact ⟨a[w.left + (p - n + k)], Array.getElem?_eq_getElem hin,
      hsame ▸ Array.getElem?_eq_getElem hin⟩
  · rintro ⟨c, ha, hb⟩
    rw [ha, hb]

/-- A common run of the two parts is no longer than what ends where it ends. -/
theorem size_le_commonEnd (h : w.Fits a b) {r : Run} (hr : r.IsCommon (w.leftText a) (w.rightText b))
    (hsize : r.size ≠ 0) :
    r.left + r.size ≤ w.leftEnd - w.left ∧ r.right + r.size ≤ w.rightEnd - w.right ∧
      r.size ≤ commonEnd a b w (r.left + r.size) (r.right + r.size) := by
  obtain ⟨c, hleft, hright⟩ := Run.isCommon_iff.mp hr (r.size - 1) (by omega)
  have hin := (List.getElem?_eq_some_iff.mp hleft).1
  have hin' := (List.getElem?_eq_some_iff.mp hright).1
  rw [h.length_leftText] at hin
  rw [h.length_rightText] at hin'
  have hp : r.left + r.size ≤ w.leftEnd - w.left := by omega
  have hq : r.right + r.size ≤ w.rightEnd - w.right := by omega
  refine ⟨hp, hq, (le_commonEnd_iff_isCommon h hp hq).mpr ⟨by omega, by omega, ?_⟩⟩
  rwa [Nat.add_sub_cancel, Nat.add_sub_cancel]

/-! ## The first of the longest -/

/-- The places of a table that come before another one, row by row. -/
def Before (width p q i j : Nat) : Prop := j < width ∧ (i < p ∨ i = p ∧ j < q)

/-- The run is the first of the longest that end at the places that were seen: in front of all
places it is empty, and otherwise it ends at one of them. -/
structure Leads (a b : Array α) (w : Window) (seen : Nat → Nat → Prop) (r : Run) : Prop where
  empty : r.size = 0 → r = ⟨w.left, w.right, 0⟩
  found : r.size ≠ 0 → ∃ i j, seen i j ∧ commonEnd a b w (i + 1) (j + 1) = r.size ∧
    r.left = w.left + i + 1 - r.size ∧ r.right = w.right + j + 1 - r.size
  greatest : ∀ i j, seen i j → commonEnd a b w (i + 1) (j + 1) ≤ r.size
  first : ∀ i j, seen i j → commonEnd a b w (i + 1) (j + 1) = r.size →
    r.left ≤ w.left + i + 1 - r.size ∧
      (w.left + i + 1 - r.size = r.left → r.right ≤ w.right + j + 1 - r.size)

variable {r : Run} {p q width : Nat}

theorem leads_initial : Leads a b w (Before width 0 0) ⟨w.left, w.right, 0⟩ := by
  have hnone (i j : Nat) : ¬ Before width 0 0 i j := fun h => by
    obtain ⟨-, h⟩ := h
    omega
  exact ⟨fun _ => rfl, fun h => absurd rfl h, fun i j h => absurd h (hnone i j),
    fun i j h => absurd h (hnone i j)⟩

theorem Leads.congr {seen seen' : Nat → Nat → Prop} (h : Leads a b w seen r)
    (hseen : ∀ i j, seen i j ↔ seen' i j) : Leads a b w seen' r := by
  obtain rfl : seen = seen' := funext fun i => funext fun j => propext (hseen i j)
  exact h

/-- The run gives way to a longer one that ends at the next place. -/
theorem Leads.step (h : Leads a b w (Before width p q) r) (hq : q < width) :
    Leads a b w (Before width p (q + 1))
      (r.orEndingAt (w.left + p) (w.right + q) (commonEnd a b w (p + 1) (q + 1))) := by
  obtain ⟨hsmall, hsmall'⟩ := @commonEnd_le α _ a b w (p + 1) (q + 1)
  -- The places seen are those before and the next one.
  have hseen (i j : Nat) (hij : Before width p (q + 1) i j) :
      Before width p q i j ∨ i = p ∧ j = q := by
    obtain ⟨hj, hij⟩ := hij
    by_cases hnext : i = p ∧ j = q
    · exact .inr hnext
    · exact .inl ⟨hj, by omega⟩
  unfold Run.orEndingAt
  split
  · rename_i hlonger
    refine ⟨fun hzero => ?_, fun _ => ⟨p, q, ⟨hq, by omega⟩, rfl, rfl, rfl⟩, fun i j hij => ?_,
      fun i j hij hlength => ?_⟩
    · dsimp only at hzero
      omega
    · rcases hseen i j hij with hold | ⟨rfl, rfl⟩
      · exact Nat.le_of_lt (Nat.lt_of_le_of_lt (h.greatest i j hold) hlonger)
      · exact Nat.le_refl _
    · rcases hseen i j hij with hold | ⟨rfl, rfl⟩
      · have hle := h.greatest i j hold
        dsimp only at hlength
        omega
      · exact ⟨Nat.le_refl _, fun _ => Nat.le_refl _⟩
  · rename_i hshorter
    refine ⟨h.empty, fun hsize => ?_, fun i j hij => ?_, fun i j hij hlength => ?_⟩
    · obtain ⟨i, j, ⟨hj, hij⟩, hrest⟩ := h.found hsize
      exact ⟨i, j, ⟨hj, by omega⟩, hrest⟩
    · rcases hseen i j hij with hold | ⟨rfl, rfl⟩
      · exact h.greatest i j hold
      · exact Nat.le_of_not_lt hshorter
    · rcases hseen i j hij with hold | ⟨rfl, rfl⟩
      · exact h.first i j hold hlength
      · by_cases hsize : r.size = 0
        · have hr := h.empty hsize
          rw [hr]
          dsimp only
          omega
        · obtain ⟨i', j', ⟨-, hbefore⟩, hlength', hleft, hright⟩ := h.found hsize
          obtain ⟨hi', hj'⟩ := @commonEnd_le α _ a b w (i' + 1) (j' + 1)
          omega

/-! ## The table -/

/-- The rows hold the lengths of common runs: the last one as a whole, and the current one up to
this place. The longest run is the first one of those seen so far. -/
structure Filled (a b : Array α) (w : Window) (p q : Nat) (s : Search) : Prop where
  previous : ∀ k ≤ w.rightEnd - w.right, s.previous[k]? = some (commonEnd a b w p k)
  row : ∀ k ≤ q, s.row[k]? = some (commonEnd a b w (p + 1) k)
  wide : w.rightEnd - w.right < s.row.size
  best : Leads a b w (Before (w.rightEnd - w.right) p q) s.best

theorem filled_initial : Filled a b w 0 0 (.initial w) := by
  have hzero (k : Nat) (hk : k ≤ w.rightEnd - w.right) :
      (Array.replicate (w.rightEnd - w.right + 1) 0)[k]? = some 0 := by
    rw [Array.getElem?_replicate, if_pos (Nat.lt_succ_of_le hk)]
  refine ⟨fun k hk => ?_, fun k hk => ?_, ?_, leads_initial⟩
  · rw [commonEnd]
    exact hzero k hk
    exact fun _ _ h => nomatch h
  · obtain rfl := Nat.le_zero.mp hk
    exact hzero 0 (Nat.zero_le _)
  · simp [Search.initial]

theorem Filled.fill {s : Search} (h : Filled a b w p q s) (hq : q < w.rightEnd - w.right) :
    Filled a b w p (q + 1) (s.fill a b w (w.left + p) (w.right + q)) := by
  have hslot : w.right + q + 1 - w.right = q + 1 := by omega
  have habove : s.previous.getD q 0 = commonEnd a b w p q := by
    rw [Array.getD_eq_getD_getElem?, h.previous q (Nat.le_of_lt hq), Option.getD_some]
  have hvalue : (if a[w.left + p]? = b[w.right + q]? then s.previous.getD q 0 + 1 else 0) =
      commonEnd a b w (p + 1) (q + 1) := by
    rw [habove]
    rfl
  have hwide := h.wide
  have hin : q + 1 < s.row.size := by omega
  simp only [Search.fill, hslot, Nat.add_sub_cancel, hvalue]
  constructor
  case previous => exact h.previous
  case row =>
    intro k hk
    rw [Array.getElem?_setIfInBounds]
    by_cases hlast : q + 1 = k
    · rw [if_pos hlast, if_pos hin, hlast]
    · rw [if_neg hlast]
      exact h.row k (by omega)
  case wide =>
    rw [Array.size_setIfInBounds]
    exact hwide
  case best =>
    rw [getD_setIfInBounds, if_pos ⟨rfl, hin⟩]
    exact h.best.step hq

theorem Filled.fillRow {s : Search} (h : Filled a b w p 0 s) :
    Filled a b w (p + 1) 0 (s.fillRow a b w (w.left + p)) := by
  have hfilled := foldl_range'_induction (fun q s => Filled a b w p q s) h
    fun q (hq : q < w.rightEnd - w.right) s hs => hs.fill hq
  have hlast := hfilled.previous _ (Nat.le_refl (w.rightEnd - w.right))
  have hfirst := hfilled.previous 0 (Nat.zero_le _)
  rw [commonEnd_zero] at hfirst
  constructor
  case previous => exact hfilled.row
  case row =>
    intro k hk
    obtain rfl := Nat.le_zero.mp hk
    rw [commonEnd_zero]
    exact hfirst
  case wide => exact (Array.getElem?_eq_some_iff.mp hlast).1
  case best =>
    refine hfilled.best.congr fun i j => and_congr_right fun hj => ?_
    omega

/-- The run that is found is the first one of the longest. -/
theorem leads_longestMatch (a b : Array α) (w : Window) :
    Leads a b w (fun i j => i < w.leftEnd - w.left ∧ j < w.rightEnd - w.right)
      (longestMatch a b w) := by
  have hfilled := foldl_range'_induction (fun p s => Filled a b w p 0 s) filled_initial
    fun p (_ : p < w.leftEnd - w.left) s hs => hs.fillRow
  refine hfilled.best.congr fun i j => ?_
  constructor
  · rintro ⟨hj, hi⟩
    exact ⟨by omega, hj⟩
  · rintro ⟨hi, hj⟩
    exact ⟨hj, by omega⟩

theorem le_longestMatch (a b : Array α) (w : Window) :
    w.left ≤ (longestMatch a b w).left ∧ w.right ≤ (longestMatch a b w).right := by
  have hleads := leads_longestMatch a b w
  by_cases hsize : (longestMatch a b w).size = 0
  · rw [hleads.empty hsize]
    exact ⟨Nat.le_refl _, Nat.le_refl _⟩
  · obtain ⟨i, j, -, hlength, hleft, hright⟩ := hleads.found hsize
    obtain ⟨hi, hj⟩ := @commonEnd_le α _ a b w (i + 1) (j + 1)
    omega

theorem longestMatch_isFirstLongest (h : w.Fits a b) :
    (w.relative (longestMatch a b w)).IsFirstLongest (w.leftText a) (w.rightText b) := by
  have hleads := leads_longestMatch a b w
  have hinside := le_longestMatch a b w
  generalize longestMatch a b w = r at hleads hinside ⊢
  constructor
  case common =>
    by_cases hsize : r.size = 0
    · exact ⟨[], hsize.symm, List.nil_prefix, List.nil_prefix⟩
    · obtain ⟨i, j, ⟨hi, hj⟩, hlength, hleft, hright⟩ := hleads.found hsize
      obtain ⟨hp, hq, hcommon⟩ :=
        (le_commonEnd_iff_isCommon h hi hj).mp (Nat.le_of_eq hlength.symm)
      have hrelative : w.relative r = ⟨i + 1 - r.size, j + 1 - r.size, r.size⟩ := by
        rw [Window.relative, hleft, hright]
        congr 1 <;> omega
      exact hrelative ▸ hcommon
  case longest =>
    intro s hs
    by_cases hsize : s.size = 0
    · exact hsize ▸ Nat.zero_le _
    · obtain ⟨hp, hq, hle⟩ := size_le_commonEnd h hs hsize
      have hgreatest := hleads.greatest (s.left + s.size - 1) (s.right + s.size - 1)
        ⟨by omega, by omega⟩
      rw [Nat.sub_add_cancel (by omega), Nat.sub_add_cancel (by omega)] at hgreatest
      exact Nat.le_trans hle hgreatest
  case first =>
    intro s hs hsame
    change s.size = r.size at hsame
    by_cases hsize : r.size = 0
    · rw [hleads.empty hsize]
      simp [Window.relative]
    · obtain ⟨hp, hq, hle⟩ := size_le_commonEnd h hs (hsame ▸ hsize)
      have hseen : s.left + s.size - 1 < w.leftEnd - w.left ∧
          s.right + s.size - 1 < w.rightEnd - w.right := ⟨by omega, by omega⟩
      have hgreatest := hleads.greatest _ _ hseen
      have hfirst := hleads.first _ _ hseen
      rw [Nat.sub_add_cancel (by omega), Nat.sub_add_cancel (by omega)] at hgreatest hfirst
      obtain ⟨hleft, hright⟩ := hfirst (by omega)
      refine ⟨?_, fun hstart => ?_⟩
      · simp only [Window.relative]
        omega
      · simp only [Window.relative] at hstart ⊢
        have hlast := hright (by omega)
        omega

end LuaChecker.Similarity
