import LuaChecker.Proofs.Decimal.Arithmetic
import LuaChecker.Proofs.Similarity.Run
import LuaChecker.Similarity.Ratio

/-!
# Matching blocks and the ratio

Two texts that share no character have no matching block. Two others have their first
longest run as one block, and the blocks of what stands on either side of it. The characters in
blocks are counted with a stack of windows: those counted so far, and those of all windows that
wait on the stack, are always the same number together. The ratio of two words compares the
characters in blocks with all characters. All its numbers are doubles themselves unless the words
are enormous, so the ratio is the exact quotient, rounded once.

* `Matches`: the characters in matching blocks, told without a search and without a stack;
* `exists_sublist_of_matches`: one after the other, they are a subsequence of both texts;
* `two_mul_le_of_matches`: they are at most half of all characters;
* `countMatching_eq`: the stack counts those of all windows on it;
* `matches_iff`: what is counted of two texts, for all texts;
* `ratio_blocks`: the ratio of two words.
-/

namespace LuaChecker.Similarity

variable {α : Type}

/-- The number of characters of two texts in matching blocks. -/
inductive Matches : List α → List α → Nat → Prop
  | apart {a b : List α} (h : ∀ c ∈ a, c ∉ b) : Matches a b 0
  | block {a b : List α} {r : Run} {m n : Nat} (hshared : ∃ c ∈ a, c ∈ b)
      (hrun : r.IsFirstLongest a b) (hleft : Matches (a.take r.left) (b.take r.right) m)
      (hright : Matches (a.drop (r.left + r.size)) (b.drop (r.right + r.size)) n) :
      Matches a b (r.size + m + n)

/-- A character that both texts have is a common run. -/
theorem exists_common_of_mem {a b : List α} {c : α} (ha : c ∈ a) (hb : c ∈ b) :
    ∃ s : Run, s.IsCommon a b ∧ s.size = 1 := by
  obtain ⟨front, rest, rfl⟩ := List.append_of_mem ha
  obtain ⟨front', rest', rfl⟩ := List.append_of_mem hb
  refine ⟨⟨front.length, front'.length, 1⟩, ⟨[c], rfl, ?_, ?_⟩, rfl⟩
  · rw [List.drop_left]
    exact List.prefix_append [c] rest
  · rw [List.drop_left]
    exact List.prefix_append [c] rest'

theorem Run.IsFirstLongest.size_eq_zero_iff {r : Run} {a b : List α} (h : r.IsFirstLongest a b) :
    r.size = 0 ↔ ∀ c ∈ a, c ∉ b := by
  constructor
  · intro hzero c ha hb
    obtain ⟨s, hs, hone⟩ := exists_common_of_mem ha hb
    have hle := h.longest s hs
    omega
  · intro hapart
    obtain ⟨text, hlength, ha, hb⟩ := h.common
    cases text with
    | nil => exact hlength.symm
    | cons c text =>
      have hmem : c ∈ a := List.mem_of_mem_drop (ha.subset List.mem_cons_self)
      have hmem' : c ∈ b := List.mem_of_mem_drop (hb.subset List.mem_cons_self)
      exact absurd hmem' (hapart c hmem)

/-- What stands in front of a place of a text, at the place, and behind it. -/
theorem sublist_of_parts {front text back a : List α} {place size : Nat}
    (hfront : front.Sublist (a.take place)) (htext : text <+: a.drop place)
    (hsize : text.length = size) (hback : back.Sublist (a.drop (place + size))) :
    (front ++ (text ++ back)).Sublist a := by
  obtain ⟨rest, hrest⟩ := htext
  have hdrop : a.drop (place + size) = rest := by
    rw [← List.drop_drop, ← hrest, ← hsize, List.drop_left]
  rw [← List.take_append_drop place a, ← hrest]
  rw [hdrop] at hback
  exact hfront.append (hback.append_left text)

/-- The characters in blocks are a subsequence of both texts. -/
theorem exists_sublist_of_matches {a b : List α} {n : Nat} (h : Matches a b n) :
    ∃ text : List α, text.Sublist a ∧ text.Sublist b ∧ text.length = n := by
  induction h with
  | apart _ => exact ⟨[], List.nil_sublist _, List.nil_sublist _, rfl⟩
  | block _ hrun _ _ ihleft ihright =>
    obtain ⟨text, hsize, ha, hb⟩ := hrun.common
    obtain ⟨front, hfront, hfront', hfrontsize⟩ := ihleft
    obtain ⟨back, hback, hback', hbacksize⟩ := ihright
    refine ⟨front ++ (text ++ back), sublist_of_parts hfront ha hsize hback,
      sublist_of_parts hfront' hb hsize hback', ?_⟩
    rw [List.length_append, List.length_append]
    omega

/-- There are not more characters in blocks than each text has. -/
theorem two_mul_le_of_matches {a b : List α} {n : Nat} (h : Matches a b n) :
    2 * n ≤ a.length + b.length := by
  obtain ⟨text, ha, hb, rfl⟩ := exists_sublist_of_matches h
  have hle := ha.length_le
  have hle' := hb.length_le
  omega

/-- The number is unique. -/
theorem Matches.unique {a b : List α} {m n : Nat} (hm : Matches a b m) (hn : Matches a b n) :
    m = n := by
  induction hm generalizing n with
  | apart hapart =>
    cases hn with
    | apart => rfl
    | block hshared =>
      obtain ⟨c, ha, hb⟩ := hshared
      exact absurd hb (hapart c ha)
  | block hshared hrun _ _ ihleft ihright =>
    cases hn with
    | apart hapart =>
      obtain ⟨c, ha, hb⟩ := hshared
      exact absurd hb (hapart c ha)
    | block _ hrun' hleft hright =>
      obtain rfl := hrun.unique hrun'
      rw [ihleft hleft, ihright hright]

theorem Matches.eq_zero {a b : List α} {n : Nat} (h : Matches a b n) (hempty : a = [] ∨ b = []) :
    n = 0 := by
  refine h.unique (.apart fun c ha hb => ?_)
  rcases hempty with rfl | rfl
  · cases ha
  · cases hb

/-! ## The stack of windows -/

namespace Window

variable {w : Window} {a b : Array α} {run : Run}

/-- The part of a window in front of a run. -/
def before (w : Window) (run : Run) : Window := ⟨w.left, run.left, w.right, run.right⟩

/-- The part of a window behind a run. -/
def behind (w : Window) (run : Run) : Window :=
  ⟨run.left + run.size, w.leftEnd, run.right + run.size, w.rightEnd⟩

/-- The run lies in the window. -/
structure Encloses (w : Window) (run : Run) : Prop where
  left : w.left ≤ run.left
  leftEnd : run.left + run.size ≤ w.leftEnd
  right : w.right ≤ run.right
  rightEnd : run.right + run.size ≤ w.rightEnd

theorem Fits.before (h : w.Fits a b) (hrun : w.Encloses run) : (w.before run).Fits a b := by
  have hleft := hrun.leftEnd
  have hright := hrun.rightEnd
  have hleft' := h.leftEnd
  have hright' := h.rightEnd
  exact ⟨hrun.left, by simp only [Window.before]; omega, hrun.right,
    by simp only [Window.before]; omega⟩

theorem Fits.behind (h : w.Fits a b) (hrun : w.Encloses run) : (w.behind run).Fits a b :=
  ⟨hrun.leftEnd, h.leftEnd, hrun.rightEnd, h.rightEnd⟩

theorem take_drop_take {l : List α} {m n k : Nat} (hmn : m ≤ n) (hnk : n ≤ k) :
    ((l.take k).drop m).take (n - m) = (l.take n).drop m := by
  rw [List.take_drop, Nat.add_sub_cancel' hmn, List.take_take, Nat.min_eq_left hnk]

theorem Encloses.leftText_before (h : w.Encloses run) (a : Array α) :
    (w.before run).leftText a = (w.leftText a).take (w.relative run).left :=
  (take_drop_take h.left ((Nat.le_add_right _ _).trans h.leftEnd)).symm

theorem Encloses.rightText_before (h : w.Encloses run) (b : Array α) :
    (w.before run).rightText b = (w.rightText b).take (w.relative run).right :=
  (take_drop_take h.right ((Nat.le_add_right _ _).trans h.rightEnd)).symm

theorem Encloses.leftText_behind (h : w.Encloses run) (a : Array α) :
    (w.behind run).leftText a =
      (w.leftText a).drop ((w.relative run).left + (w.relative run).size) := by
  have hplace : w.left + (run.left - w.left + run.size) = run.left + run.size := by
    have := h.left
    omega
  simp only [leftText, relative, behind, List.drop_drop, hplace]

theorem Encloses.rightText_behind (h : w.Encloses run) (b : Array α) :
    (w.behind run).rightText b =
      (w.rightText b).drop ((w.relative run).right + (w.relative run).size) := by
  have hplace : w.right + (run.right - w.right + run.size) = run.right + run.size := by
    have := h.right
    omega
  simp only [rightText, relative, behind, List.drop_drop, hplace]

/-- The window lies in both texts, and so many characters of its parts are in blocks. -/
structure Gives (a b : Array α) (w : Window) (n : Nat) : Prop where
  fits : w.Fits a b
  counted : Matches (w.leftText a) (w.rightText b) n

/-- A window that is skipped has a part without characters, and gives none. -/
theorem Gives.eq_zero {n : Nat} (h : w.Gives a b n)
    (hempty : ¬ (w.left < w.leftEnd ∧ w.right < w.rightEnd)) : n = 0 := by
  have hleft := h.fits.length_leftText
  have hright := h.fits.length_rightText
  refine h.counted.eq_zero ?_
  rw [← List.length_eq_zero_iff, ← List.length_eq_zero_iff]
  omega

/-- A window is put on the stack, or it is skipped. -/
theorem exists_gives_push {pending : List Window} {ns : List Nat} {n : Nat}
    (hpending : List.Forall₂ (Gives a b) pending ns) (h : w.Gives a b n) :
    ∃ ms, List.Forall₂ (Gives a b)
        (if w.left < w.leftEnd ∧ w.right < w.rightEnd then w :: pending else pending) ms ∧
      ms.sum = n + ns.sum := by
  split
  · exact ⟨n :: ns, .cons h hpending, List.sum_cons⟩
  · rename_i hempty
    exact ⟨ns, hpending, by rw [h.eq_zero hempty, Nat.zero_add]⟩

theorem exists_gives_pushSides {pending : List Window} {ns : List Nat} {m n : Nat}
    (hpending : List.Forall₂ (Gives a b) pending ns) (hbefore : (w.before run).Gives a b m)
    (hbehind : (w.behind run).Gives a b n) :
    ∃ ms, List.Forall₂ (Gives a b) (w.pushSides run pending) ms ∧ ms.sum = m + n + ns.sum := by
  obtain ⟨ms, hms, hsum⟩ := exists_gives_push hpending hbefore
  obtain ⟨ks, hks, hsum'⟩ := exists_gives_push hms hbehind
  exact ⟨ks, hks, by omega⟩

end Window

/-- The window of two whole texts. -/
def wholeWindow (a b : List α) : Window := ⟨0, a.length, 0, b.length⟩

theorem fits_wholeWindow (a b : List α) : (wholeWindow a b).Fits a.toArray b.toArray :=
  ⟨Nat.zero_le _, Nat.le_refl _, Nat.zero_le _, Nat.le_refl _⟩

theorem leftText_wholeWindow (a b : List α) : (wholeWindow a b).leftText a.toArray = a :=
  List.take_length

theorem rightText_wholeWindow (a b : List α) : (wholeWindow a b).rightText b.toArray = b :=
  List.take_length

variable [DecidableEq α]

/-- A run that is found lies in the window. -/
theorem encloses_longestMatch {a b : Array α} {w : Window} (h : w.Fits a b)
    (hsize : (longestMatch a b w).size ≠ 0) : w.Encloses (longestMatch a b w) := by
  obtain ⟨hleft, hright⟩ := le_longestMatch a b w
  obtain ⟨hleftEnd, hrightEnd, -⟩ :=
    size_le_commonEnd h (longestMatch_isFirstLongest h).common hsize
  simp only [Window.relative] at hleftEnd hrightEnd
  have hleft' := h.left
  have hright' := h.right
  exact ⟨hleft, by omega, hright, by omega⟩

/-- What the first window gives: the run that is found, and what is given on either side. -/
theorem Window.Gives.split {a b : Array α} {w : Window} {n : Nat} (h : w.Gives a b n)
    (hsize : (longestMatch a b w).size ≠ 0) :
    ∃ m k, (w.before (longestMatch a b w)).Gives a b m ∧
      (w.behind (longestMatch a b w)).Gives a b k ∧ n = (longestMatch a b w).size + m + k := by
  have hinside := encloses_longestMatch h.fits hsize
  have hfound := longestMatch_isFirstLongest h.fits
  obtain ⟨hfits, hcounted⟩ := h
  cases hcounted with
  | apart hapart => exact absurd (hfound.size_eq_zero_iff.mpr hapart) hsize
  | @block _ _ r m k hshared hrun hleft hright =>
    obtain rfl := hrun.unique hfound
    refine ⟨m, k, ⟨hfits.before hinside, ?_⟩, ⟨hfits.behind hinside, ?_⟩, rfl⟩
    · rw [hinside.leftText_before, hinside.rightText_before]
      exact hleft
    · rw [hinside.leftText_behind, hinside.rightText_behind]
      exact hright

/-- What is counted in the end is what was counted before and what the windows on the stack
give. -/
theorem countMatching_eq {a b : Array α} {pending : List Window} {ns : List Nat}
    (h : List.Forall₂ (Window.Gives a b) pending ns) (matched : Nat) :
    countMatching a b matched pending = matched + ns.sum := by
  fun_induction countMatching a b matched pending generalizing ns with
  | case1 matched =>
    cases h
    rfl
  | case2 matched w pending run hnone =>
    rename_i ih
    cases h with
    | @cons _ n _ ns hfirst hrest =>
      have hzero : n = 0 := hfirst.counted.unique
        (.apart ((longestMatch_isFirstLongest hfirst.fits).size_eq_zero_iff.mp hnone))
      rw [ih hrest, hzero, List.sum_cons, Nat.zero_add]
  | case3 matched w pending run hsome =>
    rename_i ih
    cases h with
    | @cons _ n _ ns hfirst hrest =>
      obtain ⟨m, k, hbefore, hbehind, rfl⟩ := hfirst.split hsome
      obtain ⟨ms, hms, hsum⟩ := Window.exists_gives_pushSides hrest hbefore hbehind
      rw [ih hms, hsum, List.sum_cons]
      dsimp only [run]
      omega

theorem exists_isFirstLongest (a b : List α) : ∃ r : Run, r.IsFirstLongest a b := by
  have hfound := longestMatch_isFirstLongest (fits_wholeWindow a b)
  rw [leftText_wholeWindow, rightText_wholeWindow] at hfound
  exact ⟨_, hfound⟩

/-- Every two texts have a number of characters in blocks. -/
theorem exists_matches (a b : List α) : ∃ n, Matches a b n := by
  by_cases hapart : ∀ c ∈ a, c ∉ b
  · exact ⟨0, .apart hapart⟩
  obtain ⟨r, hr⟩ := exists_isFirstLongest a b
  have hsize : r.size ≠ 0 := fun hzero => hapart (hr.size_eq_zero_iff.mp hzero)
  have hleft : r.left < a.length := by
    obtain ⟨c, hc, -⟩ := Run.isCommon_iff.mp hr.common 0 (Nat.pos_of_ne_zero hsize)
    exact (List.getElem?_eq_some_iff.mp hc).1
  obtain ⟨m, hm⟩ := exists_matches (a.take r.left) (b.take r.right)
  obtain ⟨n, hn⟩ := exists_matches (a.drop (r.left + r.size)) (b.drop (r.right + r.size))
  push Not at hapart
  exact ⟨_, .block hapart hr hm hn⟩
  termination_by a.length
  decreasing_by
    all_goals
      simp only [List.length_take, List.length_drop]
      omega

/-- The number of characters in blocks is unique, and it is the one that is counted. -/
theorem matches_iff {a b : List α} {n : Nat} :
    Matches a b n ↔ n = matchingCharacters a.toArray b.toArray := by
  have hcount {n : Nat} (h : Matches a b n) : n = matchingCharacters a.toArray b.toArray := by
    have hgives : (wholeWindow a b).Gives a.toArray b.toArray n := by
      refine ⟨fits_wholeWindow a b, ?_⟩
      rwa [leftText_wholeWindow, rightText_wholeWindow]
    have hcounted := countMatching_eq (List.Forall₂.cons hgives .nil) 0
    rw [List.sum_singleton, Nat.zero_add] at hcounted
    exact hcounted.symm
  constructor
  · exact hcount
  · rintro rfl
    obtain ⟨n, hn⟩ := exists_matches a b
    exact hcount hn ▸ hn

/-! ## The ratio -/

theorem matches_matching (a b : String) : Matches a.toList b.toList (matching a b) :=
  matches_iff.mpr rfl

theorem length_pos_of_ne {a b : String} (h : a ≠ "" ∨ b ≠ "") :
    0 < a.toList.length + b.toList.length := by
  simp only [ne_eq, ← String.toList_eq_nil_iff, ← List.length_eq_zero_iff] at h
  omega

theorem ne_of_length_ne {a b : String} (h : a.toList.length + b.toList.length ≠ 0) :
    a ≠ "" ∨ b ≠ "" := by
  by_contra hempty
  push Not at hempty
  rw [hempty.1, hempty.2] at h
  exact h rfl

theorem ratio_of_ne {a b : String} (h : a ≠ "" ∨ b ≠ "") :
    ratio a b = 2.0 * (matching a b).toFloat /
      (a.toList.length + b.toList.length).toFloat :=
  if_neg (length_pos_of_ne h).ne'

/-- The quotient is the exact one, rounded once. -/
theorem exists_rounds_ratio {a b : String} (h : a ≠ "" ∨ b ≠ "")
    (hsmall : a.toList.length + b.toList.length < 2 ^ 53) :
    ∃ q : Decimal.Dyadic, q.IsDouble ∧
      q.Rounds (2 * matching a b / (a.toList.length + b.toList.length : ℕ)) ∧
      ratio a b = q.toFloat false := by
  have hpos := length_pos_of_ne h
  have hle := two_mul_le_of_matches (matches_matching a b)
  obtain ⟨n, hn, hnvalue, hnfloat⟩ :=
    Decimal.toFloat_natCast (n := matching a b) (by omega)
  obtain ⟨total, htotal, htvalue, htfloat⟩ := Decimal.toFloat_natCast hsmall
  obtain ⟨twice, htwice, hproduct, hmul⟩ :=
    Decimal.toFloat_mul (Decimal.fits_of_unpack Decimal.unpack_two) hn
  rw [Decimal.toFloat_of_unpack Decimal.unpack_two, ← hnfloat] at hmul
  have hexact : (Decimal.Dyadic.reduced 1 1).value * n.value =
      ((2 * matching a b : ℕ) : ℚ) := by
    rw [Decimal.value_two, hnvalue]
    push_cast
    rfl
  rw [hexact] at hproduct
  have hvalue := Decimal.value_of_rounds_natCast htwice hproduct (by omega)
  have hfits : twice.Fits := by
    apply htwice.fits_of_le htotal
    rw [hvalue, htvalue]
    exact_mod_cast hle
  have hmantissa : 0 < total.mantissa := by
    rw [← Decimal.Dyadic.value_pos_iff, htvalue]
    exact_mod_cast hpos
  obtain ⟨q, hq, hquotient, hdiv⟩ := Decimal.toFloat_div hfits htotal hmantissa
  refine ⟨q, hq, ?_, ?_⟩
  · rw [hvalue, htvalue] at hquotient
    push_cast at hquotient ⊢
    exact hquotient
  · rw [ratio_of_ne h, hmul, htfloat, hdiv]

/-- **Matching blocks.** For all texts the characters in blocks are counted, and their number
is unique. The ratio of two words that are both empty is one. That of any others is twice
that number divided by the number of all characters, and as long as the integers are doubles
themselves, it is the double to which the exact quotient rounds. -/
theorem ratio_blocks (a b : String) :
    (∀ n, Matches a.toList b.toList n ↔ n = matching a b) ∧
      (a = "" → b = "" → ratio a b = 1.0) ∧
      (a ≠ "" ∨ b ≠ "" → ratio a b = 2.0 * (matching a b).toFloat /
        (a.toList.length + b.toList.length).toFloat) ∧
      (a ≠ "" ∨ b ≠ "" → a.toList.length + b.toList.length < 2 ^ 53 →
        ∃ q : Decimal.Dyadic, q.IsDouble ∧
          q.Rounds (2 * matching a b / (a.toList.length + b.toList.length : ℕ)) ∧
          ratio a b = q.toFloat false) := by
  refine ⟨fun n => matches_iff, ?_, ratio_of_ne, exists_rounds_ratio⟩
  rintro rfl rfl
  rfl

/-- The blocks are the first four letters and the last one. -/
theorem ratio_blocks_whille :
    ratio "" "" = 1.0 ∧ ("whille" ≠ "" ∨ "while" ≠ "") ∧ 6 + 5 < 2 ^ 53 ∧
      ratio "whille" "while" = 2.0 * (5 : ℕ).toFloat / (11 : ℕ).toFloat ∧
      ∃ q : Decimal.Dyadic, q.IsDouble ∧ q.Rounds (2 * (5 : ℕ) / (11 : ℕ)) ∧
        ratio "whille" "while" = q.toFloat false := by
  have hmatched : matching "whille" "while" = 5 := by decide +kernel
  have hlength : "whille".toList.length + "while".toList.length = 11 := by decide
  have hne : "whille" ≠ "" ∨ "while" ≠ "" := .inl (by decide)
  obtain ⟨-, hempty, -, -⟩ := ratio_blocks "" ""
  obtain ⟨-, -, hquotient, hrounds⟩ := ratio_blocks "whille" "while"
  rw [hmatched, hlength] at hquotient hrounds
  exact ⟨hempty rfl rfl, hne, by decide, hquotient hne, hrounds hne (by decide)⟩

end LuaChecker.Similarity
