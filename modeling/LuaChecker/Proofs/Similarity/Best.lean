import LuaChecker.Proofs.Similarity.Ratio

/-!
# The best candidate

The search over the candidates keeps the first one whose ratio is the greatest so far, and
asks about the threshold only when all have been seen. So the threshold decides whether a
candidate is taken, but never which one.

* `IsFirstBest.unique`: at most one candidate is the first of the best ones;
* `isFirstBest_mostAlike`: the search ends with it;
* `bestMatch_iff`, `bestMatch_raise`: what is found for a threshold;
* `bestMatch_spec`: all of this together.
-/

namespace LuaChecker.Similarity

open Decimal

/-- The candidate at a place is the first of those whose ratio is the greatest. -/
structure IsFirstBest (found : String) (candidates : List String) (i : Nat) (c : String) :
    Prop where
  here : candidates[i]? = some c
  greatest : ∀ (j : Nat) (d : String), candidates[j]? = some d → ratio found d ≤ ratio found c
  first : ∀ (j : Nat) (d : String), candidates[j]? = some d → j < i →
    ratio found d < ratio found c

/-- The characters of `found` and of any candidate can be counted in 64 bits, as it is with all
texts that a memory can hold. Beyond any memory a ratio would not be a number. -/
def IsCounted (found : String) (candidates : List String) : Prop :=
  ∀ c ∈ candidates, found.toList.length + c.toList.length < 2 ^ 64

variable {found : String} {candidates : List String}

theorem IsFirstBest.unique {i i' : Nat} {c c' : String} (h : IsFirstBest found candidates i c)
    (h' : IsFirstBest found candidates i' c') : i = i' ∧ c = c' := by
  have hplace : i = i' := by
    rcases lt_trichotomy i i' with hlt | heq | hgt
    · exact absurd (Double.lt_of_lt_of_le (h'.first i c h.here hlt) (h.greatest i' c' h'.here))
        (Double.lt_irrefl _)
    · exact heq
    · exact absurd (Double.lt_of_lt_of_le (h.first i' c' h'.here hgt) (h'.greatest i c h.here))
        (Double.lt_irrefl _)
  subst hplace
  exact ⟨rfl, Option.some.inj (h.here.symm.trans h'.here)⟩

/-! ## The search -/

/-- The search with one more candidate behind the others. -/
theorem mostAlike_append (found : String) (candidates : List String) (c : String) :
    mostAlike found (candidates ++ [c]) =
      better found (mostAlike found candidates) (c, candidates.length) := by
  unfold mostAlike
  rw [List.zipIdx_append, List.foldl_append, Nat.zero_add]
  rfl

/-- The score that the search ends with is the ratio of some candidate. -/
theorem exists_ratio_of_mostAlike {best : Nat × Float} (h : mostAlike found candidates = some best) :
    ∃ c, best.2 = ratio found c := by
  induction candidates using List.reverseRecOn generalizing best with
  | nil => cases h
  | append_singleton candidates c ih =>
    rw [mostAlike_append] at h
    cases hbest : mostAlike found candidates with
    | none =>
      rw [hbest] at h
      exact ⟨c, congrArg Prod.snd (Option.some.inj h).symm⟩
    | some top =>
      rw [hbest, better] at h
      dsimp only at h
      split at h
      · exact ⟨c, congrArg Prod.snd (Option.some.inj h).symm⟩
      · obtain rfl := Option.some.inj h
        exact ih hbest

theorem isFirstBest_singleton {c : String} (hcounted : IsCounted found [c]) :
    IsFirstBest found [c] 0 c := by
  refine ⟨rfl, fun j d hd => ?_, fun j d _ hj => absurd hj (Nat.not_lt_zero j)⟩
  obtain rfl : d = c := List.mem_singleton.mp (List.mem_of_getElem? hd)
  exact Double.le_refl (ratio_isNaN (hcounted d List.mem_cons_self))

/-- A candidate that is better than the best so far is the best one. -/
theorem IsFirstBest.replace {i : Nat} {b c : String} (h : IsFirstBest found candidates i b)
    (hc : (ratio found c).isNaN = false) (hlt : ratio found b < ratio found c) :
    IsFirstBest found (candidates ++ [c]) candidates.length c := by
  have hold (j : Nat) (d : String) (hd : candidates[j]? = some d) :
      ratio found d < ratio found c :=
    Double.lt_of_le_of_lt (h.greatest j d hd) hlt
  refine ⟨List.getElem?_concat_length, fun j d hd => ?_, fun j d hd hj => ?_⟩
  · rw [List.getElem?_append] at hd
    split at hd
    · exact Double.le_of_lt (hold j d hd)
    · obtain rfl := List.mem_singleton.mp (List.mem_of_getElem? hd)
      exact Double.le_refl hc
  · rw [List.getElem?_append_left hj] at hd
    exact hold j d hd

/-- A candidate that is not better than the best so far changes nothing. -/
theorem IsFirstBest.keep {i : Nat} {b c : String} (h : IsFirstBest found candidates i b)
    (hle : ratio found c ≤ ratio found b) :
    IsFirstBest found (candidates ++ [c]) i b := by
  have hi : i < candidates.length := (List.getElem?_eq_some_iff.mp h.here).1
  refine ⟨?_, fun j d hd => ?_, fun j d hd hj => ?_⟩
  · rw [List.getElem?_append_left hi]
    exact h.here
  · rw [List.getElem?_append] at hd
    split at hd
    · exact h.greatest j d hd
    · obtain rfl := List.mem_singleton.mp (List.mem_of_getElem? hd)
      exact hle
  · rw [List.getElem?_append_left (hj.trans hi)] at hd
    exact h.first j d hd hj

/-- The search ends with the first of the best candidates, and with its ratio. -/
theorem isFirstBest_mostAlike (hcounted : IsCounted found candidates) (hne : candidates ≠ []) :
    ∃ i c, IsFirstBest found candidates i c ∧
      mostAlike found candidates = some (i, ratio found c) := by
  induction candidates using List.reverseRecOn with
  | nil => exact absurd rfl hne
  | append_singleton candidates c ih =>
    rw [mostAlike_append]
    have hc := ratio_isNaN (hcounted c (List.mem_append_right _ List.mem_cons_self))
    by_cases hempty : candidates = []
    · subst hempty
      exact ⟨0, c, isFirstBest_singleton hcounted, rfl⟩
    · obtain ⟨i, b, hbest, heq⟩ := ih (fun d hd => hcounted d (List.mem_append_left _ hd)) hempty
      have hb := ratio_isNaN
        (hcounted b (List.mem_append_left _ (List.mem_of_getElem? hbest.here)))
      rw [heq]
      by_cases hlt : ratio found b < ratio found c
      · exact ⟨candidates.length, c, hbest.replace hc hlt, if_pos hlt⟩
      · exact ⟨i, b, hbest.keep (Double.le_of_not_lt hb hc hlt), if_neg hlt⟩

/-! ## The threshold -/

theorem bestMatch_nil (found : String) (threshold : Float) :
    bestMatch found [] threshold = none := rfl

theorem bestMatch_of_best {i : Nat} {c : String}
    (h : mostAlike found candidates = some (i, ratio found c)) (threshold : Float) :
    bestMatch found candidates threshold = if threshold < ratio found c then some i else none := by
  unfold bestMatch
  rw [h]

theorem bestMatch_iff (hcounted : IsCounted found candidates) (threshold : Float) (i : Nat) :
    bestMatch found candidates threshold = some i ↔
      ∃ c, IsFirstBest found candidates i c ∧ threshold < ratio found c := by
  constructor
  · intro h
    have hne : candidates ≠ [] := by
      rintro rfl
      cases h
    obtain ⟨k, b, hbest, heq⟩ := isFirstBest_mostAlike hcounted hne
    rw [bestMatch_of_best heq, Option.ite_none_right_eq_some] at h
    obtain ⟨hlt, hplace⟩ := h
    obtain rfl := Option.some.inj hplace
    exact ⟨b, hbest, hlt⟩
  · rintro ⟨c, hc, hlt⟩
    have hne : candidates ≠ [] := List.ne_nil_of_mem (List.mem_of_getElem? hc.here)
    obtain ⟨k, b, hbest, heq⟩ := isFirstBest_mostAlike hcounted hne
    obtain ⟨rfl, rfl⟩ := hbest.unique hc
    rw [bestMatch_of_best heq, if_pos hlt]

theorem bestMatch_eq_none_iff (hcounted : IsCounted found candidates) (threshold : Float) :
    bestMatch found candidates threshold = none ↔
      ∀ c ∈ candidates, ¬ threshold < ratio found c := by
  by_cases hne : candidates = []
  · subst hne
    simp [bestMatch_nil]
  obtain ⟨i, b, hbest, heq⟩ := isFirstBest_mostAlike hcounted hne
  rw [bestMatch_of_best heq, ite_eq_right_iff]
  constructor
  · intro hnone c hc hlt
    obtain ⟨j, hj⟩ := List.mem_iff_getElem?.mp hc
    exact Option.some_ne_none i (hnone (Double.lt_of_lt_of_le hlt (hbest.greatest j c hj)))
  · intro hall hlt
    exact absurd hlt (hall b (List.mem_of_getElem? hbest.here))

/-- A higher threshold finds the same candidate or none. -/
theorem bestMatch_raise (found : String) (candidates : List String) {threshold higher : Float}
    (h : threshold ≤ higher) :
    bestMatch found candidates higher = none ∨
      bestMatch found candidates higher = bestMatch found candidates threshold := by
  unfold bestMatch
  cases mostAlike found candidates with
  | none => exact .inl rfl
  | some best =>
    by_cases hlt : higher < best.2
    · exact .inr (by simp only [if_pos hlt, if_pos (Double.lt_of_le_of_lt h hlt)])
    · exact .inl (if_neg hlt)

/-- One candidate alone is the best match if it is taken for a misspelling. -/
theorem isTypoOf_iff (found wanted : String) (threshold : Float) :
    isTypoOf found wanted threshold = true ↔ bestMatch found [wanted] threshold = some 0 := by
  rw [bestMatch_of_best (i := 0) (c := wanted) rfl, isTypoOf, decide_eq_true_iff]
  simp

/-- **The first maximum above a strict threshold.** A candidate is found if and only if its
ratio exceeds the threshold, no other ratio is greater, and all ratios in front of it are less.
None is found if and only if no ratio exceeds the threshold. A higher threshold can find
nothing instead, but it never finds another candidate. One candidate is found if and only if
the word is read as a misspelling of it. -/
theorem bestMatch_spec (found : String) (candidates : List String) :
    (IsCounted found candidates →
        (∀ threshold i, bestMatch found candidates threshold = some i ↔
          ∃ c : String, candidates[i]? = some c ∧ threshold < ratio found c ∧
            (∀ (j : Nat) (d : String), candidates[j]? = some d → ratio found d ≤ ratio found c) ∧
            ∀ (j : Nat) (d : String), candidates[j]? = some d → j < i →
              ratio found d < ratio found c) ∧
        ∀ threshold, bestMatch found candidates threshold = none ↔
          ∀ c ∈ candidates, ¬ threshold < ratio found c) ∧
      (∀ threshold higher : Float, threshold ≤ higher →
        bestMatch found candidates higher = none ∨
          bestMatch found candidates higher = bestMatch found candidates threshold) ∧
      ∀ wanted threshold, isTypoOf found wanted threshold = true ↔
        bestMatch found [wanted] threshold = some 0 := by
  refine ⟨fun hcounted => ⟨fun threshold i => ?_, bestMatch_eq_none_iff hcounted⟩,
    fun _ _ => bestMatch_raise found candidates, isTypoOf_iff found⟩
  rw [bestMatch_iff hcounted]
  constructor
  · rintro ⟨c, hc, hlt⟩
    exact ⟨c, hc.here, hlt, hc.greatest, hc.first⟩
  · rintro ⟨c, hhere, hlt, hgreatest, hfirst⟩
    exact ⟨c, ⟨hhere, hgreatest, hfirst⟩, hlt⟩

/-- Of two candidates that are the same the first one is found, or none. -/
theorem bestMatch_spec_whille :
    IsCounted "whille" ["end", "while", "while"] ∧
      bestMatch "whille" ["end", "while", "while"] defaultThreshold = some 1 ∧
      bestMatch "whille" ["end", "while", "while"] 0.95 = none ∧
      (∀ (j : Nat) (d : String), ["end", "while", "while"][j]? = some d →
        ratio "whille" d ≤ ratio "whille" "while") ∧
      (∀ c ∈ ["end", "while", "while"], ¬ 0.95 < ratio "whille" c) ∧
      defaultThreshold ≤ 0.7 ∧
      (bestMatch "whille" ["end", "while", "while"] 0.7 = none ∨
        bestMatch "whille" ["end", "while", "while"] 0.7 = some 1) := by
  have hcounted : IsCounted "whille" ["end", "while", "while"] := by
    intro c hc
    fin_cases hc <;> decide
  obtain ⟨hsearch, hraise, -⟩ := bestMatch_spec "whille" ["end", "while", "while"]
  obtain ⟨hsome, hnone⟩ := hsearch hcounted
  have hfound : bestMatch "whille" ["end", "while", "while"] defaultThreshold = some 1 := by
    decide +kernel
  have hhigh : bestMatch "whille" ["end", "while", "while"] 0.95 = none := by
    decide +kernel
  have hle : defaultThreshold ≤ 0.7 := by decide +kernel
  obtain ⟨c, hc, -, hgreatest, -⟩ := (hsome defaultThreshold 1).mp hfound
  obtain rfl : "while" = c := Option.some.inj hc
  exact ⟨hcounted, hfound, hhigh, hgreatest, (hnone 0.95).mp hhigh, hle,
    hfound ▸ hraise defaultThreshold 0.7 hle⟩

end LuaChecker.Similarity
