import LuaChecker.Proofs.Similarity.Blocks

/-!
# Matching characters as a common subsequence

The characters in blocks are a subsequence of both texts. So there are not more of them than
either text has, and all characters are among them just if the texts are equal.

* `Matches.le_min`: their number;
* `Matches.eq_zero_iff`, `Matches.two_mul_eq_iff`: when there are no matching characters at
  all, and when all characters match.
-/

namespace LuaChecker.Similarity

variable {α : Type} {a b : List α} {n : Nat}

theorem Matches.le_min (h : Matches a b n) : n ≤ min a.length b.length := by
  obtain ⟨text, ha, hb, rfl⟩ := exists_sublist_of_matches h
  exact Nat.le_min.mpr ⟨ha.length_le, hb.length_le⟩

theorem Matches.eq_zero_iff (h : Matches a b n) : n = 0 ↔ ∀ c ∈ a, c ∉ b := by
  constructor
  · rintro hzero
    cases h with
    | apart hapart => exact hapart
    | block _ hrun => exact hrun.size_eq_zero_iff.mp (by omega)
  · intro hapart
    exact h.unique (.apart hapart)

/-- A text as a whole is a common run of itself and itself. -/
theorem Matches.eq_length (h : Matches a a n) : n = a.length := by
  refine Nat.le_antisymm ((Nat.le_min.mp h.le_min).1) ?_
  cases h with
  | apart hapart =>
    rw [List.eq_nil_iff_forall_not_mem.mpr fun c hc => hapart c hc hc]
    exact Nat.le_refl 0
  | @block _ _ r m n _ hrun =>
    have hwhole : Run.IsCommon ⟨0, 0, a.length⟩ a a :=
      ⟨a, rfl, List.prefix_rfl, List.prefix_rfl⟩
    have hsize : a.length ≤ r.size := hrun.longest _ hwhole
    omega

theorem Matches.two_mul_eq_iff (h : Matches a b n) : 2 * n = a.length + b.length ↔ a = b := by
  constructor
  · intro hall
    obtain ⟨text, ha, hb, rfl⟩ := exists_sublist_of_matches h
    have hle := ha.length_le
    have hle' := hb.length_le
    exact (ha.eq_of_length (by omega)).symm.trans (hb.eq_of_length (by omega))
  · rintro rfl
    rw [h.eq_length, Nat.two_mul]

end LuaChecker.Similarity
