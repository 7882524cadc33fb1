/-!
# Matching characters of two texts

A run is a contiguous text that two texts have in common. The characters in matching blocks are
those of the longest run, and those in blocks of the parts that it leaves on either side. The
parts are windows of the two texts, told by their places, and those that are still to be
searched wait on a stack. The longest run of a window is found by a table of the common runs that
end at each pair of places, of which two rows are kept.

* `longestMatch`: the longest run in a window; among equally long ones that which starts first in
  the first text, and among those that which starts first in the second;
* `longestMatch_inside`: a run that is not empty lies in the window;
* `matchingCharacters`: the characters in matching blocks.
-/

namespace LuaChecker.Similarity

variable {α : Type} [DecidableEq α]

/-- A common run, by the places where it starts in the two texts and its length. -/
structure Run where
  left : Nat
  right : Nat
  size : Nat
  deriving DecidableEq, Repr

/-- The longest run so far, or one of this size that ends at these places, if it is longer. -/
def Run.orEndingAt (best : Run) (i j size : Nat) : Run :=
  if best.size < size then ⟨i + 1 - size, j + 1 - size, size⟩ else best

/-- A part of each of two texts, by its first place and the place behind it. -/
structure Window where
  left : Nat
  leftEnd : Nat
  right : Nat
  rightEnd : Nat
  deriving DecidableEq, Repr

/-! ## The longest run in a window -/

/-- A search through a window, row by row. A row belongs to a place of the first text. It holds 0
and, for each place of the second text, the length of the common run that ends at both. -/
structure Search where
  /-- The row of the place before. -/
  previous : Array Nat
  /-- The current row. Behind the current place it is what an earlier row has left there. -/
  row : Array Nat
  /-- The longest run so far. -/
  best : Run

namespace Search

/-- The search in front of a window. -/
def initial (w : Window) : Search :=
  let zeros := Array.replicate (w.rightEnd - w.right + 1) 0
  ⟨zeros, zeros, ⟨w.left, w.right, 0⟩⟩

/-- Fills the row at a place of the second text. -/
def fill (a b : Array α) (w : Window) (i : Nat) (s : Search) (j : Nat) : Search :=
  let slot := j + 1 - w.right
  let row := s.row.setIfInBounds slot
    (if a[i]? = b[j]? then s.previous.getD (slot - 1) 0 + 1 else 0)
  ⟨s.previous, row, s.best.orEndingAt i j (row.getD slot 0)⟩

/-- Fills the row of a place of the first text, and swaps the rows. -/
def fillRow (a b : Array α) (w : Window) (s : Search) (i : Nat) : Search :=
  let filled := (List.range' w.right (w.rightEnd - w.right)).foldl (fill a b w i) s
  ⟨filled.row, filled.previous, filled.best⟩

end Search

/-- The longest common run in a window, the first one if there are several. -/
def longestMatch (a b : Array α) (w : Window) : Run :=
  ((List.range' w.left (w.leftEnd - w.left)).foldl (Search.fillRow a b w) (.initial w)).best

/-- What is kept from one number to the next holds behind all of them. -/
theorem foldl_range'_induction {σ : Type} {f : σ → Nat → σ} {start n : Nat} {s : σ}
    (motive : Nat → σ → Prop) (hstart : motive 0 s)
    (hstep : ∀ k < n, ∀ s, motive k s → motive (k + 1) (f s (start + k))) :
    motive n ((List.range' start n).foldl f s) := by
  induction n with
  | zero => exact hstart
  | succ n ih =>
    rw [List.range'_1_concat, List.foldl_append]
    exact hstep n (Nat.lt_succ_self n) _ (ih fun k hk => hstep k (Nat.lt_succ_of_lt hk))

theorem getD_setIfInBounds (row : Array Nat) (slot k n : Nat) :
    (row.setIfInBounds slot n).getD k 0 = if slot = k ∧ slot < row.size then n
      else row.getD k 0 := by
  simp only [Array.getD_eq_getD_getElem?, Array.getElem?_setIfInBounds]
  by_cases hslot : slot = k
  · subst hslot
    by_cases hin : slot < row.size <;> simp [hin]
  · simp [hslot]

/-- No run in the rows is longer than this, and the longest one ends within so many places. -/
structure Search.Within (w : Window) (above current : Nat) (s : Search) : Prop where
  previous : ∀ k, s.previous.getD k 0 ≤ above
  row : ∀ k, s.row.getD k 0 ≤ current
  best : s.best.size = 0 ∨
    w.left ≤ s.best.left ∧ s.best.left + s.best.size ≤ w.left + current

theorem Search.within_initial (w : Window) : (Search.initial w).Within w 0 0 := by
  have hzeros (k : Nat) : (Array.replicate (w.rightEnd - w.right + 1) 0).getD k 0 ≤ 0 := by
    rw [Array.getD_eq_getD_getElem?, Array.getElem?_replicate]
    split
    · exact Nat.le_refl 0
    · exact Nat.le_refl 0
  exact ⟨hzeros, hzeros, .inl rfl⟩

theorem Search.Within.fill {w : Window} {n : Nat} {s : Search} (h : s.Within w n (n + 1))
    (a b : Array α) (j : Nat) : (s.fill a b w (w.left + n) j).Within w n (n + 1) := by
  have hrow (k : Nat) : (s.fill a b w (w.left + n) j).row.getD k 0 ≤ n + 1 := by
    rw [Search.fill, getD_setIfInBounds]
    split
    · split
      · exact Nat.succ_le_succ (h.previous _)
      · exact Nat.zero_le _
    · exact h.row k
  refine ⟨h.previous, hrow, ?_⟩
  have hsize := hrow (j + 1 - w.right)
  have hbest := h.best
  simp only [Search.fill] at hsize ⊢
  generalize Array.getD _ (j + 1 - w.right) 0 = size at hsize ⊢
  unfold Run.orEndingAt
  split
  · right
    dsimp only
    omega
  · exact hbest

theorem Search.Within.fillRow {w : Window} {n : Nat} {s : Search} (h : s.Within w n n)
    (a b : Array α) : (s.fillRow a b w (w.left + n)).Within w (n + 1) (n + 1) := by
  have hstart : s.Within w n (n + 1) :=
    ⟨h.previous, fun k => Nat.le_succ_of_le (h.row k), h.best.imp_right fun hb => ⟨hb.1, by omega⟩⟩
  have hfilled := foldl_range'_induction (fun _ s => Search.Within w n (n + 1) s) hstart
    fun k (_ : k < w.rightEnd - w.right) s hs => hs.fill a b (w.right + k)
  exact ⟨hfilled.row, fun k => Nat.le_succ_of_le (hfilled.previous k), hfilled.best⟩

/-- A run that is not empty lies in the window. -/
theorem longestMatch_inside {a b : Array α} {w : Window} (h : (longestMatch a b w).size ≠ 0) :
    w.left ≤ (longestMatch a b w).left ∧
      (longestMatch a b w).left + (longestMatch a b w).size ≤ w.leftEnd := by
  have hwithin := foldl_range'_induction (fun n s => Search.Within w n n s)
    (Search.within_initial w)
    fun k (_ : k < w.leftEnd - w.left) s hs => hs.fillRow a b
  have hbest : w.left ≤ (longestMatch a b w).left ∧
      (longestMatch a b w).left + (longestMatch a b w).size ≤ w.left + (w.leftEnd - w.left) :=
    hwithin.best.resolve_left h
  omega

/-! ## Matching blocks -/

namespace Window

/-- Puts the windows on either side of a run on a stack, the one behind it on top. A window that
has no place in one of the texts is skipped. -/
def pushSides (w : Window) (run : Run) (pending : List Window) : List Window :=
  let pending :=
    if w.left < run.left ∧ w.right < run.right then
      ⟨w.left, run.left, w.right, run.right⟩ :: pending
    else pending
  if run.left + run.size < w.leftEnd ∧ run.right + run.size < w.rightEnd then
    ⟨run.left + run.size, w.leftEnd, run.right + run.size, w.rightEnd⟩ :: pending
  else pending

/-- What a stack of windows has still to give: twice its places in the first text, and one for
each window. -/
def weight : List Window → Nat
  | [] => 0
  | w :: pending => 2 * (w.leftEnd - w.left) + 1 + weight pending

theorem weight_pushSides {w : Window} {run : Run} (hsize : run.size ≠ 0)
    (hinside : w.left ≤ run.left ∧ run.left + run.size ≤ w.leftEnd) (pending : List Window) :
    weight (w.pushSides run pending) < weight (w :: pending) := by
  simp only [pushSides]
  split <;> split <;> simp only [weight] <;> omega

end Window

/-- Counts the characters in blocks of the windows on the stack, on top of those counted
before. -/
def countMatching (a b : Array α) (matched : Nat) : List Window → Nat
  | [] => matched
  | w :: pending =>
    let run := longestMatch a b w
    if _h : run.size = 0 then countMatching a b matched pending
    else countMatching a b (matched + run.size) (w.pushSides run pending)
  termination_by pending => Window.weight pending
  decreasing_by
    · rw [Window.weight]
      omega
    · exact Window.weight_pushSides _h (longestMatch_inside _h) pending

/-- The number of characters of two texts in matching blocks. -/
def matchingCharacters (a b : Array α) : Nat :=
  countMatching a b 0 [⟨0, a.size, 0, b.size⟩]

end LuaChecker.Similarity
