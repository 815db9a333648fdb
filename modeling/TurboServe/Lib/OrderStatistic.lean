import Mathlib.Data.List.Sort
import Mathlib.Order.Lattice

/-!
# Order statistics of a list

The `k`-th largest entry of a list is above `x` exactly if `k` entries are.
-/

namespace TurboServe.Lib

variable {α : Type*} [LinearOrder α]

/-- In a descending list, entry `i` is above `x` exactly if more than `i` entries are. -/
theorem lt_getElem_iff_of_descending {s : List α} (hs : s.Pairwise (· ≥ ·)) (x : α) {i : ℕ}
    (hi : i < s.length) : x < s[i] ↔ i < s.countP (x < ·) := by
  induction s generalizing i with
  | nil => cases hi
  | cons y s ih =>
      obtain ⟨hy, hs'⟩ := List.pairwise_cons.mp hs
      by_cases hxy : x < y
      · rw [List.countP_cons_of_pos (by simpa using hxy)]
        cases i with
        | zero => exact iff_of_true hxy (Nat.succ_pos _)
        | succ i =>
            rw [List.getElem_cons_succ, ih hs' (Nat.lt_of_succ_lt_succ hi)]
            exact Nat.succ_lt_succ_iff.symm
      · -- nothing behind an entry at most `x` is above it
        have hnone : (y :: s).countP (x < ·) = 0 := by
          refine List.countP_eq_zero.mpr fun z hz => ?_
          rw [decide_eq_true_iff, not_lt]
          rcases List.mem_cons.mp hz with rfl | hz
          · exact not_lt.mp hxy
          · exact (hy z hz).trans (not_lt.mp hxy)
        rw [hnone]
        refine iff_of_false (fun hlt => ?_) (Nat.not_lt_zero i)
        cases i with
        | zero => exact hxy hlt
        | succ i =>
            have hle := hy _ (List.getElem_mem (Nat.lt_of_succ_lt_succ hi))
            exact hxy (lt_of_lt_of_le hlt hle)

/-- Entry `i` of the sorted list is above `x` exactly if more than `i` entries are. -/
theorem lt_sorted_iff (xs : List α) (x : α) {i : ℕ}
    (hi : i < (xs.insertionSort (· ≥ ·)).length) :
    x < (xs.insertionSort (· ≥ ·))[i] ↔ i < xs.countP (x < ·) := by
  rw [lt_getElem_iff_of_descending (List.pairwise_insertionSort _ _),
    (List.perm_insertionSort (· ≥ ·) xs).countP_eq]

/-- In an ascending list, entry `i` is at most `t` exactly if more than `i` entries are. -/
theorem getElem_le_iff_of_ascending {s : List α} (hs : s.Pairwise (· ≤ ·)) (t : α) {i : ℕ}
    (hi : i < s.length) : s[i] ≤ t ↔ i < s.countP (· ≤ t) := by
  induction s generalizing i with
  | nil => cases hi
  | cons y s ih =>
      obtain ⟨hy, hs'⟩ := List.pairwise_cons.mp hs
      by_cases hyt : y ≤ t
      · rw [List.countP_cons_of_pos (by simpa using hyt)]
        cases i with
        | zero => exact iff_of_true hyt (Nat.succ_pos _)
        | succ i =>
            rw [List.getElem_cons_succ, ih hs' (Nat.lt_of_succ_lt_succ hi)]
            exact Nat.succ_lt_succ_iff.symm
      · -- nothing behind an entry above `t` is at most `t`
        have habove : ∀ z ∈ y :: s, ¬ z ≤ t := by
          intro z hz hzt
          rcases List.mem_cons.mp hz with rfl | hz
          · exact hyt hzt
          · exact hyt ((hy z hz).trans hzt)
        have hnone : (y :: s).countP (· ≤ t) = 0 :=
          List.countP_eq_zero.mpr fun z hz => by simpa using habove z hz
        rw [hnone]
        exact iff_of_false (habove _ (List.getElem_mem hi)) (Nat.not_lt_zero i)

/-- An entry of a list is at most the maximum a fold keeps. -/
theorem le_foldl_max (xs : List α) (m : α) : m ≤ xs.foldl max m ∧ ∀ x ∈ xs, x ≤ xs.foldl max m := by
  induction xs generalizing m with
  | nil => exact ⟨le_rfl, fun x hx => nomatch hx⟩
  | cons y xs ih =>
      obtain ⟨hm, hxs⟩ := ih (max m y)
      refine ⟨(le_max_left m y).trans hm, fun x hx => ?_⟩
      rcases List.mem_cons.mp hx with rfl | hx
      · exact (le_max_right m x).trans hm
      · exact hxs x hx

end TurboServe.Lib
