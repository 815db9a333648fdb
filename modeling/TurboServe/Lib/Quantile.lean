import Mathlib.Algebra.Order.Floor.Semiring
import Mathlib.Data.List.GetD
import Mathlib.Tactic.Linarith
import Mathlib.Tactic.Ring
import TurboServe.Lib.OrderStatistic

/-!
# Quantiles by linear interpolation

The order statistics of a sample are a monotone sequence that a permutation does not change
and that grows with every entry. Interpolating a monotone sequence linearly between the
natural numbers is monotone in the place and in the sequence.
-/

namespace TurboServe.Lib

/-! ## §1  Order statistics -/

section OrderStat

variable {α : Type*} [LinearOrder α] [Zero α] {xs ys : List α}

/-- The `k`-th smallest entry, counted from zero; the largest from the last one on. -/
def orderStat (xs : List α) (k : ℕ) : α := xs.mergeSort.getD (min k (xs.length - 1)) 0

omit [Zero α] in
theorem pairwise_mergeSort_le (xs : List α) : xs.mergeSort.Pairwise (· ≤ ·) := by
  have htrans : ∀ a b c : α, decide (a ≤ b) = true → decide (b ≤ c) = true →
      decide (a ≤ c) = true := by
    intro a b c hab hbc
    rw [decide_eq_true_iff] at hab hbc ⊢
    exact hab.trans hbc
  have htotal : ∀ a b : α, (decide (a ≤ b) || decide (b ≤ a)) = true := by
    intro a b
    rw [Bool.or_eq_true, decide_eq_true_iff, decide_eq_true_iff]
    exact le_total a b
  have h := List.pairwise_mergeSort htrans htotal xs
  exact h.imp fun hab => of_decide_eq_true hab

theorem orderStat_nil (k : ℕ) : orderStat ([] : List α) k = 0 := by
  rw [orderStat, List.mergeSort_nil, List.getD_nil]

theorem orderStat_eq {k : ℕ} (hk : k < xs.mergeSort.length) :
    orderStat xs k = xs.mergeSort[k] := by
  have hmin : min k (xs.length - 1) = k := by
    rw [List.length_mergeSort] at hk
    exact min_eq_left (by omega)
  rw [orderStat, hmin, List.getD_eq_getElem]

theorem orderStat_mem (hne : xs ≠ []) (k : ℕ) : orderStat xs k ∈ xs := by
  have hpos := List.length_pos_iff.mpr hne
  have hlt : min k (xs.length - 1) < xs.mergeSort.length := by
    rw [List.length_mergeSort]
    omega
  rw [orderStat, List.getD_eq_getElem _ _ hlt]
  exact List.mem_mergeSort.mp (List.getElem_mem hlt)

theorem orderStat_mono (xs : List α) : Monotone (orderStat xs) := by
  intro j k hjk
  by_cases hne : xs = []
  · subst hne
    rw [orderStat_nil, orderStat_nil]
  have hpos := List.length_pos_iff.mpr hne
  have hlt : ∀ i, min i (xs.length - 1) < xs.mergeSort.length := by
    intro i
    rw [List.length_mergeSort]
    omega
  rw [orderStat, orderStat, List.getD_eq_getElem _ _ (hlt j), List.getD_eq_getElem _ _ (hlt k)]
  rcases (min_le_min_right (xs.length - 1) hjk).eq_or_lt with heq | hless
  · exact (getElem_congr_idx heq).le
  · exact List.pairwise_iff_getElem.mp (pairwise_mergeSort_le xs) _ _ _ _ hless

theorem orderStat_perm (h : xs.Perm ys) : orderStat xs = orderStat ys := by
  have hsort : xs.mergeSort = ys.mergeSort :=
    List.Perm.eq_of_pairwise (fun _ _ _ _ => le_antisymm) (pairwise_mergeSort_le xs)
      (pairwise_mergeSort_le ys)
      ((List.mergeSort_perm xs _).trans (h.trans (List.mergeSort_perm ys _).symm))
  funext k
  rw [orderStat, orderStat, hsort, h.length_eq]

theorem orderStat_le_iff {k : ℕ} (hk : k < xs.length) (t : α) :
    orderStat xs k ≤ t ↔ k < xs.countP (· ≤ t) := by
  have hk' : k < xs.mergeSort.length := by rwa [List.length_mergeSort]
  rw [orderStat_eq hk', getElem_le_iff_of_ascending (pairwise_mergeSort_le xs),
    (List.mergeSort_perm xs _).countP_eq]

/-- A sample that is larger entry by entry has larger order statistics. -/
theorem orderStat_le_orderStat (h : List.Forall₂ (· ≤ ·) xs ys) (k : ℕ) :
    orderStat xs k ≤ orderStat ys k := by
  have hlen := h.length_eq
  by_cases hne : xs = []
  · subst hne
    cases h
    rw [orderStat_nil]
  have hpos := List.length_pos_iff.mpr hne
  have hcount : ∀ t, ys.countP (· ≤ t) ≤ xs.countP (· ≤ t) := by
    intro t
    clear hlen hne hpos
    induction h with
    | nil => exact le_rfl
    | @cons x y xs ys hxy h ih =>
        rw [List.countP_cons, List.countP_cons]
        by_cases hy : y ≤ t
        · rw [if_pos (by simpa using hy), if_pos (by simpa using hxy.trans hy)]
          omega
        · rw [if_neg (by simpa using hy)]
          omega
  -- from the last place on both are the largest entry
  have hclamp : ∀ zs : List α, zs.length = xs.length →
      orderStat zs k = orderStat zs (min k (xs.length - 1)) := by
    intro zs hzs
    rw [orderStat, orderStat, hzs, min_assoc, min_self]
  have hk : min k (xs.length - 1) < xs.length := by omega
  rw [hclamp xs rfl, hclamp ys hlen.symm, orderStat_le_iff hk]
  exact ((orderStat_le_iff (hlen ▸ hk) _).mp le_rfl).trans_le (hcount _)

theorem orderStat_zero_le {x : α} (hx : x ∈ xs) : orderStat xs 0 ≤ x := by
  rw [orderStat_le_iff (List.length_pos_of_mem hx)]
  exact List.countP_pos_iff.mpr ⟨x, hx, decide_eq_true le_rfl⟩

theorem le_orderStat_last {x : α} (hx : x ∈ xs) : x ≤ orderStat xs (xs.length - 1) := by
  have hpos := List.length_pos_of_mem hx
  have hall : xs.length ≤ xs.countP (· ≤ orderStat xs (xs.length - 1)) := by
    have hlast := (orderStat_le_iff (by omega : xs.length - 1 < xs.length) _).mp le_rfl
    omega
  have heq := le_antisymm List.countP_le_length hall
  exact of_decide_eq_true (List.countP_eq_length.mp heq x hx)

end OrderStat

/-! ## §2  Linear interpolation -/

section Interpolate

variable {K : Type*} [Field K] [LinearOrder K] [IsStrictOrderedRing K] [FloorSemiring K]
  {f g : ℕ → K} {r s : K}

/-- The polygon through the points `(k, f k)`. -/
def interpolate (f : ℕ → K) (r : K) : K :=
  f ⌊r⌋₊ + (f (⌊r⌋₊ + 1) - f ⌊r⌋₊) * (r - ⌊r⌋₊)

theorem interpolate_natCast (f : ℕ → K) (n : ℕ) : interpolate f n = f n := by
  rw [interpolate, Nat.floor_natCast, sub_self, mul_zero, add_zero]

theorem fract_mem (hr : 0 ≤ r) : 0 ≤ r - ⌊r⌋₊ ∧ r - ⌊r⌋₊ < 1 := by
  have hle := Nat.floor_le hr
  have hlt := Nat.lt_floor_add_one r
  constructor <;> linarith

theorem le_interpolate (hf : Monotone f) (hr : 0 ≤ r) : f ⌊r⌋₊ ≤ interpolate f r := by
  have hstep := sub_nonneg.mpr (hf (Nat.le_succ ⌊r⌋₊))
  exact le_add_of_nonneg_right (mul_nonneg hstep (fract_mem hr).1)

theorem interpolate_le (hf : Monotone f) (hr : 0 ≤ r) : interpolate f r ≤ f (⌊r⌋₊ + 1) := by
  have hstep := sub_nonneg.mpr (hf (Nat.le_succ ⌊r⌋₊))
  have hle := mul_le_of_le_one_right hstep (fract_mem hr).2.le
  unfold interpolate
  linarith

/-- Interpolation grows with the sequence. -/
theorem interpolate_le_interpolate (h : ∀ k, f k ≤ g k) (hr : 0 ≤ r) :
    interpolate f r ≤ interpolate g r := by
  obtain ⟨hnonneg, hlt⟩ := fract_mem hr
  have hconvex : ∀ h : ℕ → K, interpolate h r =
      h ⌊r⌋₊ * (1 - (r - ⌊r⌋₊)) + h (⌊r⌋₊ + 1) * (r - ⌊r⌋₊) := by
    intro h
    unfold interpolate
    ring
  rw [hconvex f, hconvex g]
  exact add_le_add (mul_le_mul_of_nonneg_right (h _) (by linarith))
    (mul_le_mul_of_nonneg_right (h _) hnonneg)

/-- Interpolation of a monotone sequence is monotone in the place. -/
theorem interpolate_mono (hf : Monotone f) (hr : 0 ≤ r) (hrs : r ≤ s) :
    interpolate f r ≤ interpolate f s := by
  have hs := hr.trans hrs
  rcases (Nat.floor_mono hrs).eq_or_lt with heq | hlt
  · -- the same edge of the polygon
    have hstep := sub_nonneg.mpr (hf (Nat.le_succ ⌊r⌋₊))
    unfold interpolate
    rw [← heq]
    have hmul := mul_le_mul_of_nonneg_left (sub_le_sub_right hrs (⌊r⌋₊ : K)) hstep
    exact add_le_add_right hmul _
  · calc interpolate f r ≤ f (⌊r⌋₊ + 1) := interpolate_le hf hr
      _ ≤ f ⌊s⌋₊ := hf hlt
      _ ≤ interpolate f s := le_interpolate hf hs

end Interpolate

end TurboServe.Lib
