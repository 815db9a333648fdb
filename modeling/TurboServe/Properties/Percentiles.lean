import TurboServe.Bench.Records
import TurboServe.Canary.Controller
import TurboServe.Lib.Quantile

/-!
# Percentiles

`percentile` is the linear-interpolation quantile of its sample, and the figure the canary
gate compares is the same one.
-/

namespace TurboServe.Bench

open TurboServe.Lib

/-- The rank of a percentile among `n` samples, counted from zero. -/
def quantileRank (q : ℚ) (n : ℕ) : ℚ := q / 100 * (n - 1 : ℕ)

theorem quantileRank_mem {q : ℚ} (hq : 0 ≤ q ∧ q ≤ 100) (n : ℕ) :
    0 ≤ quantileRank q n ∧ quantileRank q n ≤ (n - 1 : ℕ) := by
  have hfraction : 0 ≤ q / 100 ∧ q / 100 ≤ 1 := ⟨by linarith [hq.1], by linarith [hq.2]⟩
  have hn : (0 : ℚ) ≤ (n - 1 : ℕ) := Nat.cast_nonneg _
  exact ⟨mul_nonneg hfraction.1 hn, mul_le_of_le_one_left hn hfraction.2⟩

/-- The branches of the code are one interpolation of the order statistics. -/
theorem percentile_eq {xs : List ℚ} (hne : xs ≠ []) {q : ℚ} (hq : 0 ≤ q ∧ q ≤ 100) :
    percentile xs q = .ok (some (interpolate (orderStat xs) (quantileRank q xs.length))) := by
  have hpos := List.length_pos_iff.mpr hne
  have hlen : xs.mergeSort.length = xs.length := List.length_mergeSort ..
  have hstat : ∀ k ≤ xs.length - 1, xs.mergeSort.getD k 0 = orderStat xs k := by
    intro k hk
    rw [orderStat, min_eq_left hk]
  obtain ⟨hnonneg, hle⟩ := quantileRank_mem hq xs.length
  unfold percentile
  rw [if_neg (not_not.mpr hq), if_neg hne]
  dsimp only
  rw [hlen]
  by_cases hone : xs.length = 1
  · have hrank : quantileRank q xs.length = (0 : ℕ) := by
      rw [quantileRank, hone, Nat.sub_self, Nat.cast_zero, mul_zero]
    rw [if_pos hone, hrank, interpolate_natCast, hstat 0 (Nat.zero_le _)]
  rw [if_neg hone]
  obtain ⟨r, hr⟩ : ∃ r, quantileRank q xs.length = r := ⟨_, rfl⟩
  rw [hr] at hnonneg hle
  rw [hr, show q / 100 * (xs.length - 1 : ℕ) = r from hr]
  have hlow : ⌊r⌋₊ ≤ xs.length - 1 := by
    have hfloor := (Nat.floor_le hnonneg).trans hle
    exact_mod_cast hfloor
  by_cases hint : ⌊r⌋₊ = ⌈r⌉₊
  · have hrank : r = (⌊r⌋₊ : ℕ) := by
      refine le_antisymm ?_ (Nat.floor_le hnonneg)
      rw [hint]
      exact Nat.le_ceil r
    rw [if_pos hint, hstat _ hlow]
    conv_rhs => rw [hrank, interpolate_natCast]
  · have hceil : ⌈r⌉₊ = ⌊r⌋₊ + 1 :=
      le_antisymm (Nat.ceil_le_floor_add_one r)
        (Nat.succ_le_of_lt (lt_of_le_of_ne (Nat.floor_le_ceil r) hint))
    have hhigh : ⌈r⌉₊ ≤ xs.length - 1 := Nat.ceil_le.mpr hle
    rw [if_neg hint, hstat _ hlow, hstat _ hhigh, hceil]
    rfl

theorem min?_eq_orderStat {xs : List ℚ} (hne : xs ≠ []) : xs.min? = some (orderStat xs 0) :=
  List.min?_eq_some_iff.mpr ⟨orderStat_mem hne 0, fun _ hx => orderStat_zero_le hx⟩

theorem max?_eq_orderStat {xs : List ℚ} (hne : xs ≠ []) :
    xs.max? = some (orderStat xs (xs.length - 1)) :=
  List.max?_eq_some_iff.mpr ⟨orderStat_mem hne _, fun _ hx => le_orderStat_last hx⟩

/-- The quantile lies between the smallest sample and the largest one. -/
theorem interpolate_mem (xs : List ℚ) {q : ℚ} (hq : 0 ≤ q ∧ q ≤ 100) :
    orderStat xs 0 ≤ interpolate (orderStat xs) (quantileRank q xs.length) ∧
      interpolate (orderStat xs) (quantileRank q xs.length) ≤
        orderStat xs (xs.length - 1) := by
  obtain ⟨hnonneg, hle⟩ := quantileRank_mem hq xs.length
  have hmono := orderStat_mono xs
  constructor
  · calc orderStat xs 0 = interpolate (orderStat xs) (0 : ℕ) := (interpolate_natCast ..).symm
      _ ≤ _ := interpolate_mono hmono (Nat.cast_nonneg 0) (by exact_mod_cast hnonneg)
  · calc interpolate (orderStat xs) (quantileRank q xs.length)
        ≤ interpolate (orderStat xs) (xs.length - 1 : ℕ) := interpolate_mono hmono hnonneg hle
      _ = orderStat xs (xs.length - 1) := interpolate_natCast ..

theorem quantileRank_mono {p q : ℚ} (h : p ≤ q) (n : ℕ) : quantileRank p n ≤ quantileRank q n :=
  mul_le_mul_of_nonneg_right (by linarith) (Nat.cast_nonneg _)

/-- `percentile` on a non-empty sample: the value is the linear interpolation at rank
`q / 100 * (n - 1)` of the order statistics, between the least sample and the greatest and
equal to them at the ends; it is monotone in `q`, the same for every order of the sample,
and monotone in each sample. -/
theorem percentile_spec {xs : List ℚ} (hne : xs ≠ []) {q : ℚ} (hq : 0 ≤ q ∧ q ≤ 100) :
    ∃ v lo hi, percentile xs q = .ok (some v) ∧ xs.min? = some lo ∧ xs.max? = some hi ∧
      v = interpolate (orderStat xs) (q / 100 * (xs.length - 1 : ℕ)) ∧
      lo ≤ v ∧ v ≤ hi ∧ (q = 0 → v = lo) ∧ (q = 100 → v = hi) ∧
      (∀ p u, 0 ≤ p → p ≤ q → percentile xs p = .ok (some u) → u ≤ v) ∧
      (∀ ys, xs.Perm ys → percentile ys q = .ok (some v)) ∧
      (∀ ys u, List.Forall₂ (· ≤ ·) xs ys → percentile ys q = .ok (some u) → v ≤ u) := by
  obtain ⟨hlow, hhigh⟩ := interpolate_mem xs hq
  obtain ⟨hnonneg, hle⟩ := quantileRank_mem hq xs.length
  refine ⟨_, _, _, percentile_eq hne hq, min?_eq_orderStat hne, max?_eq_orderStat hne, rfl,
    hlow, hhigh, ?_, ?_, ?_, ?_, ?_⟩
  · rintro rfl
    rw [quantileRank, zero_div, zero_mul, ← Nat.cast_zero, interpolate_natCast]
  · rintro rfl
    rw [quantileRank, div_self (by norm_num), one_mul, interpolate_natCast]
  · intro p u hp hpq hu
    have hpmem : 0 ≤ p ∧ p ≤ 100 := ⟨hp, hpq.trans hq.2⟩
    rw [percentile_eq hne hpmem] at hu
    cases hu
    exact interpolate_mono (orderStat_mono xs) (quantileRank_mem hpmem _).1
      (quantileRank_mono hpq _)
  · intro ys hperm
    have hys : ys ≠ [] := fun hnil => hne (List.perm_nil.mp (hnil ▸ hperm))
    rw [percentile_eq hys hq, orderStat_perm hperm, hperm.length_eq]
  · intro ys u hall hu
    have hlen := hall.length_eq
    have hys : ys ≠ [] := by
      rintro rfl
      exact hne (List.length_eq_zero_iff.mp hlen)
    rw [percentile_eq hys hq, ← hlen] at hu
    cases hu
    exact interpolate_le_interpolate (orderStat_le_orderStat hall) hnonneg

theorem percentile_spec_median : ∃ v lo hi : ℚ,
    percentile [3, 1, 2, 10] 50 = .ok (some v) ∧
      [3, 1, 2, 10].min? = some lo ∧ [3, 1, 2, 10].max? = some hi ∧ lo ≤ v ∧ v ≤ hi := by
  obtain ⟨v, lo, hi, hv, hlo, hhi, -, hmin, hmax, -⟩ :=
    percentile_spec (List.cons_ne_nil 3 [1, 2, 10]) (q := 50) (by norm_num)
  exact ⟨v, lo, hi, hv, hlo, hhi, hmin, hmax⟩

theorem percentile_nil {q : ℚ} (hq : 0 ≤ q ∧ q ≤ 100) : percentile [] q = .ok none := by
  rw [percentile, if_neg (not_not.mpr hq), if_pos rfl]

/-- What the canary window reports is this percentile of its samples. -/
theorem percentile_eq_canary (values : List ℚ) {q : ℚ} (hq : 0 ≤ q ∧ q ≤ 100) :
    percentile values q = .ok (Canary.percentile values q) := by
  by_cases hne : values = []
  · rw [Canary.percentile, hne, percentile_nil hq]
    rfl
  · rw [Canary.percentile, percentile_eq hne hq]
    rfl

end TurboServe.Bench
