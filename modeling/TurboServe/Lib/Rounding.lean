import Mathlib.Data.Int.Log
import Mathlib.Data.Rat.Floor
import Mathlib.Tactic.Linarith
import Mathlib.Tactic.Positivity

/-!
# Rounding to a number of digits

A rational is rounded to the nearest multiple of a unit, ties to even. The unit is the place
of the last of `p` digits in base `β`, but no lower than a least place: with base two, 53
digits and the place `-1074` this is the rounding of double precision, with 24 digits and the
place `-149` that of single precision.
-/

namespace TurboServe.Lib

/-! ## §1  To an integer -/

/-- The nearest integer, ties to even. -/
def roundEven (t : ℚ) : ℤ :=
  if 2 * Int.fract t < 1 ∨ (2 * Int.fract t = 1 ∧ ⌊t⌋ % 2 = 0) then ⌊t⌋ else ⌊t⌋ + 1

theorem roundEven_cases (t : ℚ) :
    roundEven t = ⌊t⌋ ∨ (roundEven t = ⌊t⌋ + 1 ∧ 0 < Int.fract t) := by
  unfold roundEven
  split
  · exact Or.inl rfl
  · rename_i h
    push Not at h
    exact Or.inr ⟨rfl, by linarith [h.1]⟩

@[simp] theorem roundEven_intCast (n : ℤ) : roundEven n = n := by
  rcases roundEven_cases n with h | ⟨-, h⟩
  · rw [h, Int.floor_intCast]
  · rw [Int.fract_intCast] at h
    exact absurd h (lt_irrefl 0)

theorem le_roundEven {n : ℤ} {t : ℚ} (h : (n : ℚ) ≤ t) : n ≤ roundEven t := by
  have hfloor : n ≤ ⌊t⌋ := Int.le_floor.mpr h
  rcases roundEven_cases t with heq | ⟨heq, -⟩ <;> omega

theorem roundEven_le {n : ℤ} {t : ℚ} (h : t ≤ n) : roundEven t ≤ n := by
  have hfloor : ⌊t⌋ ≤ n := by
    have hlt := (Int.floor_le t).trans h
    exact_mod_cast hlt
  rcases roundEven_cases t with heq | ⟨heq, hpos⟩
  · omega
  · have hlt : (⌊t⌋ : ℚ) < n := by
      have := Int.floor_add_fract t
      linarith
    have hlt' : ⌊t⌋ < n := by exact_mod_cast hlt
    omega

theorem abs_roundEven_le {n : ℤ} {t : ℚ} (h : |t| ≤ n) : |roundEven t| ≤ n := by
  obtain ⟨hlow, hhigh⟩ := abs_le.mp h
  refine abs_le.mpr ⟨le_roundEven ?_, roundEven_le hhigh⟩
  push_cast
  exact hlow

/-! ## §2  To a number of digits -/

section Digits

variable (β p : ℕ) (low : ℤ) (q : ℚ)

/-- The place of the last of `p` digits. -/
def lastPlace : ℤ := Int.log β |q| - (p - 1)

/-- The nearest rational of at most `p` digits with none below the place `low`. -/
def roundTo : ℚ :=
  roundEven (q / (β : ℚ) ^ max (lastPlace β p q) low) * (β : ℚ) ^ max (lastPlace β p q) low

variable {β p low q}

theorem abs_lt_zpow_lastPlace (hβ : 1 < β) : |q| < (β : ℚ) ^ (lastPlace β p q + p) := by
  have h := Int.lt_zpow_succ_log_self hβ |q|
  rwa [show lastPlace β p q + p = Int.log β |q| + 1 by rw [lastPlace]; ring]

theorem roundEven_mul_nonneg (hq : 0 ≤ q) (e : ℤ) :
    0 ≤ (roundEven (q / (β : ℚ) ^ e) : ℚ) * (β : ℚ) ^ e := by
  have hunit : (0 : ℚ) ≤ (β : ℚ) ^ e := zpow_nonneg (Nat.cast_nonneg β) _
  refine mul_nonneg ?_ hunit
  have h : ((0 : ℤ) : ℚ) ≤ q / (β : ℚ) ^ e := by
    rw [Int.cast_zero]
    exact div_nonneg hq hunit
  exact_mod_cast le_roundEven h

theorem roundTo_nonneg (hq : 0 ≤ q) : 0 ≤ roundTo β p low q := roundEven_mul_nonneg hq _

/-- A multiple of its own unit is its own rounding. -/
theorem roundTo_of_multiple (hβ : 1 < β) {n : ℤ}
    (h : q = n * (β : ℚ) ^ max (lastPlace β p q) low) : roundTo β p low q = q := by
  have hpos : (0 : ℚ) < β := by exact_mod_cast zero_lt_one.trans hβ
  have hunit : (β : ℚ) ^ max (lastPlace β p q) low ≠ 0 := (zpow_pos hpos _).ne'
  have hdiv : q / (β : ℚ) ^ max (lastPlace β p q) low = n := by
    rw [div_eq_iff hunit]
    exact h
  rw [roundTo, hdiv, roundEven_intCast]
  exact h.symm

/-- What `p` digits hold, more digits hold. -/
theorem roundTo_finer (hβ : 1 < β) {p' : ℕ} {low' : ℤ} (hp : p ≤ p') (hlow : low' ≤ low)
    (h : roundTo β p low q = q) : roundTo β p' low' q = q := by
  have hpos : (0 : ℚ) < β := by exact_mod_cast zero_lt_one.trans hβ
  have hle : max (lastPlace β p' q) low' ≤ max (lastPlace β p q) low := by
    refine max_le_max ?_ hlow
    unfold lastPlace
    omega
  obtain ⟨d, hd⟩ := Int.le.dest hle
  generalize hk : roundEven (q / (β : ℚ) ^ max (lastPlace β p q) low) = k
  refine roundTo_of_multiple (n := k * (β : ℤ) ^ d) hβ ?_
  calc q = k * (β : ℚ) ^ max (lastPlace β p q) low := by rw [← hk, ← roundTo, h]
    _ = k * ((β : ℚ) ^ max (lastPlace β p' q) low' * (β : ℚ) ^ d) := by
        rw [← hd, zpow_add₀ hpos.ne', zpow_natCast]
    _ = ((k * (β : ℤ) ^ d : ℤ) : ℚ) * (β : ℚ) ^ max (lastPlace β p' q) low' := by
        push_cast
        ring

/-- A rounded rational is its own rounding. -/
theorem roundTo_roundTo (hβ : 1 < β) (hp : 1 ≤ p) (q : ℚ) :
    roundTo β p low (roundTo β p low q) = roundTo β p low q := by
  have hpos : (0 : ℚ) < β := by exact_mod_cast zero_lt_one.trans hβ
  generalize he : max (lastPlace β p q) low = e
  generalize hk : roundEven (q / (β : ℚ) ^ e) = k
  have hr : roundTo β p low q = k * (β : ℚ) ^ e := by rw [roundTo, he, hk]
  have hunit : (0 : ℚ) < (β : ℚ) ^ e := zpow_pos hpos _
  rw [hr]
  by_cases hzero : k = 0
  · rw [hzero, Int.cast_zero, zero_mul]
    exact roundTo_of_multiple (n := 0) hβ (by simp)
  -- the coefficient has at most `p` digits
  have hbound : |k| ≤ (β : ℤ) ^ p := by
    rw [← hk]
    refine abs_roundEven_le ?_
    rw [abs_div, abs_of_pos hunit, div_le_iff₀ hunit]
    push_cast
    rw [← zpow_natCast, ← zpow_add₀ hpos.ne']
    have hmagnitude : |q| < (β : ℚ) ^ (lastPlace β p q + p) := abs_lt_zpow_lastPlace hβ
    refine hmagnitude.le.trans (zpow_le_zpow_right₀ (by exact_mod_cast hβ.le) ?_)
    have hle : lastPlace β p q ≤ e := he ▸ le_max_left _ _
    omega
  have habs : |(k : ℚ) * (β : ℚ) ^ e| = (|k| : ℤ) * (β : ℚ) ^ e := by
    rw [abs_mul, abs_of_pos hunit, Int.cast_abs]
  have habspos : 0 < |(k : ℚ) * (β : ℚ) ^ e| := by
    rw [habs]
    exact mul_pos (by exact_mod_cast abs_pos.mpr hzero) hunit
  rcases hbound.lt_or_eq with hless | hfull
  · -- its unit divides the old one
    have hlog : Int.log β |(k : ℚ) * (β : ℚ) ^ e| < e + p := by
      refine (Int.lt_zpow_iff_log_lt hβ habspos).mp ?_
      rw [habs, zpow_add₀ hpos.ne', mul_comm, zpow_natCast]
      exact mul_lt_mul_of_pos_left (by exact_mod_cast hless) hunit
    have hlow : low ≤ e := he ▸ le_max_right _ _
    have hle : max (lastPlace β p ((k : ℚ) * (β : ℚ) ^ e)) low ≤ e := by
      refine max_le ?_ hlow
      rw [lastPlace]
      omega
    obtain ⟨d, hd⟩ := Int.le.dest hle
    refine roundTo_of_multiple (n := k * (β : ℤ) ^ d) hβ ?_
    push_cast
    rw [mul_assoc, ← zpow_natCast, ← zpow_add₀ hpos.ne', add_comm (d : ℤ), hd]
  · -- it carried into the next place
    have hlog : Int.log β |(k : ℚ) * (β : ℚ) ^ e| = e + p := by
      rw [habs, hfull]
      push_cast
      rw [← zpow_natCast, ← zpow_add₀ hpos.ne', Int.log_zpow hβ, add_comm]
    have hlow : low ≤ e := he ▸ le_max_right _ _
    have hplace : max (lastPlace β p ((k : ℚ) * (β : ℚ) ^ e)) low = e + 1 := by
      rw [lastPlace, hlog, max_eq_left] <;> omega
    have hsign : k = k.sign * (β : ℤ) ^ (p - 1) * β := by
      conv_lhs => rw [← Int.sign_mul_abs k, hfull]
      rw [mul_assoc, ← pow_succ, Nat.sub_add_cancel hp]
    refine roundTo_of_multiple (n := k.sign * (β : ℤ) ^ (p - 1)) hβ ?_
    rw [hplace, zpow_add_one₀ hpos.ne']
    conv_lhs => rw [hsign]
    push_cast
    ring

end Digits

end TurboServe.Lib
