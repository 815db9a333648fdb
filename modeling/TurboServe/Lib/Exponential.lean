import Mathlib.Algebra.BigOperators.Field
import Mathlib.Algebra.Order.BigOperators.Ring.Finset
import Mathlib.Algebra.Order.Field.Basic
import Mathlib.Analysis.SpecialFunctions.Exp

/-!
# Exponentials and softmax

An exponential of an ordered field is any function that turns sums into products of positive
numbers, with `0` at `-∞`. Softmax divides the exponentials of a row by their sum.
-/

namespace TurboServe.Lib

/-- An exponential of an ordered field, extended to `-∞`. -/
structure Exponential (K : Type*) [Field K] [LinearOrder K] where
  exp : WithBot K → K
  exp_bot : exp ⊥ = 0
  exp_add : ∀ a b : K, exp (a + b : K) = exp a * exp b
  exp_pos : ∀ a : K, 0 < exp a

/-- The real exponential. -/
noncomputable def Exponential.real : Exponential ℝ where
  exp
    | ⊥ => 0
    | (a : ℝ) => Real.exp a
  exp_bot := rfl
  exp_add a b := Real.exp_add a b
  exp_pos a := Real.exp_pos a

theorem Exponential.real_monotone : Monotone Exponential.real.exp := by
  intro a b hab
  cases a with
  | bot =>
      cases b with
      | bot => exact le_rfl
      | coe b => exact (Real.exp_pos b).le
  | coe a =>
      cases b with
      | bot => exact absurd hab (WithBot.not_coe_le_bot a)
      | coe b => exact Real.exp_le_exp.mpr (WithBot.coe_le_coe.mp hab)

section

variable {K : Type*} [Field K] [LinearOrder K]

/-- `a - b` for a finite `b`. -/
def shift (a : WithBot K) (b : K) : WithBot K := a.map (· - b)

namespace Exponential

variable (E : Exponential K)

theorem exp_shift_mul (a : WithBot K) (b : K) : E.exp (shift a b) * E.exp b = E.exp a := by
  cases a with
  | bot => exact (congrArg (· * E.exp b) E.exp_bot).trans ((zero_mul _).trans E.exp_bot.symm)
  | coe a =>
      have h := E.exp_add (a - b) b
      rw [sub_add_cancel] at h
      exact h.symm

theorem exp_pos_of_ne_bot {a : WithBot K} (h : a ≠ ⊥) : 0 < E.exp a := by
  obtain ⟨a, rfl⟩ := WithBot.ne_bot_iff_exists.mp h
  exact E.exp_pos a

theorem exp_ne_zero {a : WithBot K} (h : a ≠ ⊥) : E.exp a ≠ 0 := (E.exp_pos_of_ne_bot h).ne'

theorem exp_nonneg (a : WithBot K) : 0 ≤ E.exp a := by
  by_cases h : a = ⊥
  · rw [h, E.exp_bot]
  · exact (E.exp_pos_of_ne_bot h).le

/-- Softmax over the first `n` entries of a row. -/
def softmax (n : ℕ) (row : ℕ → WithBot K) (i : ℕ) : K :=
  E.exp (row i) / ∑ j ∈ Finset.range n, E.exp (row j)

variable [IsStrictOrderedRing K] {n : ℕ} {row : ℕ → WithBot K}

theorem total_pos (h : ∃ i < n, row i ≠ ⊥) : 0 < ∑ j ∈ Finset.range n, E.exp (row j) := by
  obtain ⟨i, hi, hrow⟩ := h
  exact Finset.sum_pos' (fun j _ => E.exp_nonneg (row j))
    ⟨i, Finset.mem_range.mpr hi, E.exp_pos_of_ne_bot hrow⟩

theorem softmax_nonneg (i : ℕ) : 0 ≤ E.softmax n row i :=
  div_nonneg (E.exp_nonneg _) (Finset.sum_nonneg fun j _ => E.exp_nonneg (row j))

theorem sum_softmax (h : ∃ i < n, row i ≠ ⊥) :
    ∑ i ∈ Finset.range n, E.softmax n row i = 1 := by
  unfold softmax
  rw [← Finset.sum_div, div_self (E.total_pos h).ne']

theorem sum_softmax_le_one : ∑ i ∈ Finset.range n, E.softmax n row i ≤ 1 := by
  by_cases h : ∃ i < n, row i ≠ ⊥
  · exact (E.sum_softmax h).le
  · have hzero : ∀ i ∈ Finset.range n, E.softmax n row i = 0 := by
      intro i hi
      have hbot : row i = ⊥ := by
        by_contra hrow
        exact h ⟨i, Finset.mem_range.mp hi, hrow⟩
      rw [softmax, hbot, E.exp_bot, zero_div]
    rw [Finset.sum_eq_zero hzero]
    exact zero_le_one

theorem softmax_le_softmax (hmono : Monotone E.exp) {i j : ℕ} (h : row i ≤ row j) :
    E.softmax n row i ≤ E.softmax n row j :=
  div_le_div_of_nonneg_right (hmono h) (Finset.sum_nonneg fun j _ => E.exp_nonneg (row j))

end Exponential

end

end TurboServe.Lib
