import Mathlib

/-!
# Choosing by weight

A running sum of weights and the first element at which it reaches a draw. A uniform draw
picks each element with its share of the total weight.
-/

namespace TurboServe.Lib

open MeasureTheory Set

/-! ## §1  The choice -/

section Choice

variable {α K : Type*} [Field K] [LinearOrder K]

/-- The first element at which the running weight reaches the draw, else the last. -/
def pickBy (w : α → K) (draw : K) : K → α → List α → α
  | _, a, [] => a
  | upto, a, b :: rest =>
      if draw ≤ upto + w a then a else pickBy w draw (upto + w a) b rest

theorem pickBy_mem (w : α → K) (draw upto : K) (a : α) (rest : List α) :
    pickBy w draw upto a rest ∈ a :: rest := by
  induction rest generalizing upto a with
  | nil => exact List.mem_singleton_self a
  | cons b rest ih =>
      rw [pickBy]
      split
      · exact List.mem_cons_self
      · exact List.mem_cons_of_mem _ (ih _ b)

end Choice

/-! ## §2  Its distribution -/

variable {α : Type*} {w : α → ℝ}

/-- A uniform draw from the unit interval. -/
noncomputable def unitDraw : Measure ℝ := volume.restrict (Ico 0 1)

instance : IsProbabilityMeasure unitDraw := by
  constructor
  rw [unitDraw, Measure.restrict_apply_univ, Real.volume_Ico, sub_zero, ENNReal.ofReal_one]

/-- By induction on the elements: the draws between the running sum and the total that
pick an element are as many as its weight. -/
theorem volume_pickBy (upto : ℝ) (a : α) (rest : List α) (hnd : (a :: rest).Nodup)
    (hw : ∀ b ∈ a :: rest, 0 ≤ w b) {c : α} (hc : c ∈ a :: rest) :
    volume ({d | pickBy w d upto a rest = c} ∩
        Ioc upto (upto + ((a :: rest).map w).sum)) = ENNReal.ofReal (w c) := by
  induction rest generalizing upto a with
  | nil =>
      obtain rfl := List.mem_singleton.mp hc
      have hall : {d | pickBy w d upto c [] = c} = univ := eq_univ_of_forall fun _ => rfl
      rw [hall, univ_inter, Real.volume_Ioc, List.map_singleton, List.sum_singleton,
        add_sub_cancel_left]
  | cons b rest ih =>
      have ha : 0 ≤ w a := hw a List.mem_cons_self
      have hrest : 0 ≤ ((b :: rest).map w).sum := by
        refine List.sum_nonneg fun x hx => ?_
        obtain ⟨b', hb', rfl⟩ := List.mem_map.mp hx
        exact hw b' (List.mem_cons_of_mem _ hb')
      obtain ⟨hnot, hnd'⟩ := List.nodup_cons.mp hnd
      rw [List.map_cons, List.sum_cons, ← add_assoc]
      rcases List.mem_cons.mp hc with rfl | hc
      · -- later elements are other ones
        have hset : {d | pickBy w d upto c (b :: rest) = c} ∩
            Ioc upto (upto + w c + ((b :: rest).map w).sum) = Ioc upto (upto + w c) := by
          ext d
          constructor
          · rintro ⟨hd, hlow, -⟩
            refine ⟨hlow, ?_⟩
            by_contra hlt
            rw [mem_ofPred_eq, pickBy, if_neg hlt] at hd
            exact hnot (hd ▸ pickBy_mem w d (upto + w c) b rest)
          · rintro ⟨hlow, hd⟩
            exact ⟨if_pos hd, hlow, hd.trans (le_add_of_nonneg_right hrest)⟩
        rw [hset, Real.volume_Ioc, add_sub_cancel_left]
      · have hne : a ≠ c := by
          rintro rfl
          exact hnot hc
        have hset : {d | pickBy w d upto a (b :: rest) = c} ∩
            Ioc upto (upto + w a + ((b :: rest).map w).sum) =
              {d | pickBy w d (upto + w a) b rest = c} ∩
                Ioc (upto + w a) (upto + w a + ((b :: rest).map w).sum) := by
          ext d
          by_cases hd : d ≤ upto + w a
          · constructor
            · rintro ⟨hpick, -⟩
              exact absurd ((if_pos hd).symm.trans hpick) hne
            · rintro ⟨-, hlow, -⟩
              exact absurd hlow (not_lt.mpr hd)
          · constructor
            · rintro ⟨hpick, -, hhigh⟩
              exact ⟨(if_neg hd).symm.trans hpick, not_le.mp hd, hhigh⟩
            · rintro ⟨hpick, hlow, hhigh⟩
              exact ⟨(if_neg hd).trans hpick, (le_add_of_nonneg_right ha).trans_lt hlow, hhigh⟩
        rw [hset]
        exact ih (upto + w a) b hnd' (fun b' hb' => hw b' (List.mem_cons_of_mem _ hb')) hc

/-- Each element has its share. -/
theorem unitDraw_pickBy (a : α) (rest : List α) (hnd : (a :: rest).Nodup)
    (hw : ∀ b ∈ a :: rest, 0 < w b) {c : α} (hc : c ∈ a :: rest) :
    unitDraw {x | pickBy w (x * ((a :: rest).map w).sum) 0 a rest = c} =
      ENNReal.ofReal (w c / ((a :: rest).map w).sum) := by
  set total := ((a :: rest).map w).sum with htotal
  have hpos : 0 < total := by
    rw [htotal, List.map_cons, List.sum_cons]
    refine add_pos_of_pos_of_nonneg (hw a List.mem_cons_self) (List.sum_nonneg fun x hx => ?_)
    obtain ⟨b, hb, rfl⟩ := List.mem_map.mp hx
    exact (hw b (List.mem_cons_of_mem _ hb)).le
  have hscale : {x | pickBy w (x * total) 0 a rest = c} ∩ Ico 0 1 =
      Set.preimage (· * total) ({d | pickBy w d 0 a rest = c} ∩ Ico 0 total) := by
    ext x
    have hlow : 0 ≤ x ↔ 0 ≤ x * total := (mul_nonneg_iff_of_pos_right hpos).symm
    have hhigh : x < 1 ↔ x * total < total := (mul_lt_iff_lt_one_left hpos).symm
    simp only [mem_inter_iff, mem_ofPred_eq, mem_Ico, mem_preimage, hlow, hhigh]
  have hends : volume ({d | pickBy w d 0 a rest = c} ∩ Ico 0 total) =
      volume ({d | pickBy w d 0 a rest = c} ∩ Ioc 0 total) :=
    measure_congr (ae_eq_set_inter (ae_eq_refl _) Ico_ae_eq_Ioc)
  have hvol := volume_pickBy 0 a rest hnd (fun b hb => (hw b hb).le) hc
  rw [zero_add] at hvol
  rw [unitDraw, Measure.restrict_apply' measurableSet_Ico, hscale,
    Real.volume_preimage_mul_right hpos.ne', hends, hvol, abs_of_pos (inv_pos.mpr hpos),
    ← ENNReal.ofReal_mul (inv_pos.mpr hpos).le, inv_mul_eq_div]

/-- The draws below a fraction. -/
theorem unitDraw_Iio {f : ℝ} (h1 : f ≤ 1) :
    unitDraw {x | x < f} = ENNReal.ofReal f := by
  have hset : {x | x < f} ∩ Ico 0 1 = Ico 0 f := by
    ext x
    constructor
    · rintro ⟨hx, hlow, -⟩
      exact ⟨hlow, hx⟩
    · rintro ⟨hlow, hx⟩
      exact ⟨hx, hlow, lt_of_lt_of_le hx h1⟩
  rw [unitDraw, Measure.restrict_apply' measurableSet_Ico, hset, Real.volume_Ico, sub_zero]

/-- And the others. -/
theorem unitDraw_not_Iio {f : ℝ} (h0 : 0 ≤ f) :
    unitDraw {x | ¬ x < f} = ENNReal.ofReal (1 - f) := by
  have hset : {x | ¬ x < f} ∩ Ico 0 1 = Ico f 1 := by
    ext x
    constructor
    · rintro ⟨hx, -, hhigh⟩
      exact ⟨not_lt.mp hx, hhigh⟩
    · rintro ⟨hx, hhigh⟩
      exact ⟨not_lt.mpr hx, h0.trans hx, hhigh⟩
  rw [unitDraw, Measure.restrict_apply' measurableSet_Ico, hset, Real.volume_Ico]

end TurboServe.Lib
