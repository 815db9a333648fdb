import Mathlib

/-!
# Token buckets in the abstract

A level that refills at a constant rate up to a capacity, on a clock that never goes
back, and from which whole units are taken. However the takers come, a window of the
clock sees at most the capacity and what flows in during the window.
-/

namespace TurboServe.Lib

variable {K : Type*} [Field K] [LinearOrder K]

structure Flow (K : Type*) where
  level : K
  clock : K

/-- The level at `t`. A time that has passed changes nothing. -/
def Flow.advance (capacity rate : K) (f : Flow K) (t : K) : Flow K :=
  if f.clock < t then ⟨min capacity (f.level + (t - f.clock) * rate), t⟩ else f

/-- The clock at each unit taken. A taker comes at a time and takes a unit if there is one
and it still wants it. -/
def takes (capacity rate : K) : Flow K → List (K × Bool) → List K
  | _, [] => []
  | f, (t, wanted) :: rest =>
      let g := f.advance capacity rate t
      if wanted = true ∧ 1 ≤ g.level then
        g.clock :: takes capacity rate ⟨g.level - 1, g.clock⟩ rest
      else takes capacity rate g rest

variable {capacity rate : K} {f : Flow K}

theorem takes_cons_of_wanted {t : K} (h : 1 ≤ (f.advance capacity rate t).level)
    (rest : List (K × Bool)) :
    takes capacity rate f ((t, true) :: rest) = (f.advance capacity rate t).clock ::
      takes capacity rate
        ⟨(f.advance capacity rate t).level - 1, (f.advance capacity rate t).clock⟩ rest := by
  rw [takes]
  exact if_pos ⟨rfl, h⟩

theorem takes_cons_of_unwanted (t : K) (rest : List (K × Bool)) :
    takes capacity rate f ((t, false) :: rest) =
      takes capacity rate (f.advance capacity rate t) rest := by
  rw [takes]
  exact if_neg fun h => Bool.false_ne_true h.1

theorem Flow.clock_advance (t : K) :
    (f.advance capacity rate t).clock = max f.clock t := by
  unfold Flow.advance
  split
  · next h => exact (max_eq_right h.le).symm
  · next h => exact (max_eq_left (not_lt.mp h)).symm

theorem Flow.level_advance_le (h : f.level ≤ capacity) (t : K) :
    (f.advance capacity rate t).level ≤ capacity := by
  unfold Flow.advance
  split
  · exact min_le_left _ _
  · exact h

/-- What flows in is at most the rate times the time that passed. -/
theorem Flow.level_advance_le_add (t : K) :
    (f.advance capacity rate t).level ≤
      f.level + ((f.advance capacity rate t).clock - f.clock) * rate := by
  unfold Flow.advance
  split
  · exact min_le_right _ _
  · simp

variable [IsStrictOrderedRing K]

theorem Flow.level_advance_nonneg (hrate : 0 ≤ rate) (hcap : 0 ≤ capacity)
    (h : 0 ≤ f.level) (t : K) : 0 ≤ (f.advance capacity rate t).level := by
  unfold Flow.advance
  split
  · next hlt =>
      have hin : 0 ≤ (t - f.clock) * rate := mul_nonneg (sub_nonneg.mpr hlt.le) hrate
      exact le_min hcap (add_nonneg h hin)
  · exact h

omit [IsStrictOrderedRing K] in
/-- Once the clock has passed a window, nothing is taken in it. -/
theorem countP_takes_eq_zero {b : K} (a : K) (events : List (K × Bool))
    (h : b < f.clock) :
    (takes capacity rate f events).countP (fun u => a ≤ u ∧ u ≤ b) = 0 := by
  induction events generalizing f with
  | nil => rfl
  | cons e rest ih =>
      obtain ⟨t, wanted⟩ := e
      have hclock : b < (f.advance capacity rate t).clock := by
        rw [Flow.clock_advance]
        exact lt_max_of_lt_left h
      rw [takes]
      split
      · have hrest := @ih ⟨(f.advance capacity rate t).level - 1, _⟩ hclock
        rw [List.countP_cons_of_neg (by simp [hclock]), hrest]
      · exact ih hclock

/-- How much can still be taken in the window `[a, b]`. -/
def allowance (capacity rate a b : K) (f : Flow K) : K :=
  if b < f.clock then 0
  else if a ≤ f.clock then f.level + (b - f.clock) * rate
  else capacity + (b - a) * rate

/-- Letting time pass does not raise the allowance. -/
theorem allowance_advance (hrate : 0 ≤ rate) (hcap : f.level ≤ capacity)
    (h : 0 ≤ f.level) {a b : K} (hab : a ≤ b) (t : K) :
    allowance capacity rate a b (f.advance capacity rate t) ≤
      allowance capacity rate a b f := by
  set g := f.advance capacity rate t with hg
  have hclock : f.clock ≤ g.clock := by
    rw [hg, Flow.clock_advance]
    exact le_max_left _ _
  have hin : g.level ≤ f.level + (g.clock - f.clock) * rate :=
    Flow.level_advance_le_add t
  have hle : g.level ≤ capacity := Flow.level_advance_le hcap t
  have hcap0 : 0 ≤ capacity := h.trans hcap
  unfold allowance
  by_cases hgb : b < g.clock
  · rw [if_pos hgb]
    split
    · exact le_rfl
    · next hfb =>
        split
        · exact add_nonneg h (mul_nonneg (sub_nonneg.mpr (not_lt.mp hfb)) hrate)
        · exact add_nonneg hcap0 (mul_nonneg (sub_nonneg.mpr hab) hrate)
  · have hfb : ¬ b < f.clock := fun hlt => hgb (hlt.trans_le hclock)
    rw [if_neg hgb, if_neg hfb]
    by_cases hfa : a ≤ f.clock
    · rw [if_pos (hfa.trans hclock), if_pos hfa]
      calc g.level + (b - g.clock) * rate
          ≤ f.level + (g.clock - f.clock) * rate + (b - g.clock) * rate := by gcongr
        _ = f.level + (b - f.clock) * rate := by ring
    · rw [if_neg hfa]
      split
      · next hga => gcongr
      · exact le_rfl

/-- By induction on the takers: each unit lowers the allowance by one, if it is taken in
the window at all. -/
theorem countP_takes_le_allowance (hrate : 0 ≤ rate) (hcap : f.level ≤ capacity)
    (h : 0 ≤ f.level) {a b : K} (hab : a ≤ b) (events : List (K × Bool)) :
    ((takes capacity rate f events).countP (fun u => a ≤ u ∧ u ≤ b) : K) ≤
      allowance capacity rate a b f := by
  induction events generalizing f with
  | nil =>
      rw [takes, List.countP_nil, Nat.cast_zero, allowance]
      split
      · exact le_rfl
      · next hfb =>
          split
          · exact add_nonneg h (mul_nonneg (sub_nonneg.mpr (not_lt.mp hfb)) hrate)
          · exact add_nonneg (h.trans hcap) (mul_nonneg (sub_nonneg.mpr hab) hrate)
  | cons e rest ih =>
      obtain ⟨t, wanted⟩ := e
      refine le_trans ?_ (allowance_advance hrate hcap h hab t)
      have hle : (f.advance capacity rate t).level ≤ capacity :=
        Flow.level_advance_le hcap t
      have hnonneg : 0 ≤ (f.advance capacity rate t).level :=
        Flow.level_advance_nonneg hrate (h.trans hcap) h t
      rw [takes]
      generalize f.advance capacity rate t = g at hle hnonneg
      split
      · next hwant =>
          have hless : g.level - 1 ≤ capacity := by linarith [hwant.2]
          have hrest := @ih ⟨g.level - 1, g.clock⟩ hless (sub_nonneg.mpr hwant.2)
          by_cases hgb : b < g.clock
          · rw [List.countP_cons_of_neg (by simp [hgb]),
              countP_takes_eq_zero a rest (f := ⟨g.level - 1, g.clock⟩) hgb, allowance,
              if_pos hgb, Nat.cast_zero]
          · by_cases hga : a ≤ g.clock
            · rw [List.countP_cons_of_pos (by simp [hga, not_lt.mp hgb]), Nat.cast_add,
                Nat.cast_one]
              simp only [allowance, if_neg hgb, if_pos hga] at hrest ⊢
              linarith
            · rw [List.countP_cons_of_neg (by simp [hga])]
              simp only [allowance, if_neg hgb, if_neg hga] at hrest ⊢
              exact hrest
      · exact ih hle hnonneg

/-- A window of the clock sees at most the capacity and what flows in during it. -/
theorem countP_takes_le (hrate : 0 ≤ rate) (hcap : f.level ≤ capacity) (h : 0 ≤ f.level)
    {a d : K} (hd : 0 ≤ d) (events : List (K × Bool)) :
    ((takes capacity rate f events).countP (fun u => a ≤ u ∧ u ≤ a + d) : K) ≤
      capacity + rate * d := by
  have hab : a ≤ a + d := le_add_of_nonneg_right hd
  refine (countP_takes_le_allowance hrate hcap h hab events).trans ?_
  have hflow : 0 ≤ rate * d := mul_nonneg hrate hd
  unfold allowance
  split
  · exact add_nonneg (h.trans hcap) hflow
  · split
    · next ha =>
        have hless : (a + d - f.clock) * rate ≤ d * rate := by
          gcongr
          linarith
        linarith
    · rw [add_sub_cancel_left, mul_comm]

end TurboServe.Lib
