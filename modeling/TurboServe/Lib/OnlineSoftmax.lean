import Mathlib.Data.Finset.Lattice.Fold
import TurboServe.Lib.Exponential

/-!
# Online softmax

A weighted mean with exponential weights, accumulated block after block relative to the
maximum so far; scores may be `-∞`. What a running state stands for does not depend on the maxima
it went through.
-/

namespace TurboServe.Lib

section

variable {K : Type*} [Field K] [LinearOrder K]

/-- The maximum so far, and the denominator and the accumulators relative to it. -/
structure Running (K ι : Type*) where
  max : WithBot K
  denominator : K
  accumulator : ι → K

namespace Running

variable {ι : Type*}

def initial : Running K ι := ⟨⊥, 0, fun _ => 0⟩

/-- Absorb `n` more scores and values. While every score is `-∞` there is no maximum to
shift by, and the result is not a number. -/
def absorb (E : Exponential K) (n : ℕ) (scores : ℕ → WithBot K) (values : ℕ → ι → K)
    (r : Running K ι) : Option (Running K ι) :=
  match r.max ⊔ (Finset.range n).sup scores with
  | ⊥ => none
  | (m : K) =>
      let alpha := E.exp (shift r.max m)
      let p i := E.exp (shift (scores i) m)
      some ⟨m, r.denominator * alpha + ∑ i ∈ Finset.range n, p i,
        fun d => r.accumulator d * alpha + ∑ i ∈ Finset.range n, p i * values i d⟩

/-- The quotient, a number unless the denominator vanishes. -/
def quotient (r : Running K ι) (d : ι) : Option K :=
  if r.denominator = 0 then none else some (r.accumulator d / r.denominator)

/-- The state stands for the sums `L` and `T` of the weights and the weighted values. -/
structure Tracks (E : Exponential K) (r : Running K ι) (L : K) (T : ι → K) : Prop where
  denominator : r.denominator * E.exp r.max = L
  accumulator : ∀ d, r.accumulator d * E.exp r.max = T d

variable {E : Exponential K} {r : Running K ι} {L : K} {T : ι → K}

theorem tracks_initial : Tracks E (initial : Running K ι) 0 fun _ => 0 :=
  ⟨zero_mul _, fun _ => zero_mul _⟩

/-- Absorbing adds the new weights, whatever the maximum was and becomes. -/
theorem Tracks.absorb (h : Tracks E r L T) (values : ℕ → ι → K) {n : ℕ}
    {scores : ℕ → WithBot K} (hfinite : ∃ i < n, scores i ≠ ⊥) :
    ∃ r', r.absorb E n scores values = some r' ∧ r'.max ≠ ⊥ ∧
      Tracks E r' (L + ∑ i ∈ Finset.range n, E.exp (scores i))
        fun d => T d + ∑ i ∈ Finset.range n, E.exp (scores i) * values i d := by
  obtain ⟨i, hi, hscore⟩ := hfinite
  have hmax : r.max ⊔ (Finset.range n).sup scores ≠ ⊥ := by
    intro hbot
    have hle := Finset.le_sup (f := scores) (Finset.mem_range.mpr hi)
    rw [(sup_eq_bot_iff.mp hbot).2] at hle
    exact hscore (le_bot_iff.mp hle)
  obtain ⟨m, hm⟩ := WithBot.ne_bot_iff_exists.mp hmax
  unfold Running.absorb
  rw [← hm]
  refine ⟨_, rfl, WithBot.coe_ne_bot, ?_, fun d => ?_⟩
  · rw [add_mul, mul_assoc, E.exp_shift_mul, h.denominator, Finset.sum_mul]
    refine congrArg (L + ·) (Finset.sum_congr rfl fun i _ => ?_)
    exact E.exp_shift_mul _ _
  · rw [add_mul, mul_assoc, E.exp_shift_mul, h.accumulator, Finset.sum_mul]
    refine congrArg (T d + ·) (Finset.sum_congr rfl fun i _ => ?_)
    rw [mul_right_comm, E.exp_shift_mul]

/-- The quotient of a state that has seen a score is the quotient of the sums. -/
theorem Tracks.quotient (h : Tracks E r L T) (hmax : r.max ≠ ⊥) (hL : L ≠ 0) (d : ι) :
    r.quotient d = some (T d / L) := by
  have hexp := E.exp_ne_zero hmax
  have hden : r.denominator ≠ 0 := by
    intro hzero
    rw [← h.denominator, hzero, zero_mul] at hL
    exact hL rfl
  unfold Running.quotient
  rw [if_neg hden, ← h.accumulator d, ← h.denominator, mul_div_mul_right _ _ hexp]

/-- Absorbing block after block, each with some finite score, adds the weights of all. -/
theorem tracks_blocks (E : Exponential K) (n : ℕ) (scores : ℕ → ℕ → WithBot K)
    (values : ℕ → ℕ → ι → K) {c : ℕ} (hc : 1 ≤ c)
    (hfinite : ∀ b < c, ∃ i < n, scores b i ≠ ⊥) :
    ∃ r, (List.range c).foldlM (fun r b => absorb E n (scores b) (values b) r) initial =
        some r ∧ r.max ≠ ⊥ ∧
      Tracks E r ((List.range c).map fun b => ∑ i ∈ Finset.range n, E.exp (scores b i)).sum
        fun d => ((List.range c).map fun b =>
          ∑ i ∈ Finset.range n, E.exp (scores b i) * values b i d).sum := by
  induction c with
  | zero => omega
  | succ c ih =>
      -- the state the last block finds, and what it stands for
      have hbefore : ∃ r : Running K ι,
          (List.range c).foldlM (fun r b => absorb E n (scores b) (values b) r) initial =
            some r ∧
          Tracks E r ((List.range c).map fun b => ∑ i ∈ Finset.range n, E.exp (scores b i)).sum
            fun d => ((List.range c).map fun b =>
              ∑ i ∈ Finset.range n, E.exp (scores b i) * values b i d).sum := by
        cases c with
        | zero => exact ⟨initial, rfl, tracks_initial⟩
        | succ c =>
            obtain ⟨r, hr, -, htracks⟩ := ih (Nat.succ_pos c) fun b hb =>
              hfinite b (Nat.lt_succ_of_lt hb)
            exact ⟨r, hr, htracks⟩
      obtain ⟨r, hr, htracks⟩ := hbefore
      obtain ⟨r', hr', hmax, htracks'⟩ :=
        htracks.absorb (values c) (hfinite c (Nat.lt_succ_self c))
      refine ⟨r', ?_, hmax, ?_⟩
      · rw [List.range_succ, List.foldlM_append, hr]
        exact congrArg (· >>= pure) hr'
      · simpa only [List.range_succ, List.map_append, List.sum_append, List.map_singleton,
          List.sum_singleton] using htracks'

end Running

end

end TurboServe.Lib
