import Mathlib

/-!
# Transition systems

Reachable states, invariants, and loops: what a decreasing measure ends, and
what goes on for ever.
-/

namespace TurboServe.Lib

/-- Initial states and a step relation. -/
structure TransitionSystem (σ : Type*) where
  init : σ → Prop
  step : σ → σ → Prop

namespace TransitionSystem

variable {σ : Type*} (T : TransitionSystem σ)

inductive Reachable : σ → Prop where
  | init {s : σ} (h : T.init s) : Reachable s
  | step {s s' : σ} (h : Reachable s) (hs : T.step s s') : Reachable s'

/-- Every step keeps `I` on reachable states. -/
structure Invariant (I : σ → Prop) : Prop where
  init : ∀ s, T.init s → I s
  step : ∀ s s', T.Reachable s → I s → T.step s s' → I s'

variable {T}

theorem Invariant.reachable {I : σ → Prop} (hI : T.Invariant I) {s : σ}
    (h : T.Reachable s) : I s := by
  induction h with
  | init h => exact hI.init _ h
  | step h hs ih => exact hI.step _ _ h ih hs

/-- A run that is given: `next` takes steps of the system only. -/
theorem Reachable.foldlM {α : Type*} {next : σ → α → Option σ}
    (hnext : ∀ {s a s'}, next s a = some s' → T.step s s') {as : List α} {s s' : σ}
    (h : T.Reachable s) (has : as.foldlM next s = some s') : T.Reachable s' := by
  induction as generalizing s with
  | nil =>
      cases has
      exact h
  | cons a as ih =>
      obtain ⟨s₁, hone, hrest⟩ := Option.bind_eq_some_iff.mp has
      exact ih (h.step (hnext hone)) hrest

end TransitionSystem

/-! ## Loops -/

section Loop

variable {σ ε : Type*} (go : σ → Bool) (step : ℕ → σ → Except ε σ)

/-- `n` rounds of `while go: s = step(s)`, the first of them round `k`. -/
def loopFrom (k : ℕ) (s : σ) : ℕ → Except ε σ
  | 0 => .ok s
  | n + 1 =>
      if go s then
        match step k s with
        | .ok s' => loopFrom (k + 1) s' n
        | .error e => .error e
      else .ok s

variable {go step}

theorem loopFrom_succ {k n : ℕ} {s s' : σ} (hgo : go s = true)
    (hs : step k s = .ok s') :
    loopFrom go step k s (n + 1) = loopFrom go step (k + 1) s' n := by
  simp only [loopFrom, hgo, hs, if_true]

/-- A loop ends when every round keeps `I` and makes the measure smaller. `G` is
what each round may assume of the state it starts in. -/
theorem loop_ends {α : Type*} [Preorder α] [WellFoundedLT α] (μ : σ → α)
    {I G : σ → Prop}
    (hstep : ∀ k s, I s → G s → go s = true →
      ∃ s', step k s = .ok s' ∧ I s' ∧ μ s' < μ s)
    {k : ℕ} {s : σ} (h : I s)
    (hG : ∀ n s', loopFrom go step k s n = .ok s' → go s' = true → G s') :
    ∃ n s', loopFrom go step k s n = .ok s' ∧ go s' = false ∧ I s' := by
  induction hm : μ s using WellFoundedLT.induction generalizing k s with
  | ind a ih =>
      subst hm
      cases hgo : go s with
      | false => exact ⟨0, s, rfl, hgo, h⟩
      | true =>
          obtain ⟨s₁, hs₁, h₁, hlt⟩ := hstep k s h (hG 0 s rfl hgo) hgo
          obtain ⟨n, s', hn, hend⟩ := ih _ hlt h₁ (fun n s' hn => hG (n + 1) s' (by
            rw [loopFrom_succ hgo hs₁]
            exact hn)) rfl
          exact ⟨n + 1, s', (loopFrom_succ hgo hs₁).trans hn, hend⟩

/-- A loop whose every round keeps a state it does not end in never ends. -/
theorem loop_goes_on {I : σ → Prop}
    (hstep : ∀ k s, I s → go s = true ∧ ∃ s', step k s = .ok s' ∧ I s')
    {k : ℕ} {s : σ} (h : I s) (n : ℕ) :
    ∃ s', loopFrom go step k s n = .ok s' ∧ I s' := by
  induction n generalizing k s with
  | zero => exact ⟨s, rfl, h⟩
  | succ n ih =>
      obtain ⟨hgo, s₁, hs₁, h₁⟩ := hstep k s h
      obtain ⟨s', hn, h'⟩ := ih (k := k + 1) h₁
      exact ⟨s', (loopFrom_succ hgo hs₁).trans hn, h'⟩

/-- What every round keeps holds after any number of them. -/
theorem loopFrom_keeps {I : σ → Prop}
    (hstep : ∀ k s s', I s → go s = true → step k s = .ok s' → I s')
    {k n : ℕ} {s s' : σ} (h : I s) (hn : loopFrom go step k s n = .ok s') : I s' := by
  induction n generalizing k s with
  | zero =>
      cases hn
      exact h
  | succ n ih =>
      simp only [loopFrom] at hn
      split at hn
      · next hgo =>
          split at hn
          · next s₁ hs₁ => exact ih (hstep k s s₁ h hgo hs₁) hn
          · cases hn
      · cases hn
        exact h

/-- Rounds compose. -/
theorem loopFrom_add {k m n : ℕ} {s s' : σ} (h : loopFrom go step k s m = .ok s')
    (hgo : go s' = true) :
    loopFrom go step k s (m + n) = loopFrom go step (k + m) s' n := by
  induction m generalizing k s with
  | zero =>
      cases h
      rw [Nat.zero_add, Nat.add_zero]
  | succ m ih =>
      rw [Nat.succ_add]
      simp only [loopFrom] at h ⊢
      split at h
      · next hs =>
          split at h
          · next s₁ hs₁ =>
              rw [if_pos hs, ih h, Nat.add_assoc, Nat.add_comm 1 m]
          · cases h
      · next hs =>
          cases h
          exact absurd hgo hs

/-- A loop that has ended stays where it is. -/
theorem loopFrom_ended {k m n : ℕ} {s s' : σ} (h : loopFrom go step k s m = .ok s')
    (hgo : go s' = false) (hmn : m ≤ n) : loopFrom go step k s n = .ok s' := by
  induction m generalizing k s n with
  | zero =>
      cases h
      cases n with
      | zero => rfl
      | succ n => simp [loopFrom, hgo]
  | succ m ih =>
      obtain ⟨n, rfl⟩ : ∃ n', n = n' + 1 := ⟨n - 1, by omega⟩
      simp only [loopFrom] at h ⊢
      split at h
      · next hs =>
          split at h
          · next s₁ hs₁ =>
              rw [if_pos hs]
              exact ih h (by omega)
          · cases h
      · next hs =>
          cases h
          rw [if_neg hs]

end Loop

end TurboServe.Lib
