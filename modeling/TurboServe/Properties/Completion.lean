import TurboServe.System.Completion

/-!
# The loop over an accepted workload

Every accepted workload completes as long as the sequence each round serves
first fits. `add_sequence` checks this for the prompt only; a sequence that has
outgrown the pool, or the budget of a step without chunked prefill, is queued
for ever once it is preempted.
-/

namespace TurboServe.Core

variable {D W : Type} [BlockDigest D] [DecidableEq D] [VirtualTime W]

/-! ## §1  Completion -/

/-- Whatever is sampled, the loop over an accepted workload ends with every
request finished, when each of its rounds starts in a state that fits. -/
theorem workload_completes {s₀ : Scheduler D W} (h₀ : Initial s₀)
    (rs : List Scheduler.Request) (eos : Option TokenId)
    (samples : ℕ → Scheduler D W → ScheduledSeq → TokenId)
    (hfits : ∀ n s, (s₀.addAll rs).drive eos samples n = .ok s →
      s.hasUnfinished = true → s.Fits) :
    ∃ n s, (s₀.addAll rs).drive eos samples n = .ok s ∧ s.hasUnfinished = false ∧
      ∀ i ∈ (s₀.addAll rs).inFlight, (s.seqs i).status = .finished := by
  have hround : ∀ (k : ℕ) (s : Scheduler D W),
      (Going s ∧ ∀ i ∈ (s₀.addAll rs).inFlight,
        i ∈ s.inFlight ∨ (s.seqs i).status = .finished) →
      s.Fits → s.hasUnfinished = true →
      ∃ s', s.step eos (samples k) = .ok s' ∧
        (Going s' ∧ ∀ i ∈ (s₀.addAll rs).inFlight,
          i ∈ s'.inFlight ∨ (s'.seqs i).status = .finished) ∧
        workLeft s' < workLeft s := by
    rintro k s ⟨h, hkept⟩ hfit hgo
    obtain ⟨s', hok, hgoing, hlt⟩ := round_lt h hfit hgo eos (samples k)
    refine ⟨s', hok, ⟨hgoing, fun i hi => ?_⟩, hlt⟩
    obtain ⟨out, s₁, s'', hs, hok', hback⟩ := step_spec h.inv eos (samples k)
    rw [hok] at hok'
    cases hok'
    exact round_keeps h.inv hs hback (hkept i hi)
  obtain ⟨n, s, hn, hend, h, hkept⟩ := Lib.loop_ends workLeft hround (k := 0)
    ⟨addAll_going h₀ rs, fun i hi => Or.inl hi⟩ hfits
  refine ⟨n, s, hn, hend, fun i hi => (hkept i hi).resolve_left fun hin => ?_⟩
  have hmem : ((s.seqs i).requestId, i) ∈ s.byRequest := h.inv.requests.mem_iff.mpr
    (List.mem_map.mpr ⟨i, hin, rfl⟩)
  cases hreq : s.byRequest with
  | nil =>
      rw [hreq] at hmem
      cases hmem
  | cons p rest => simp [Scheduler.hasUnfinished, hreq] at hend

/-- One round from a state that does not fit, and the loop never ends. -/
theorem workload_hangs [CollisionFree D] {s₀ : Scheduler D W} (h₀ : Initial s₀)
    (rs : List Scheduler.Request) (eos : Option TokenId)
    (samples : ℕ → Scheduler D W → ScheduledSeq → TokenId) {n : ℕ} {s : Scheduler D W}
    (hn : (s₀.addAll rs).drive eos samples n = .ok s) (hgo : s.hasUnfinished = true)
    (hunfit : ¬ s.Fits) :
    ¬ ∃ m s', (s₀.addAll rs).drive eos samples m = .ok s' ∧ s'.hasUnfinished = false := by
  rintro ⟨m, s', hm, hend⟩
  have hgoing : Going s := by
    refine (Lib.loopFrom_keeps (I := Going) (fun k s s' h _ hok => ?_) (addAll_going h₀ rs)
      hn)
    obtain ⟨out, s₁, s'', hs, hok', hback⟩ := step_spec h.inv eos (samples k)
    rw [hok] at hok'
    cases hok'
    exact ⟨hback.inv, round_live h hs hback, round_short h hs hback⟩
  obtain ⟨s'', hlater, hgo''⟩ := never_ends eos samples (k := 0 + n) hgoing
    hgo hunfit m
  have hsame : (s₀.addAll rs).drive eos samples (n + m) = .ok s' :=
    Lib.loopFrom_ended hm hend (Nat.le_add_left m n)
  rw [Scheduler.drive, Lib.loopFrom_add hn hgo, hlater] at hsame
  cases hsame
  rw [hgo''] at hend
  cases hend

/-! ## §2  Two workloads -/

/-- Blocks of one token, two sequences and two tokens a step, no prefix cache. -/
def oneTokenConfig : SchedulerConfig ℚ :=
  { maxNumSeqs := 2, maxNumBatchedTokens := 2, blockSize := 1, enablePrefixCaching := false
    one_le_maxNumSeqs := Nat.two_pos, one_le_maxNumBatchedTokens := Nat.two_pos
    one_le_blockSize := Nat.one_pos, blockSize_pow2 := Nat.and_zero 1
    blockSize_le_budget := Nat.two_pos }

/-- A prompt of one token that asks for three more. -/
def threeMore : Scheduler.Request :=
  { requestId := "a", promptTokenIds := [1]
    sampling := { maxTokens := 3, one_le_maxTokens := Nat.succ_pos 2 } }

/-- The loop over that request in a pool of `numBlocks` blocks. -/
def serveThree (numBlocks n : ℕ) : Except Fault (Scheduler FreeDigest ℚ) :=
  ((fresh FreeDigest oneTokenConfig numBlocks).addAll [threeMore]).drive none
    (fun _ _ _ => 7) n

/-- `Fits`, evaluated. -/
def Scheduler.fitsNow (s : Scheduler D W) : Bool :=
  match s.running with
  | i :: _ =>
      decide (((s.seqs i).numComputedTokens +
        (s.seqs i).numNewTokensToCompute s.config.maxNumBatchedTokens) ⌈/⌉
          s.blockManager.blockSize ≤ s.blockManager.allocator.numBlocks)
  | [] =>
      match s.nextQueued with
      | .ok (some (_, i)) =>
          decide ((s.seqs i).numBlocksNeeded s.blockManager.blockSize ≤
              s.blockManager.allocator.numBlocks ∧
            (s.config.enableChunkedPrefill = true ∨
              (s.seqs i).numTokens - s.blockManager.cachedTokens (s.seqs i) ≤
                s.config.maxNumBatchedTokens))
      | _ => true

omit [DecidableEq D] in
theorem fitsNow_iff (s : Scheduler D W) : s.fitsNow = true ↔ s.Fits := by
  cases hrun : s.running with
  | cons i rest => simp only [Scheduler.fitsNow, Scheduler.Fits, hrun, decide_eq_true_eq]
  | nil =>
      simp only [Scheduler.fitsNow, Scheduler.Fits, hrun]
      constructor
      · intro h b i hnext
        rw [hnext] at h
        exact of_decide_eq_true h
      · intro h
        split
        · next b i hnext => exact decide_eq_true (h b i hnext)
        · rfl

/-- In three blocks the request completes. -/
theorem workload_completes_three :
    ∃ n s, serveThree 3 n = .ok s ∧ s.hasUnfinished = false ∧
      ∀ i ∈ ((fresh FreeDigest oneTokenConfig 3).addAll [threeMore]).inFlight,
        (s.seqs i).status = .finished := by
  refine workload_completes (fresh_initial oneTokenConfig 3) [threeMore] none
    (fun _ _ _ => 7) fun n s hn hgo => ?_
  have hdone : ((serveThree 3 3).toOption.map fun s => s.hasUnfinished) = some false := by
    decide +kernel
  obtain ⟨s', hs', hend⟩ := Option.map_eq_some_iff.mp hdone
  have hok : serveThree 3 3 = .ok s' := by
    cases hcase : serveThree 3 3 with
    | error e => simp [hcase, Except.toOption] at hs'
    | ok t =>
        rw [hcase] at hs'
        injection hs' with heq
        rw [heq]
  have hearly : ∀ k < 3, ((serveThree 3 k).toOption.map fun s => s.fitsNow) = some true := by
    decide +kernel
  by_cases hlt : n < 3
  · have hfit := hearly n hlt
    rw [show serveThree 3 n = .ok s from hn] at hfit
    exact (fitsNow_iff s).mp (Option.some.inj hfit)
  · have hlast : serveThree 3 n = .ok s' :=
      Lib.loopFrom_ended hok hend (not_lt.mp hlt)
    rw [show serveThree 3 n = .ok s from hn] at hlast
    injection hlast with heq
    rw [heq, hend] at hgo
    cases hgo

/-- In one block the same request is accepted and never completes: its second
token needs a second block, so it preempts itself and is never admitted again. -/
theorem workload_stuck :
    ((fresh FreeDigest oneTokenConfig 1).addAll [threeMore]).inFlight = [0] ∧
      ¬ ∃ m s, serveThree 1 m = .ok s ∧ s.hasUnfinished = false := by
  refine ⟨by decide +kernel, ?_⟩
  have hfirst : ((serveThree 1 1).toOption.map fun s => (s.hasUnfinished, s.fitsNow)) =
      some (true, false) := by decide +kernel
  obtain ⟨s, hs, hobs⟩ := Option.map_eq_some_iff.mp hfirst
  obtain ⟨hgo, hfit⟩ := Prod.mk.inj hobs
  have hok : serveThree 1 1 = .ok s := by
    cases hcase : serveThree 1 1 with
    | error e => simp [hcase, Except.toOption] at hs
    | ok t =>
        rw [hcase] at hs
        injection hs with heq
        rw [heq]
  refine workload_hangs (fresh_initial oneTokenConfig 1) [threeMore] none (fun _ _ _ => 7)
    hok hgo fun hfits => ?_
  rw [(fitsNow_iff s).mpr hfits] at hfit
  cases hfit

end TurboServe.Core
