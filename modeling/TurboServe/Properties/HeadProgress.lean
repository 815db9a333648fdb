import TurboServe.System.Runs
import TurboServe.Invariants.Progress

/-!
# The head of the running list progresses

With chunked prefill on, the first running sequence that has uncomputed tokens is the
first one the step gives tokens to. Making room for it may send every other running
sequence back to the queue, so it gets room whenever the whole pool could hold it;
once it is in the batch nothing in the step can preempt it.
-/

namespace TurboServe.Core

variable {D W : Type} [BlockDigest D] [DecidableEq D] [VirtualTime W]
variable {s s' : Scheduler D W} {acc : StepAcc} {r : SeqId}

/-! ## §1  Who comes first -/

/-- The first running sequence with uncomputed tokens. -/
def Scheduler.headWithWork (s : Scheduler D W) : Option SeqId :=
  s.running.find? fun i => decide (0 < (s.seqs i).numUncomputedTokens)

/-- The pool, with every other running sequence evicted, could hold what `r` would
have computed after this step. -/
def Scheduler.PoolHolds (s : Scheduler D W) (r : SeqId) : Prop :=
  ((s.seqs r).numComputedTokens +
      (s.seqs r).numNewTokensToCompute s.config.maxNumBatchedTokens) ⌈/⌉
    s.blockManager.blockSize ≤ s.blockManager.allocator.numBlocks

instance (s : Scheduler D W) (r : SeqId) : Decidable (s.PoolHolds r) :=
  inferInstanceAs (Decidable (_ ≤ _))

omit [BlockDigest D] [DecidableEq D] in
theorem headWithWork_eq_some (h : s.headWithWork = some r) :
    0 < (s.seqs r).numUncomputedTokens ∧ ∃ pre rest, s.running = pre ++ r :: rest ∧
      ∀ j ∈ pre, (s.seqs j).numUncomputedTokens = 0 := by
  obtain ⟨hpos, pre, rest, hrun, hpre⟩ := List.find?_eq_some_iff_append.mp h
  refine ⟨of_decide_eq_true hpos, pre, rest, hrun, fun j hj => ?_⟩
  have := hpre j hj
  simp only [Bool.not_eq_true', decide_eq_false_iff_not, not_lt, Nat.le_zero] at this
  exact this

/-- Sequences with nothing left to compute are passed over. -/
theorem scheduleRunning_skip (pre rest : List SeqId)
    (hbudget : acc.budget.exhausted = false)
    (hpre : ∀ j ∈ pre, (s.seqs j).numUncomputedTokens = 0) :
    s.scheduleRunning acc (pre ++ rest) = s.scheduleRunning acc rest := by
  induction pre with
  | nil => rfl
  | cons i pre ih =>
      have hzero : (s.seqs i).numNewTokensToCompute acc.budget.tokens = 0 := by
        have hle := (numNew_le (s.seqs i) acc.budget.tokens).2
        rw [hpre i List.mem_cons_self] at hle
        exact Nat.le_zero.mp hle
      have hmay : s.mayRun (s.seqs i) 0 = false := by
        rw [Scheduler.mayRun, decide_eq_false_iff_not]
        rintro ⟨hpos, -⟩
        exact Nat.lt_irrefl 0 hpos
      rw [List.cons_append, Scheduler.scheduleRunning, hbudget]
      simp only [hzero, hmay, Bool.false_eq_true, if_false, if_true, ite_self]
      exact ih fun j hj => hpre j (List.mem_cons_of_mem _ hj)

/-! ## §2  It is scheduled -/

/-- A sequence the pool can hold gets its tokens when nothing is scheduled yet. -/
theorem scheduleRunning_grants {rest : List SeqId} (h : StepInv s acc)
    (hids : acc.scheduledIds = []) (hbudget : acc.budget.exhausted = false)
    (hr : r ∈ s.running) (hnd : (r :: rest).Nodup)
    (hrest : ∀ j ∈ rest, j ∈ s.running)
    (hmay : s.mayRun (s.seqs r)
      ((s.seqs r).numNewTokensToCompute acc.budget.tokens) = true)
    (hfits : ((s.seqs r).numComputedTokens +
        (s.seqs r).numNewTokensToCompute acc.budget.tokens) ⌈/⌉
      s.blockManager.blockSize ≤ s.blockManager.allocator.numBlocks) :
    ∃ y, s.scheduleRunning acc (r :: rest) = .ok y ∧ Micros (s, acc) y ∧
      r ∈ y.2.scheduledIds := by
  obtain ⟨hnotin, hndrest⟩ := List.nodup_cons.mp hnd
  have hnew : r ∉ acc.scheduledIds := by simp [hids]
  have hn := computed_add_numNew_le (h.inv.computed_le hr) acc.budget.tokens
  obtain ⟨room, s₁, acc₁, hroom, hmade⟩ :=
    makeRoom_spec (s.running.length + 1) h hr hnew (Nat.le_succ _)
  have hgranted := hmade.granted_of_fits h hids hn hfits
  subst hgranted
  obtain ⟨y₁, hemit, hrun₁, hsched, hrunning, -⟩ :=
    emit_after_room h hnew hbudget hmay hmade
  have hy₁ : StepInv y₁.1 y₁.2 := Micros.stepInv hrun₁ h
  obtain ⟨y, hok, hmic⟩ := scheduleRunning_spec rest hy₁ hndrest
    (fun j hj => hrun₁.queued (List.mem_append_left _ (hrest j hj)))
    (fun j hj => by
      rw [hsched, hids, List.mem_singleton]
      rintro rfl
      exact hnotin hj)
  have hmem : r ∈ y₁.2.scheduledIds := by
    rw [hsched]
    exact List.mem_cons_self
  refine ⟨y, ?_, hrun₁.trans hmic, (Micros.keeps hmic hy₁ hmem).1⟩
  rw [scheduleRunning_cons rest hbudget (h.inv.running_status r hr) hmay, hroom]
  simpa [bind, Except.bind, hemit] using hok

omit [DecidableEq D] in
/-- What is in the output's preempted list was preempted in this step. -/
theorem Micros.preempted_sub {x y : Scheduler D W × StepAcc} (hm : Micros x y)
    (hx : ∀ i ∈ x.2.preempted, i ∈ x.2.preemptedNow) :
    ∀ i ∈ y.2.preempted, i ∈ y.2.preemptedNow := by
  induction hm with
  | refl => exact hx
  | tail _ hstep ih =>
      cases hstep with
      | preempt v =>
          intro i hi
          rcases List.mem_append.mp hi with hi | hi
          · exact List.mem_cons_of_mem _ (ih i hi)
          · rw [List.mem_singleton.mp hi]
            exact List.mem_cons_self
      | enter => exact ih
      | grow => exact ih
      | rollback => exact ih

/-- **The head of the running list always progresses.** -/
theorem head_progresses (h : Reachable s) (hchunked : s.config.enableChunkedPrefill = true)
    (hhead : s.headWithWork = some r) (hfits : s.PoolHolds r) :
    ∃ out s', s.schedule = .ok (out, s') ∧
      (∃ item ∈ out.scheduled, item.seq = r ∧ 1 ≤ item.numNewTokens) ∧
      r ∉ out.preempted := by
  have hinv := h.inv
  obtain ⟨hpos, pre, rest, hrun, hpre⟩ := headWithWork_eq_some hhead
  obtain ⟨m₀, hpub, hall⟩ := publishAll_spec s.running hinv fun _ => id
  have h₀ : StepInv { s with blockManager := m₀ } (StepAcc.init s.config) :=
    StepInv.init (hall.inv hinv)
  have hr : r ∈ s.running := by
    rw [hrun]
    exact List.mem_append_right _ List.mem_cons_self
  have hnd : (r :: rest).Nodup := by
    have := hinv.running_nodup
    rw [hrun] at this
    exact this.of_append_right
  have hmax := s.config.one_le_maxNumBatchedTokens
  have hnum : (s.seqs r).numNewTokensToCompute s.config.maxNumBatchedTokens =
      min s.config.maxNumBatchedTokens (s.seqs r).numUncomputedTokens := by
    rw [Sequence.numNewTokensToCompute, if_neg]
    rintro (hfin | hzero)
    · rw [hinv.not_finished (mem_inFlight.mpr (Or.inl hr))] at hfin
      cases hfin
    · omega
  have hmay : ({ s with blockManager := m₀ } : Scheduler D W).mayRun (s.seqs r)
      ((s.seqs r).numNewTokensToCompute s.config.maxNumBatchedTokens) = true := by
    rw [hnum, Scheduler.mayRun, decide_eq_true_eq]
    exact ⟨by omega, Or.inl hchunked⟩
  have hfits₀ : ((s.seqs r).numComputedTokens +
      (s.seqs r).numNewTokensToCompute s.config.maxNumBatchedTokens) ⌈/⌉ m₀.blockSize ≤
        m₀.allocator.numBlocks := by
    rw [hall.blockSize_eq, hall.shape.numBlocks_eq]
    exact hfits
  obtain ⟨y, hok, hmic, hmem⟩ := scheduleRunning_grants h₀ rfl
    (init_not_exhausted s.config) hr hnd
    (fun j hj => by
      show j ∈ s.running
      rw [hrun]
      exact List.mem_append_right _ (List.mem_cons_of_mem _ hj)) hmay hfits₀
  have hy : StepInv y.1 y.2 := Micros.stepInv hmic h₀
  obtain ⟨z, hplaced, hadmit⟩ := scheduleAdmissions_spec y.2.budget.seqs hy le_rfl
  have hz : StepInv z.1 z.2 := Micros.stepInv hadmit hy
  have hmem' : r ∈ z.2.scheduledIds := (Micros.keeps hadmit hy hmem).1
  refine ⟨z.2.toOutput, z.1.counted z.2.toOutput, ?_, ?_, ?_⟩
  · have hskip := scheduleRunning_skip (s := { s with blockManager := m₀ }) pre (r :: rest)
      (init_not_exhausted s.config) hpre
    rw [hok, ← hrun] at hskip
    simp only [Scheduler.schedule, hpub, bind, Except.bind]
    rw [show ({ s with blockManager := m₀ } : Scheduler D W).running = s.running from rfl,
      hskip]
    simp only [hplaced]
    rfl
  · obtain ⟨item, hitem, hseq⟩ := List.mem_map.mp (hz.ids.mem_iff.mpr hmem')
    exact ⟨item, hitem, hseq, item.numNewTokens_pos⟩
  · -- a preempted sequence waits in the preempted queue, a scheduled one runs
    intro hpreempted
    have hnow := Micros.preempted_sub (hmic.trans hadmit) (by simp [StepAcc.init]) r
      hpreempted
    exact hz.inv.not_preempted (hz.scheduled_running hmem') (hz.preemptedNow r hnow)

/-- In a pool of four one-token blocks, the older of two running sequences takes what
the younger holds. -/
theorem head_progresses_small :
    ∃ s : Scheduler FreeDigest ℚ, s.headWithWork = some 0 ∧
      ∃ out s', s.schedule = .ok (out, s') ∧
        (∃ item ∈ out.scheduled, item.seq = 0 ∧ 1 ≤ item.numNewTokens) ∧
        0 ∉ out.preempted := by
  have h : observe FreeDigest smallConfig 4 smallOps
      (fun s _ _ => (s.headWithWork, s.config.enableChunkedPrefill,
        decide (s.PoolHolds 0))) = some (some 0, true, true) := by decide
  obtain ⟨s, out, s', hs, -, hrun⟩ := observe_eq_some h
  obtain ⟨hhead, hrest⟩ := Prod.mk.inj hrun
  obtain ⟨hchunked, hfits⟩ := Prod.mk.inj hrest
  exact ⟨s, hhead, head_progresses hs hchunked hhead (of_decide_eq_true hfits)⟩

end TurboServe.Core
