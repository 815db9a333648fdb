import TurboServe.Lib.Transition
import TurboServe.Invariants.Schedule

/-!
# Runs of the scheduler

The scheduler as a transition system: any order and number of its public
operations, from any constructed scheduler. `Inv` is an invariant of it.
-/

namespace TurboServe.Core

variable {D W : Type} [BlockDigest D] [DecidableEq D] [VirtualTime W]

/-! ## §1  Operations -/

/-- One call of the public interface. -/
inductive Op : Type where
  | addRequest (r : Scheduler.Request)
  | addSequence (r : Scheduler.Request) (output : List TokenId)
  | schedule
  | appendToken (i : SeqId) (tok : TokenId) (eos : Option TokenId)
  | abort (requestId : String)
  | finish (i : SeqId) (reason : FinishReason) (stopTokenId : Option TokenId)
  | reset

namespace Op

/-- `appendToken` and `finish` are for sequences in flight. -/
def admissible (s : Scheduler D W) : Op → Bool
  | .appendToken i _ _ => decide (i ∈ s.inFlight)
  | .finish i _ _ => decide (i ∈ s.inFlight)
  | _ => true

/-- What the call leaves behind. A request may be refused, which is an answer of
`addRequest`; `addSequence` hands over a sequence the caller built, outputs
included, under the counter's next identity. -/
def run (s : Scheduler D W) : Op → Except Fault (Scheduler D W)
  | .addRequest r => .ok (s.addRequest r).2
  | .addSequence r output => do
      let seq ← Sequence.create s.seqCounter r.requestId r.promptTokenIds r.sampling
        r.tenantId r.priority r.loraId output
      Scheduler.addSequence { s with seqCounter := s.seqCounter + 1 } seq
  | .schedule => do
      let r ← s.schedule
      .ok r.2
  | .appendToken i tok eos => do
      let r ← s.appendToken i tok eos
      .ok r.2
  | .abort requestId => do
      let r ← s.abort requestId
      .ok r.2
  | .finish i reason tok => s.finish i reason tok
  | .reset => .ok s.reset

end Op

/-- The scheduler under its public interface. -/
def serving (D W : Type) [BlockDigest D] [DecidableEq D] [VirtualTime W] :
    Lib.TransitionSystem (Scheduler D W) where
  init := Initial
  step s s' := ∃ op : Op, op.admissible s = true ∧ op.run s = .ok s'

abbrev Reachable (s : Scheduler D W) : Prop := (serving D W).Reachable s

/-- A given list of calls, each admissible where it is made. -/
def runOps (s : Scheduler D W) : List Op → Option (Scheduler D W)
  | [] => some s
  | op :: ops =>
      if op.admissible s then
        match op.run s with
        | .ok s' => runOps s' ops
        | .error _ => none
      else none

theorem Reachable.runOps {s s' : Scheduler D W} (h : Reachable s) (ops : List Op)
    (hr : runOps s ops = some s') : Reachable s' := by
  induction ops generalizing s with
  | nil =>
      cases hr
      exact h
  | cons op ops ih =>
      simp only [TurboServe.Core.runOps] at hr
      split at hr
      · next hadm =>
          split at hr
          · next s₁ hs₁ => exact ih (.step h ⟨op, hadm, hs₁⟩) hr
          · cases hr
      · cases hr

/-! ## §2  The invariant along a run -/

theorem bind_ok {α β : Type} {x : Except Fault α} {f : α → Except Fault β} {b : β}
    (h : (do let a ← x; f a) = .ok b) : ∃ a, x = .ok a ∧ f a = .ok b := by
  cases x with
  | error e => cases h
  | ok a => exact ⟨a, rfl, h⟩

/-- Every operation keeps the invariant. -/
theorem Op.run_inv {s s' : Scheduler D W} (h : Inv s) (op : Op)
    (hadm : op.admissible s = true) (hr : op.run s = .ok s') : Inv s' := by
  cases op with
  | addRequest r =>
      cases hr
      exact addRequest_inv h r
  | addSequence r output =>
      obtain ⟨seq, hseq, hadd⟩ := bind_ok hr
      exact addSequence_inv h.bump_counter (Sequence.create_fresh hseq)
        h.counter_not_mem (Nat.lt_succ_self _) hadd
  | schedule =>
      obtain ⟨r, hs, hr⟩ := bind_ok hr
      cases hr
      exact (StepRun.of_schedule h hs).inv h
  | appendToken i tok eos =>
      obtain ⟨r, ha, hr⟩ := bind_ok hr
      cases hr
      obtain ⟨s'', hok, hinv, -⟩ := appendToken_spec h (of_decide_eq_true hadm) tok eos
      rw [ha] at hok
      cases hok
      exact hinv
  | abort rid =>
      obtain ⟨r, ha, hr⟩ := bind_ok hr
      cases hr
      rcases abort_spec h rid with ⟨-, hok⟩ | ⟨i, s'', -, -, hok, hinv, -⟩
      · rw [ha] at hok
        cases hok
        exact h
      · rw [ha] at hok
        cases hok
        exact hinv
  | finish i reason tok =>
      obtain ⟨s'', hok, hinv, -⟩ := finish_spec h (of_decide_eq_true hadm) reason tok
      rw [show s.finish i reason tok = .ok s' from hr] at hok
      cases hok
      exact hinv
  | reset =>
      cases hr
      exact reset_inv h

theorem inv_invariant : (serving D W).Invariant Inv where
  init _ h := h.inv
  step _ _ _ h hs := by
    obtain ⟨op, hadm, hr⟩ := hs
    exact op.run_inv h hadm hr

theorem Reachable.inv {s : Scheduler D W} (h : Reachable s) : Inv s :=
  inv_invariant.reachable h

/-! ## §3  Concrete runs -/

/-- What the constructor returns over a pool of `numBlocks` blocks. -/
def fresh (D : Type) [BlockDigest D] {W : Type} [VirtualTime W]
    (config : SchedulerConfig W) (numBlocks : ℕ) : Scheduler D W where
  config := config
  blockManager := BlockManager.create D numBlocks config.blockSize
    config.enablePrefixCaching
  seqs := fun _ => default
  waiting := WaitQueue.new (decide (config.policy = .tenantFair)) config.tenantWeights
  preempted := []
  running := []
  byRequest := []
  seqCounter := 0
  numSteps := 0
  numPreemptions := 0
  numFinished := 0
  numAdmitted := 0
  numPrefillTokens := 0
  numDecodeTokens := 0
  numCachedTokens := 0

omit [DecidableEq D] in
theorem fresh_initial (config : SchedulerConfig W) (numBlocks : ℕ) :
    Initial (fresh D config numBlocks) := by
  refine .wired numBlocks config.blockSize config.enablePrefixCaching (?_ :
    Scheduler.create config _ = _)
  simp [Scheduler.create, BlockManager.create, fresh, bind, Except.bind, pure,
    Except.pure]

theorem fresh_reachable (config : SchedulerConfig W) (numBlocks : ℕ) :
    Reachable (fresh D config numBlocks) :=
  .init (fresh_initial config numBlocks)

/-- Two tenants, two tokens a step, blocks of one token, prefix caching on: the
configuration of the concrete runs below. -/
def smallConfig : SchedulerConfig ℚ :=
  { maxNumSeqs := 2, maxNumBatchedTokens := 2, blockSize := 1, policy := .tenantFair
    one_le_maxNumSeqs := Nat.two_pos, one_le_maxNumBatchedTokens := Nat.two_pos
    one_le_blockSize := Nat.one_pos, blockSize_le_budget := Nat.two_pos }

/-- A long prompt, then a short one of another tenant, served for two steps. -/
def smallOps : List Op :=
  [.addRequest { requestId := "a", promptTokenIds := [1, 2, 3], tenantId := "x" },
    .addRequest { requestId := "b", promptTokenIds := [1], tenantId := "y" },
    .schedule, .schedule, .appendToken 0 9 none, .appendToken 1 7 none]

/-- What the step after a list of calls shows. -/
def observe (D : Type) [BlockDigest D] [DecidableEq D] {α : Type}
    (config : SchedulerConfig W) (numBlocks : ℕ) (ops : List Op)
    (f : Scheduler D W → SchedulerOutput → Scheduler D W → α) : Option α :=
  (runOps (fresh D config numBlocks) ops).bind fun s =>
    match s.schedule with
    | .ok (out, s') => some (f s out s')
    | .error _ => none

theorem observe_eq_some {α : Type} {config : SchedulerConfig W} {numBlocks : ℕ}
    {ops : List Op} {f : Scheduler D W → SchedulerOutput → Scheduler D W → α} {a : α}
    (h : observe D config numBlocks ops f = some a) :
    ∃ s out s', Reachable s ∧ s.schedule = .ok (out, s') ∧ f s out s' = a := by
  obtain ⟨s, hs, h⟩ := Option.bind_eq_some_iff.mp h
  cases hsch : s.schedule with
  | error e =>
      rw [hsch] at h
      cases h
  | ok r =>
      rw [hsch] at h
      cases h
      exact ⟨s, r.1, r.2, (fresh_reachable config numBlocks).runOps ops hs, hsch, rfl⟩

end TurboServe.Core
