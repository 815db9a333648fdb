import TurboServe.Lib.Association
import TurboServe.System.Loop

/-!
# Finishing a sequence twice

A finished sequence holds no blocks and is in no queue, so `finish` on it has nothing to
give back. It still counts the sequence again and drops the request id from the index,
whoever uses it by then.
-/

namespace TurboServe.Core

variable {D W : Type} [BlockDigest D] [VirtualTime W]
  {s s' : Scheduler D W} {i : SeqId}

/-! ## §1  What a finished sequence holds -/

/-- Every finished sequence is stored under its own identity and holds no blocks. -/
def Ended (s : Scheduler D W) : Prop :=
  ∀ i, (s.seqs i).status = .finished → (s.seqs i).seqId = i ∧ (s.seqs i).blockTable = []

omit [BlockDigest D] in
theorem Ended.of_update (h : Ended s) {seq' : Sequence}
    (hseqs : s'.seqs = Function.update s.seqs i seq')
    (hseq : seq'.status = .finished → seq'.seqId = i ∧ seq'.blockTable = []) : Ended s' := by
  intro j hj
  rw [hseqs] at hj ⊢
  by_cases hji : j = i
  · subst hji
    rw [Function.update_self] at hj ⊢
    exact hseq hj
  · rw [Function.update_of_ne hji] at hj ⊢
    exact h j hj

theorem Ended.of_retired (h : Ended s) (hinv : Inv s) (hi : i ∈ s.inFlight)
    {reason : FinishReason} {tok : Option TokenId}
    (hr : Retired s i (finished (s.seqs i) reason tok) s') : Ended s' :=
  h.of_update hr.seqs_eq fun _ => ⟨hinv.ids i hi, rfl⟩

theorem Ended.appended (h : Ended s) (hinv : Inv s) (hi : i ∈ s.inFlight) (tok : TokenId) :
    Ended (s.setSeq i (appended (s.seqs i) tok)) :=
  h.of_update rfl fun hf => absurd hi (hinv.finished_absent hf)

omit [BlockDigest D] in
theorem Ended.added (h : Ended s) {seq : Sequence} {c : ℕ}
    (hadd : Scheduler.addSequence { s with seqCounter := c } seq = .ok s') : Ended s' := by
  obtain ⟨-, -, -, rfl⟩ := addSequence_ok hadd
  exact h.of_update rfl nofun

/-- A small step only stores sequences that are not finished. -/
theorem Ended.micro {x y : Scheduler D W × StepAcc} (h : Ended x.1) (hm : Micro x y)
    (hinv : StepInv x.1 x.2) : Ended y.1 := by
  cases hm with
  | @preempt s acc v m' hv hnew hframe hmanager hidx => exact h.of_update rfl fun hf => by cases hf
  | @enter s acc i rest q' n m' seq' hpop hnow hbudget hcan hmay hadopted hframe hmanager
      hidx => exact h.of_update rfl fun hf => by cases hf
  | @grow s acc i n slots m' seq' item hi hnew hbudget hn hmay hgrown hframe hmanager
      hitem =>
      have hrun : (s.seqs i).status = .running := hinv.inv.running_status i hi
      refine h.of_update rfl fun hf => ?_
      rw [advanced, hgrown.seq_eq] at hf
      cases hf.symm.trans hrun
  | @rollback s acc i m' hi hframe hmanager hidx =>
      exact h.of_update rfl fun hf =>
        absurd (inFlight_of_queued hi) (hinv.inv.finished_absent hf)

theorem Ended.step {out : SchedulerOutput} (h : Ended s) (hinv : Inv s)
    (hr : StepRun s out s') : Ended s' := by
  cases hr with
  | intro m₀ s₁ acc hpub hrun =>
      exact Micros.induct (P := fun t _ => Ended t)
        (fun x y hm hx hended => hended.micro hm hx) hrun (StepInv.init (hpub.inv hinv)) h

theorem ended_invariant [DecidableEq D] : (serving D W).Invariant Ended where
  init s h i hi := by
    obtain ⟨-, -, -, -, -, -, -, -, hseqs⟩ := Initial.shape h
    rw [hseqs] at hi
    cases hi
  step s s' hreach h hs := by
    have hinv := Reachable.inv hreach
    obtain ⟨op, hadm, hr⟩ := hs
    cases op with
    | addRequest r =>
        cases hr
        unfold Scheduler.addRequest
        split
        · exact h
        · dsimp only
          split
          · exact h
          · split
            · exact h
            · next hadd => exact h.added hadd
    | addSequence r output =>
        obtain ⟨seq, -, hadd⟩ := bind_ok hr
        exact h.added hadd
    | schedule =>
        obtain ⟨r, hs, hr⟩ := bind_ok hr
        cases hr
        exact h.step hinv (StepRun.of_schedule hinv hs)
    | appendToken i tok eos =>
        obtain ⟨r, ha, hr⟩ := bind_ok hr
        cases hr
        have hi := of_decide_eq_true hadm
        obtain ⟨s'', hok, -, hgoes, hstops⟩ := appendToken_spec hinv hi tok eos
        obtain rfl := Except.ok.inj (ha.symm.trans hok)
        have happended := h.appended hinv hi tok
        cases hstop : (appended (s.seqs i) tok).checkStop tok eos with
        | none =>
            rw [hgoes hstop]
            exact happended
        | some reason =>
            exact happended.of_update (hstops reason hstop).seqs_eq fun _ =>
              ⟨hinv.ids i hi, rfl⟩
    | abort rid =>
        obtain ⟨r, ha, hr⟩ := bind_ok hr
        cases hr
        rcases abort_spec hinv rid with ⟨-, hok⟩ | ⟨i, s'', -, hi, hok, -, hret⟩
        · obtain rfl := Except.ok.inj (ha.symm.trans hok)
          exact h
        · obtain rfl := Except.ok.inj (ha.symm.trans hok)
          exact h.of_retired hinv hi hret
    | finish i reason tok =>
        have hi := of_decide_eq_true hadm
        obtain ⟨s'', hok, -, hret⟩ := finish_spec hinv hi reason tok
        obtain rfl := Except.ok.inj (hr.symm.trans hok)
        exact h.of_retired hinv hi hret
    | reset =>
        cases hr
        exact h

/-! ## §2  The second call -/

omit [VirtualTime W] in
/-- A queue that does not hold a sequence is left alone by its removal. -/
theorem WaitQueue.remove_absent {q : WaitQueue W} {tenant : String} (hi : i ∉ q.toList) :
    (q.remove i tenant).2 = q := by
  unfold WaitQueue.toList at hi
  unfold WaitQueue.remove
  by_cases hfair : q.tenantFair = true
  · rw [if_pos hfair] at hi ⊢
    cases hids : q.queues.lookup tenant with
    | none => rfl
    | some ids =>
        have hnot : i ∉ ids := by
          intro hmem
          exact hi (List.mem_flatMap.mpr ⟨(tenant, ids), Lib.mem_of_lookup hids, hmem⟩)
        dsimp only
        rw [if_neg hnot]
  · rw [if_neg hfair] at hi ⊢
    rw [if_neg hi]

/-- The scheduler after one call too many on sequence `i`. -/
def countedAgain (s : Scheduler D W) (i : SeqId) : Scheduler D W :=
  { s with
    byRequest := s.byRequest.filter fun p => decide (p.1 ≠ (s.seqs i).requestId)
    numFinished := s.numFinished + 1 }

theorem finish_again [DecidableEq D] (hinv : Inv s) (hended : Ended s)
    (hi : (s.seqs i).status = .finished)
    (reason : FinishReason) (tok : Option TokenId) :
    s.finish i reason tok = .ok (countedAgain s i) := by
  have habsent := hinv.finished_absent hi
  rw [mem_inFlight, not_or, not_or] at habsent
  obtain ⟨hrunning, hpreempted, hwaiting⟩ := habsent
  obtain ⟨hid, htable⟩ := hended i hi
  have hsame : (s.seqs i).finish reason tok = s.seqs i := by
    rw [Sequence.finish, Sequence.isFinished, hi]
    rfl
  have hnot : (s.seqs i).seqId ∉ s.runningSeqs.map (·.seqId) := by
    rw [hinv.map_seqId, hid]
    exact hrunning
  have hfree : s.blockManager.free (s.seqs i) = .ok (s.blockManager, s.seqs i) :=
    free_idle hinv.manager hnot htable
  have hset : s.setSeq i (s.seqs i) = s := by
    unfold Scheduler.setSeq
    rw [Function.update_eq_self]
  unfold Scheduler.finish
  rw [hsame, hfree]
  simp only [bind, Except.bind, hset]
  unfold Scheduler.detach countedAgain
  dsimp only
  rw [if_neg hrunning, if_neg hpreempted, WaitQueue.remove_absent hwaiting]

/-! ## §3  What the second call touches -/

/-- Queues, request index, counters and blocks are the same. -/
structure Untouched (s s' : Scheduler D W) : Prop where
  running : s'.running = s.running
  preempted : s'.preempted = s.preempted
  waiting : s'.waiting = s.waiting
  byRequest : s'.byRequest = s.byRequest
  seqCounter : s'.seqCounter = s.seqCounter
  numSteps : s'.numSteps = s.numSteps
  numPreemptions : s'.numPreemptions = s.numPreemptions
  numFinished : s'.numFinished = s.numFinished
  numAdmitted : s'.numAdmitted = s.numAdmitted
  numPrefillTokens : s'.numPrefillTokens = s.numPrefillTokens
  numDecodeTokens : s'.numDecodeTokens = s.numDecodeTokens
  numCachedTokens : s'.numCachedTokens = s.numCachedTokens
  blockManager : s'.blockManager = s.blockManager

/-- Ending sequence `i` once more, or aborting its request, touches nothing. -/
def Harmless [DecidableEq D] (s : Scheduler D W) (i : SeqId) : Prop :=
  (∀ reason tok, ∃ s', s.finish i reason tok = .ok s' ∧ Untouched s s') ∧
    ∃ found s', s.abort (s.seqs i).requestId = .ok (found, s') ∧ Untouched s s'

/-- An abort finds nothing to do unless the id is in use again. -/
theorem abort_again [DecidableEq D] (hinv : Inv s) :
    (∃ found s', s.abort (s.seqs i).requestId = .ok (found, s') ∧ Untouched s s') ↔
      s.getSequence (s.seqs i).requestId = none := by
  rcases abort_spec hinv (s.seqs i).requestId with ⟨hnone, hok⟩ | ⟨j, s', hj, hmem, hok, -, hret⟩
  · refine ⟨fun _ => hnone, fun _ => ⟨false, s, hok, ?_⟩⟩
    constructor <;> rfl
  · constructor
    · rintro ⟨found, s'', hok', huntouched⟩
      -- the successor has left the queues
      obtain rfl : s' = s'' := by
        rw [hok] at hok'
        exact congrArg Prod.snd (Except.ok.inj hok')
      have hflight : s'.inFlight = s.inFlight := by
        rw [Scheduler.inFlight, Scheduler.inFlight, huntouched.running, huntouched.preempted,
          huntouched.waiting]
      rw [hret.inFlight_eq hinv] at hflight
      have hlen := congrArg List.length hflight
      rw [List.length_erase_of_mem hmem] at hlen
      have hpos := List.length_pos_of_mem hmem
      omega
    · intro hnone
      rw [hnone] at hj
      cases hj

/-- In every reachable state, `finish` on a finished sequence leaves queues and blocks
alone, takes its request id out of the index and counts it again: it is never harmless. An abort
of its request is, exactly if the id is not in use again. -/
theorem finish_twice [DecidableEq D] (h : Reachable s) (hi : (s.seqs i).status = .finished) :
    (∀ reason tok, s.finish i reason tok = .ok (countedAgain s i)) ∧
      ((∃ found s', s.abort (s.seqs i).requestId = .ok (found, s') ∧ Untouched s s') ↔
        s.getSequence (s.seqs i).requestId = none) ∧
      ¬ Harmless s i := by
  have hfinish := finish_again h.inv (ended_invariant.reachable h) hi
  refine ⟨hfinish, abort_again h.inv, ?_⟩
  rintro ⟨hquiet, -⟩
  obtain ⟨s', hok, huntouched⟩ := hquiet .abort none
  obtain rfl := Except.ok.inj ((hfinish .abort none).symm.trans hok)
  exact Nat.succ_ne_self _ huntouched.numFinished

/-- A request that ends, and another one under its id. -/
def reusedId : List Op :=
  [.addRequest
      { requestId := "a", promptTokenIds := [1]
        sampling := { maxTokens := 1, one_le_maxTokens := Nat.one_pos } },
    .schedule, .appendToken 0 9 none, .addRequest { requestId := "a", promptTokenIds := [2] }]

theorem reusedId_reachable : ∃ s : Scheduler FreeDigest ℚ, Reachable s ∧
    (s.seqs 0).status = .finished ∧ (s.seqs 0).requestId = "a" ∧
      s.getSequence "a" = some 1 ∧ s.numFinished = 1 := by
  have hrun : ((runOps (fresh FreeDigest smallConfig 2) reusedId).map fun s =>
      ((s.seqs 0).status, (s.seqs 0).requestId, s.getSequence "a", s.numFinished)) =
        some (.finished, "a", some 1, 1) := by decide +kernel
  obtain ⟨s, hs, hobs⟩ := Option.map_eq_some_iff.mp hrun
  simp only [Prod.mk.injEq] at hobs
  exact ⟨s, (fresh_reachable smallConfig 2).runOps reusedId hs, hobs.1, hobs.2.1,
    hobs.2.2.1, hobs.2.2.2⟩

/-- The same request, before its id is used again. -/
theorem endedId_reachable : ∃ s : Scheduler FreeDigest ℚ, Reachable s ∧
    (s.seqs 0).status = .finished ∧ s.getSequence (s.seqs 0).requestId = none := by
  have hrun : ((runOps (fresh FreeDigest smallConfig 2) (reusedId.take 3)).map fun s =>
      ((s.seqs 0).status, s.getSequence (s.seqs 0).requestId)) = some (.finished, none) := by
    decide +kernel
  obtain ⟨s, hs, hobs⟩ := Option.map_eq_some_iff.mp hrun
  obtain ⟨hfinished, hnone⟩ := Prod.mk.inj hobs
  exact ⟨s, (fresh_reachable smallConfig 2).runOps _ hs, hfinished, hnone⟩

theorem finish_twice_reused :
    (∃ s : Scheduler FreeDigest ℚ, s.finish 0 .abort none = .ok (countedAgain s 0) ∧
      (¬∃ found s', s.abort (s.seqs 0).requestId = .ok (found, s') ∧ Untouched s s') ∧
      ¬ Harmless s 0) ∧
    ∃ s : Scheduler FreeDigest ℚ, s.finish 0 .abort none = .ok (countedAgain s 0) ∧
      (∃ found s', s.abort (s.seqs 0).requestId = .ok (found, s') ∧ Untouched s s') ∧
      ¬ Harmless s 0 := by
  constructor
  · obtain ⟨s, hreach, hfinished, hid, hfound, -⟩ := reusedId_reachable
    obtain ⟨hfinish, habort, hharm⟩ := finish_twice hreach hfinished
    refine ⟨s, hfinish .abort none, fun hquiet => ?_, hharm⟩
    have hnone := habort.mp hquiet
    rw [hid, hfound] at hnone
    cases hnone
  · obtain ⟨s, hreach, hfinished, hnone⟩ := endedId_reachable
    obtain ⟨hfinish, habort, hharm⟩ := finish_twice hreach hfinished
    exact ⟨s, hfinish .abort none, habort.mpr hnone, hharm⟩

theorem successor_orphaned : ∃ s s' : Scheduler FreeDigest ℚ, Reachable s ∧
    (s.seqs 0).status = .finished ∧ s.finish 0 .abort none = .ok s' ∧
      s.getSequence "a" = some 1 ∧ s'.getSequence "a" = none ∧
      s.numFinished = 1 ∧ s'.numFinished = 2 ∧ ¬ Untouched s s' := by
  obtain ⟨s, hreach, hfinished, hid, hfound, hcount⟩ := reusedId_reachable
  have hfinish := finish_again hreach.inv (ended_invariant.reachable hreach) hfinished .abort none
  refine ⟨s, countedAgain s 0, hreach, hfinished, hfinish, hfound, ?_, hcount, ?_, ?_⟩
  · unfold countedAgain Scheduler.getSequence
    refine List.lookup_eq_none_iff.mpr fun p hp => ?_
    have hne := of_decide_eq_true (List.mem_filter.mp hp).2
    rw [hid] at hne
    exact bne_iff_ne.mpr hne.symm
  · exact congrArg (· + 1) hcount
  · exact fun huntouched => Nat.succ_ne_self _ huntouched.numFinished

end TurboServe.Core
