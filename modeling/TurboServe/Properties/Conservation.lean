import TurboServe.System.Runs

/-!
# Requests are conserved

Every in-flight request is on exactly one queue, exactly once, with the status
of that queue; the request index lists exactly these; queued sequences hold
nothing; and retiring one request moves nobody else.
-/

namespace TurboServe.Core

variable {D W : Type} [BlockDigest D] [DecidableEq D] [VirtualTime W]

/-- `check_invariants` of the scheduler, and what it leaves unsaid. -/
structure Conserved (s : Scheduler D W) : Prop where
  once : ∀ p ∈ s.byRequest,
    s.running.count p.2 + s.preempted.count p.2 + s.waiting.toList.count p.2 = 1
  mem_index : ∀ rid i, (rid, i) ∈ s.byRequest ↔
    (i ∈ s.running ∨ i ∈ s.preempted ∨ i ∈ s.waiting.toList) ∧
      (s.seqs i).requestId = rid
  index_nodup : (s.byRequest.map Prod.fst).Nodup
  one_deque : (s.waiting.queues.map Prod.fst).Nodup ∧
    ∀ p ∈ s.waiting.queues, ∀ i ∈ p.2, (s.seqs i).tenantId = p.1
  running_status : ∀ i ∈ s.running, (s.seqs i).status = .running
  preempted_status : ∀ i ∈ s.preempted, (s.seqs i).status = .preempted
  waiting_status : ∀ i ∈ s.waiting.toList, (s.seqs i).status = .waiting
  computed_le : ∀ p ∈ s.byRequest,
    (s.seqs p.2).numComputedTokens ≤ (s.seqs p.2).numTokens
  preempted_idle : ∀ i ∈ s.preempted,
    (s.seqs i).blockTable = [] ∧ (s.seqs i).numComputedTokens = 0
  waiting_idle : ∀ i ∈ s.waiting.toList,
    (s.seqs i).blockTable = [] ∧ (s.seqs i).numComputedTokens = 0

/-- `s'` is `s` without sequence `i`: every other sequence has the same value
(tokens, table, computed count, status) and the same place among the rest. -/
structure OthersUnchanged (s : Scheduler D W) (i : SeqId) (s' : Scheduler D W) :
    Prop where
  seqs_eq : ∀ j, j ≠ i → s'.seqs j = s.seqs j
  running_eq : s'.running = s.running.erase i
  preempted_eq : s'.preempted = s.preempted.erase i
  waiting_eq : s'.waiting.toList = s.waiting.toList.erase i
  gone : i ∉ s'.running ∧ i ∉ s'.preempted ∧ i ∉ s'.waiting.toList

omit [DecidableEq D] in
theorem Inv.conserved {s : Scheduler D W} (h : Inv s) : Conserved s where
  once p hp := by
    have hmem := (h.mem_byRequest.mp hp).1
    have hone := List.count_eq_one_of_mem h.nodup hmem
    rw [Scheduler.inFlight, List.count_append, List.count_append] at hone
    omega
  mem_index rid i := by
    rw [h.mem_byRequest, mem_inFlight]
  index_nodup := h.requests_nodup
  one_deque := ⟨h.queue.keys_nodup, h.queue.tenant⟩
  running_status := h.running_status
  preempted_status := h.preempted_status
  waiting_status := h.waiting_status
  computed_le p hp := by
    have hmem := (h.mem_byRequest.mp hp).1
    rcases mem_inFlight.mp hmem with hr | hrest
    · exact h.computed_le hr
    · rw [(h.idle p.2 (List.mem_append.mpr hrest)).2]
      exact Nat.zero_le _
  preempted_idle i hi := h.idle i (List.mem_append_left _ hi)
  waiting_idle i hi := h.idle i (List.mem_append_right _ hi)

omit [DecidableEq D] in
theorem Retired.othersUnchanged {s s' : Scheduler D W} {i : SeqId} {seq' : Sequence}
    (hr : Retired s i seq' s') (h : Inv s) : OthersUnchanged s i s' where
  seqs_eq j hj := by rw [hr.seqs_eq, Function.update_of_ne hj]
  running_eq := hr.running_eq
  preempted_eq := hr.preempted_eq
  waiting_eq := hr.waiting_eq
  gone := by
    rw [hr.running_eq, hr.preempted_eq, hr.waiting_eq]
    exact ⟨h.running_nodup.not_mem_erase, h.preempted_nodup.not_mem_erase,
      h.waiting_nodup.not_mem_erase⟩

/-- Conservation and non-interference in every reachable state. -/
theorem requests_conserved {s : Scheduler D W} (h : Reachable s) :
    Conserved s ∧
      (∀ i ∈ s.inFlight, ∀ reason tok, ∃ s', s.finish i reason tok = .ok s' ∧
        OthersUnchanged s i s') ∧
      (∀ rid, ∃ found s', s.abort rid = .ok (found, s') ∧
        (s.getSequence rid = none → s' = s) ∧
        ∀ i, s.getSequence rid = some i → OthersUnchanged s i s') := by
  have hinv := h.inv
  refine ⟨hinv.conserved, fun i hi reason tok => ?_, fun rid => ?_⟩
  · obtain ⟨s', hok, -, hret⟩ := finish_spec hinv hi reason tok
    exact ⟨s', hok, hret.othersUnchanged hinv⟩
  · rcases abort_spec hinv rid with ⟨hnone, hok⟩ | ⟨i, s', hg, -, hok, -, hret⟩
    · refine ⟨false, s, hok, fun _ => rfl, fun i hi => ?_⟩
      rw [hnone] at hi
      cases hi
    · refine ⟨true, s', hok, fun hn => ?_, fun j hj => ?_⟩
      · rw [hg] at hn
        cases hn
      · obtain rfl : i = j := Option.some.inj (hg.symm.trans hj)
        exact hret.othersUnchanged hinv

/-- In a pool of four blocks the next step sends one request back to the queue;
neither is lost. -/
theorem requests_conserved_small :
    ∃ s : Scheduler FreeDigest ℚ, s.running = [0] ∧ s.preempted = [1] ∧
      Conserved s := by
  have h : observe FreeDigest smallConfig 4 (smallOps ++ [.schedule])
      (fun s _ _ => (s.running, s.preempted)) = some ([0], [1]) := by decide
  obtain ⟨s, out, s', hs, -, hqueues⟩ := observe_eq_some h
  obtain ⟨hrun, hpre⟩ := Prod.mk.inj hqueues
  exact ⟨s, hrun, hpre, (requests_conserved hs).1⟩

end TurboServe.Core
