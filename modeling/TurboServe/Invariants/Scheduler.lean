import TurboServe.Core.Scheduler
import TurboServe.Invariants.ManagerOps
import TurboServe.Invariants.Queue

/-!
# The scheduler's invariant

`Inv s`: the running sequences are exactly the holders the block manager knows
of, every in-flight sequence is in one queue with that queue's status, idle
sequences hold nothing, and the request index lists the in-flight sequences.

The lifecycle operations keep it: `addRequest`, `addSequence`, `finish`,
`abort`, `appendToken` and `reset`. The step is in the next module.
-/

namespace TurboServe.Core

variable {D W : Type} [BlockDigest D] [VirtualTime W]

/-! ## §1  The invariant -/

namespace Scheduler

/-- The values of the running sequences, in admission order. -/
def runningSeqs (s : Scheduler D W) : List Sequence := s.running.map s.seqs

/-- What the request index holds: one pair per in-flight sequence. -/
def requestPairs (s : Scheduler D W) : List (String × SeqId) :=
  s.inFlight.map fun i => ((s.seqs i).requestId, i)

end Scheduler

/-- A sequence that is queued holds no blocks and has computed nothing. -/
def Idle (seq : Sequence) : Prop := seq.blockTable = [] ∧ seq.numComputedTokens = 0

structure Inv (s : Scheduler D W) : Prop where
  blockSize_eq : s.blockManager.blockSize = s.config.blockSize
  manager : ManagerInv s.blockManager s.runningSeqs
  queue : QueueInv s.waiting fun i => (s.seqs i).tenantId
  nodup : s.inFlight.Nodup
  ids : ∀ i ∈ s.inFlight, (s.seqs i).seqId = i
  counter : ∀ i ∈ s.inFlight, i < s.seqCounter
  running_status : ∀ i ∈ s.running, (s.seqs i).status = .running
  preempted_status : ∀ i ∈ s.preempted, (s.seqs i).status = .preempted
  waiting_status : ∀ i ∈ s.waiting.toList, (s.seqs i).status = .waiting
  idle : ∀ i ∈ s.preempted ++ s.waiting.toList, Idle (s.seqs i)
  requests : s.byRequest.Perm s.requestPairs
  requests_nodup : (s.byRequest.map Prod.fst).Nodup

omit [BlockDigest D] in
theorem mem_inFlight {s : Scheduler D W} {i : SeqId} :
    i ∈ s.inFlight ↔ i ∈ s.running ∨ i ∈ s.preempted ∨ i ∈ s.waiting.toList := by
  simp [Scheduler.inFlight]

namespace Inv

variable {s : Scheduler D W} (h : Inv s) {i j : SeqId}

include h

theorem running_nodup : s.running.Nodup := (List.nodup_append'.mp h.nodup).1

theorem preempted_nodup : s.preempted.Nodup :=
  (List.nodup_append'.mp (List.nodup_append'.mp h.nodup).2.1).1

theorem waiting_nodup : s.waiting.toList.Nodup :=
  (List.nodup_append'.mp (List.nodup_append'.mp h.nodup).2.1).2.1

theorem not_preempted (hi : i ∈ s.running) : i ∉ s.preempted := fun hp =>
  (List.nodup_append'.mp h.nodup).2.2 hi (List.mem_append_left _ hp)

theorem not_waiting (hi : i ∈ s.running) : i ∉ s.waiting.toList := fun hw =>
  (List.nodup_append'.mp h.nodup).2.2 hi (List.mem_append_right _ hw)

theorem not_finished (hi : i ∈ s.inFlight) : (s.seqs i).isFinished = false := by
  rcases mem_inFlight.mp hi with hr | hp | hw
  · simp [Sequence.isFinished, h.running_status i hr]
  · simp [Sequence.isFinished, h.preempted_status i hp]
  · simp [Sequence.isFinished, h.waiting_status i hw]

theorem id_of_running (hi : i ∈ s.running) : (s.seqs i).seqId = i :=
  h.ids i (mem_inFlight.mpr (Or.inl hi))

/-- The identities of the running sequences are the running list itself. -/
theorem map_seqId : s.runningSeqs.map (·.seqId) = s.running := by
  rw [Scheduler.runningSeqs, List.map_map]
  conv_rhs => rw [← List.map_id s.running]
  exact List.map_congr_left fun i hi => h.id_of_running hi

theorem not_holder (hi : i ∈ s.inFlight) (hr : i ∉ s.running) :
    (s.seqs i).seqId ∉ s.runningSeqs.map (·.seqId) := by
  rw [h.map_seqId, h.ids i hi]
  exact hr

/-- One running sequence brought to the head of the holders. -/
theorem manager_head (hi : i ∈ s.running) :
    ManagerInv s.blockManager (s.seqs i :: (s.running.erase i).map s.seqs) :=
  h.manager.perm ((List.perm_cons_erase hi).map s.seqs)

theorem mem_byRequest {p : String × SeqId} : p ∈ s.byRequest ↔
    p.2 ∈ s.inFlight ∧ (s.seqs p.2).requestId = p.1 := by
  rw [h.requests.mem_iff, Scheduler.requestPairs, List.mem_map]
  constructor
  · rintro ⟨i, hi, rfl⟩
    exact ⟨hi, rfl⟩
  · rintro ⟨hi, hrid⟩
    exact ⟨p.2, hi, by rw [hrid]⟩

/-- Different in-flight sequences belong to different requests. -/
theorem requestId_inj (hi : i ∈ s.inFlight) (hj : j ∈ s.inFlight)
    (hrid : (s.seqs i).requestId = (s.seqs j).requestId) : i = j := by
  have hnd : (s.inFlight.map fun i => (s.seqs i).requestId).Nodup := by
    have hperm := (h.requests.map Prod.fst).nodup_iff.mp h.requests_nodup
    simpa [Scheduler.requestPairs, Function.comp_def] using hperm
  exact List.inj_on_of_nodup_map hnd hi hj hrid

end Inv

/-! ## §2  Lists of sequences under a one-point update -/

theorem map_update_of_not_mem {seqs : SeqId → Sequence} {i : SeqId} {seq : Sequence}
    {l : List SeqId} (hi : i ∉ l) : l.map (Function.update seqs i seq) = l.map seqs :=
  List.map_congr_left fun _ hj => Function.update_of_ne (ne_of_mem_of_not_mem hj hi) _ _

theorem map_update_erase {seqs : SeqId → Sequence} {i : SeqId} {seq : Sequence}
    {l : List SeqId} (hnd : l.Nodup) :
    (l.erase i).map (Function.update seqs i seq) = (l.erase i).map seqs :=
  map_update_of_not_mem fun hi => absurd hi (hnd.not_mem_erase)

/-- Updating the value of one running sequence, with the holders following. -/
theorem ManagerInv.of_update {m : BlockManager D} {seqs : SeqId → Sequence}
    {i : SeqId} {seq : Sequence} {l : List SeqId} (hnd : l.Nodup) (hi : i ∈ l)
    (h : ManagerInv m (seq :: (l.erase i).map seqs)) :
    ManagerInv m (l.map (Function.update seqs i seq)) := by
  refine h.perm ?_
  have hperm := ((List.perm_cons_erase hi).map (Function.update seqs i seq)).symm
  rwa [List.map_cons, Function.update_self, map_update_erase hnd] at hperm

/-! ## §3  Creation and reset -/

section Create


/-- A scheduler as its constructor leaves it, over a pool of any size. -/
inductive Initial : Scheduler D W → Prop where
  | sized {config : SchedulerConfig W} {s : Scheduler D W}
      (h : Scheduler.create config none = .ok s) : Initial s
  | wired {config : SchedulerConfig W} (numBlocks blockSize : ℕ) (caching : Bool)
      {s : Scheduler D W} (h : Scheduler.create config
        (some (BlockManager.create D numBlocks blockSize caching)) = .ok s) : Initial s

omit [BlockDigest D] in
/-- Both constructors leave empty queues and a fresh manager of the configured
block size. -/
theorem Initial.shape {s : Scheduler D W} (h : Initial s) :
    ∃ numBlocks caching,
      s.blockManager = BlockManager.create D numBlocks s.config.blockSize caching ∧
      s.running = [] ∧ s.preempted = [] ∧ s.byRequest = [] ∧
      s.waiting = WaitQueue.new (decide (s.config.policy = .tenantFair))
        s.config.tenantWeights ∧ s.seqCounter = 0 ∧ s.seqs = fun _ => default := by
  cases h with
  | @sized config s h =>
      cases hn : config.numBlocks with
      | none => simp [Scheduler.create, hn, bind, Except.bind] at h
      | some n =>
          simp only [Scheduler.create, hn, bind, Except.bind, BlockManager.create,
            ne_eq, not_true_eq_false, if_false, pure, Except.pure] at h
          cases h
          exact ⟨n, _, rfl, rfl, rfl, rfl, rfl, rfl, rfl⟩
  | @wired config n bs caching s h =>
      by_cases hbs : bs = config.blockSize
      · subst hbs
        simp only [Scheduler.create, bind, Except.bind, BlockManager.create,
          ne_eq, not_true_eq_false, if_false, pure, Except.pure] at h
        cases h
        exact ⟨n, caching, rfl, rfl, rfl, rfl, rfl, rfl, rfl⟩
      · simp [Scheduler.create, bind, Except.bind, BlockManager.create, hbs] at h

theorem Initial.inv {s : Scheduler D W} (h : Initial s) : Inv s := by
  obtain ⟨n, caching, hbm, hrun, hpre, hreq, hwait, -⟩ := h.shape
  have hq := WaitQueue.new_inv (fun i => (s.seqs i).tenantId)
    (decide (s.config.policy = .tenantFair)) s.config.tenantWeights
  have hnil : s.inFlight = [] := by
    simp [Scheduler.inFlight, hrun, hpre, hwait, hq.2]
  refine
    { blockSize_eq := by rw [hbm]; rfl
      manager := ?_, queue := hwait ▸ hq.1, nodup := by simp [hnil],
      ids := by simp [hnil], counter := by simp [hnil],
      running_status := by simp [hrun], preempted_status := by simp [hpre],
      waiting_status := by simp [hwait, hq.2],
      idle := by simp [hpre, hwait, hq.2],
      requests := by simp [hreq, Scheduler.requestPairs, hnil],
      requests_nodup := by simp [hreq] }
  rw [Scheduler.runningSeqs, hrun, hbm]
  exact create_managerInv s.config.one_le_blockSize caching

end Create

theorem reset_inv {s : Scheduler D W} (h : Inv s) : Inv s.reset := by
  have hq := s.waiting.clear_inv fun i => (s.seqs i).tenantId
  have hnil : s.reset.inFlight = [] := by
    simp [Scheduler.inFlight, Scheduler.reset, hq.2]
  exact
    { blockSize_eq := h.blockSize_eq, manager := reset_managerInv h.manager
      queue := hq.1, nodup := by simp [hnil], ids := by simp [hnil]
      counter := by simp [hnil], running_status := by simp [Scheduler.reset]
      preempted_status := by simp [Scheduler.reset]
      waiting_status := by simp [Scheduler.reset, hq.2]
      idle := by simp [Scheduler.reset, hq.2]
      requests := by simp [Scheduler.reset, Scheduler.requestPairs, Scheduler.inFlight,
        hq.2]
      requests_nodup := by simp [Scheduler.reset] }

/-! ## §4  Arrival -/

theorem Inv.bump_counter {s : Scheduler D W} (h : Inv s) :
    Inv { s with seqCounter := s.seqCounter + 1 } :=
  { h with counter := fun i hi => Nat.lt_succ_of_lt (h.counter i hi) }

omit [BlockDigest D] in
theorem getSequence_eq_none {s : Scheduler D W} {rid : String}
    (h : s.getSequence rid = none) : rid ∉ s.byRequest.map Prod.fst := by
  intro hmem
  obtain ⟨p, hp, rfl⟩ := List.mem_map.mp hmem
  have := List.lookup_eq_none_iff.mp h p hp
  simp at this

omit [BlockDigest D] in
theorem getSequence_mem {s : Scheduler D W} {rid : String} {i : SeqId}
    (h : s.getSequence rid = some i) : (rid, i) ∈ s.byRequest := by
  obtain ⟨l₁, l₂, heq, -⟩ := List.lookup_eq_some_iff.mp h
  rw [heq]
  simp

omit [BlockDigest D] in
/-- What `add_sequence` does when it accepts. -/
theorem addSequence_ok {s s' : Scheduler D W} {seq : Sequence}
    (h : s.addSequence seq = .ok s') :
    s.getSequence seq.requestId = none ∧
      seq.numBlocksNeeded s.config.blockSize ≤ s.blockManager.allocator.numBlocks ∧
      (s.config.enableChunkedPrefill = true ∨
        seq.numTokens ≤ s.config.maxNumBatchedTokens) ∧
      s' = { s with
        seqs := Function.update s.seqs seq.seqId { seq with status := .waiting }
        byRequest := s.byRequest ++ [(seq.requestId, seq.seqId)]
        waiting := s.waiting.push seq.seqId seq.tenantId } := by
  unfold Scheduler.addSequence at h
  simp only at h
  split at h
  · cases h
  · next hreq =>
      split at h
      · cases h
      · next hcap =>
          split at h
          · cases h
          · next hbud =>
              cases h
              refine ⟨by simpa using hreq, not_lt.mp hcap, ?_, rfl⟩
              cases hch : s.config.enableChunkedPrefill with
              | true => exact Or.inl rfl
              | false => exact Or.inr (not_lt.mp fun hlt => hbud ⟨hch, hlt⟩)

/-- Accepting a newly constructed sequence under an identity not in flight. -/
theorem addSequence_inv {s s' : Scheduler D W} {seq : Sequence} {i : SeqId}
    {rid : String} (h : Inv s) (hfresh : seq.Fresh i rid) (hnew : i ∉ s.inFlight)
    (hlt : i < s.seqCounter) (hadd : s.addSequence seq = .ok s') : Inv s' := by
  obtain ⟨hreq, -, -, rfl⟩ := addSequence_ok hadd
  obtain ⟨rfl, rfl, htable, hcomp, -⟩ := hfresh
  generalize hval : ({ seq with status := .waiting } : Sequence) = val
  have hkeep : ∀ j ∈ s.inFlight, Function.update s.seqs seq.seqId val j = s.seqs j :=
    fun j hj => Function.update_of_ne (ne_of_mem_of_not_mem hj hnew) _ _
  have hself : Function.update s.seqs seq.seqId val seq.seqId = val :=
    Function.update_self _ _ _
  have hwait : ∀ j ∈ s.waiting.toList, j ∈ s.inFlight := fun j hj =>
    mem_inFlight.mpr (Or.inr (Or.inr hj))
  have hqueue : QueueInv s.waiting fun j =>
      (Function.update s.seqs seq.seqId val j).tenantId :=
    h.queue.congr fun j hj => by rw [hkeep j (hwait j hj)]
  have htenant : (Function.update s.seqs seq.seqId val seq.seqId).tenantId =
      seq.tenantId := by rw [hself, ← hval]
  obtain ⟨hq, hperm⟩ := WaitQueue.push_spec hqueue htenant
  have hflight : (s.running ++ (s.preempted ++
      (s.waiting.push seq.seqId seq.tenantId).toList)).Perm (seq.seqId :: s.inFlight) := by
    refine (((hperm.append_left _).append_left _).trans ?_)
    rw [← List.append_assoc]
    refine List.perm_middle.trans ?_
    rw [List.append_assoc]
    exact List.Perm.refl _
  have hmem : ∀ j ∈ s.running ++ (s.preempted ++
      (s.waiting.push seq.seqId seq.tenantId).toList),
      j = seq.seqId ∨ j ∈ s.inFlight := fun j hj =>
    List.mem_cons.mp (hflight.mem_iff.mp hj)
  have hrequests : (s.byRequest ++ [(seq.requestId, seq.seqId)]).Perm
      ((s.running ++ (s.preempted ++
        (s.waiting.push seq.seqId seq.tenantId).toList)).map fun j =>
          ((Function.update s.seqs seq.seqId val j).requestId, j)) := by
    refine List.Perm.trans ?_ (hflight.map _).symm
    rw [List.map_cons, hself]
    refine (List.perm_append_comm).trans ?_
    rw [List.singleton_append, ← hval]
    refine List.Perm.cons _ (h.requests.trans (List.Perm.of_eq ?_))
    rw [hval]
    exact List.map_congr_left fun j hj => by rw [hkeep j hj]
  refine
    { blockSize_eq := h.blockSize_eq
      manager := ?_, queue := hq
      nodup := hflight.nodup_iff.mpr (List.nodup_cons.mpr ⟨hnew, h.nodup⟩)
      ids := ?_, counter := ?_, running_status := ?_, preempted_status := ?_
      waiting_status := ?_, idle := ?_, requests := hrequests
      requests_nodup := ?_ }
  · show ManagerInv s.blockManager (s.running.map _)
    rw [map_update_of_not_mem fun hr => hnew (mem_inFlight.mpr (Or.inl hr))]
    exact h.manager
  · intro j hj
    rcases hmem j hj with rfl | hj
    · show (Function.update s.seqs seq.seqId val seq.seqId).seqId = _
      rw [hself, ← hval]
    · show (Function.update s.seqs seq.seqId val j).seqId = _
      rw [hkeep j hj]
      exact h.ids j hj
  · intro j hj
    rcases hmem j hj with rfl | hj
    · exact hlt
    · exact h.counter j hj
  · intro j hj
    show (Function.update s.seqs seq.seqId val j).status = _
    rw [hkeep j (mem_inFlight.mpr (Or.inl hj))]
    exact h.running_status j hj
  · intro j hj
    show (Function.update s.seqs seq.seqId val j).status = _
    rw [hkeep j (mem_inFlight.mpr (Or.inr (Or.inl hj)))]
    exact h.preempted_status j hj
  · intro j hj
    show (Function.update s.seqs seq.seqId val j).status = _
    rcases List.mem_cons.mp (hperm.mem_iff.mp hj) with rfl | hj
    · rw [hself, ← hval]
    · rw [hkeep j (hwait j hj)]
      exact h.waiting_status j hj
  · intro j hj
    show Idle (Function.update s.seqs seq.seqId val j)
    by_cases hji : j = seq.seqId
    · rw [hji, hself, ← hval]
      exact ⟨htable, hcomp⟩
    · have hj' : j ∈ s.preempted ++ s.waiting.toList := by
        rcases List.mem_append.mp hj with hj | hj
        · exact List.mem_append_left _ hj
        · exact List.mem_append_right _
            ((List.mem_cons.mp (hperm.mem_iff.mp hj)).resolve_left hji)
      rw [Function.update_of_ne hji]
      exact h.idle j hj'
  · show ((s.byRequest ++ [(seq.requestId, seq.seqId)]).map Prod.fst).Nodup
    rw [List.map_append]
    refine List.Nodup.append h.requests_nodup (List.nodup_singleton _) ?_
    intro rid hrid hrid'
    rw [List.mem_singleton.mp hrid'] at hrid
    exact getSequence_eq_none hreq hrid

section Arrival


/-- The identity the counter would hand out next is not in flight. -/
theorem Inv.counter_not_mem {s : Scheduler D W} (h : Inv s) : s.seqCounter ∉ s.inFlight :=
  fun hmem => Nat.lt_irrefl _ (h.counter _ hmem)

theorem addRequest_inv {s : Scheduler D W} (h : Inv s) (r : Scheduler.Request) :
    Inv (s.addRequest r).2 := by
  unfold Scheduler.addRequest
  split
  · exact h
  · simp only
    split
    · exact h.bump_counter
    · next seq hseq =>
        split
        · exact h.bump_counter
        · next s' hadd =>
            exact addSequence_inv h.bump_counter (Sequence.create_fresh hseq)
              h.counter_not_mem (Nat.lt_succ_self _) hadd

end Arrival

/-! ## §5  Retirement -/

theorem erase_append_of_nodup {l₁ l₂ : List SeqId} (i : SeqId) (h : (l₁ ++ l₂).Nodup) :
    (l₁ ++ l₂).erase i = l₁.erase i ++ l₂.erase i := by
  by_cases hi : i ∈ l₁
  · have hnot : i ∉ l₂ := fun h₂ => (List.nodup_append'.mp h).2.2 hi h₂
    rw [List.erase_append_left _ hi, List.erase_of_not_mem hnot]
  · rw [List.erase_append_right _ hi, List.erase_of_not_mem hi]

/-- What retiring sequence `i` changes: it leaves its queue and the request
index, its value becomes `seq'`, and nothing else moves. -/
structure Retired (s : Scheduler D W) (i : SeqId) (seq' : Sequence)
    (s' : Scheduler D W) : Prop where
  running_eq : s'.running = s.running.erase i
  preempted_eq : s'.preempted = s.preempted.erase i
  waiting_eq : s'.waiting.toList = s.waiting.toList.erase i
  seqs_eq : s'.seqs = Function.update s.seqs i seq'
  byRequest_eq : s'.byRequest =
    s.byRequest.filter fun p => decide (p.1 ≠ (s.seqs i).requestId)
  config_eq : s'.config = s.config
  counter_eq : s'.seqCounter = s.seqCounter
  frame : Frame s.blockManager s'.blockManager i
  indexed_of : ∀ x e, s'.blockManager.allocator.indexed x = some e →
    s.blockManager.allocator.indexed x = some e ∨
      i ∈ s.running ∧ Published s.blockManager (s.seqs i) x e

namespace Retired

variable {s s' : Scheduler D W} {i : SeqId} {seq' : Sequence}

theorem inFlight_eq (hr : Retired s i seq' s') (h : Inv s) :
    s'.inFlight = s.inFlight.erase i := by
  have hnd := h.nodup
  rw [Scheduler.inFlight] at hnd
  rw [Scheduler.inFlight, Scheduler.inFlight, erase_append_of_nodup i hnd,
    erase_append_of_nodup i (List.nodup_append'.mp hnd).2.1, hr.running_eq,
    hr.preempted_eq, hr.waiting_eq]

theorem seqs_of_mem (hr : Retired s i seq' s') (h : Inv s) {j : SeqId}
    (hj : j ∈ s'.inFlight) : j ∈ s.inFlight ∧ s'.seqs j = s.seqs j := by
  rw [hr.inFlight_eq h] at hj
  obtain ⟨hne, hmem⟩ := h.nodup.mem_erase_iff.mp hj
  exact ⟨hmem, by rw [hr.seqs_eq, Function.update_of_ne hne]⟩

/-- The invariant survives, given what the manager and the queue say. -/
theorem inv (hr : Retired s i seq' s') (h : Inv s) (hi : i ∈ s.inFlight)
    (hmanager : ManagerInv s'.blockManager ((s.running.erase i).map s.seqs))
    (hqueue : QueueInv s'.waiting fun j => (s.seqs j).tenantId) : Inv s' := by
  have hrun : ∀ j ∈ s'.running, j ∈ s.running ∧ j ∈ s'.inFlight := fun j hj =>
    ⟨List.mem_of_mem_erase (hr.running_eq ▸ hj), mem_inFlight.mpr (Or.inl hj)⟩
  have hpre : ∀ j ∈ s'.preempted, j ∈ s.preempted ∧ j ∈ s'.inFlight := fun j hj =>
    ⟨List.mem_of_mem_erase (hr.preempted_eq ▸ hj),
      mem_inFlight.mpr (Or.inr (Or.inl hj))⟩
  have hwait : ∀ j ∈ s'.waiting.toList, j ∈ s.waiting.toList ∧ j ∈ s'.inFlight :=
    fun j hj => ⟨List.mem_of_mem_erase (hr.waiting_eq ▸ hj),
      mem_inFlight.mpr (Or.inr (Or.inr hj))⟩
  have hval : ∀ j ∈ s'.inFlight, s'.seqs j = s.seqs j := fun j hj =>
    (hr.seqs_of_mem h hj).2
  have hreq : s'.byRequest.Perm s'.requestPairs := by
    have hperm : s.requestPairs.Perm (((s.seqs i).requestId, i) ::
        (s.inFlight.erase i).map fun j => ((s.seqs j).requestId, j)) :=
      (List.perm_cons_erase hi).map _
    have hfilter := (h.requests.trans hperm).filter
      fun p => decide (p.1 ≠ (s.seqs i).requestId)
    rw [← hr.byRequest_eq, List.filter_cons_of_neg (by simp)] at hfilter
    refine hfilter.trans (List.Perm.of_eq ?_)
    rw [List.filter_eq_self.mpr, Scheduler.requestPairs, hr.inFlight_eq h]
    · refine List.map_congr_left fun j hj => ?_
      rw [hval j (hr.inFlight_eq h ▸ hj)]
    · intro p hp
      obtain ⟨j, hj, rfl⟩ := List.mem_map.mp hp
      obtain ⟨hne, hmem⟩ := h.nodup.mem_erase_iff.mp hj
      exact decide_eq_true fun heq => hne (h.requestId_inj hmem hi heq)
  refine
    { blockSize_eq := by
        rw [hr.frame.blockSize_eq, hr.config_eq]; exact h.blockSize_eq
      manager := ?_
      queue := hqueue.congr fun j hj => by rw [hval j (hwait j hj).2]
      nodup := hr.inFlight_eq h ▸ h.nodup.erase i
      ids := fun j hj => by
        rw [hval j hj]; exact h.ids j (hr.seqs_of_mem h hj).1
      counter := fun j hj => by
        rw [hr.counter_eq]; exact h.counter j (hr.seqs_of_mem h hj).1
      running_status := fun j hj => by
        rw [hval j (hrun j hj).2]; exact h.running_status j (hrun j hj).1
      preempted_status := fun j hj => by
        rw [hval j (hpre j hj).2]; exact h.preempted_status j (hpre j hj).1
      waiting_status := fun j hj => by
        rw [hval j (hwait j hj).2]; exact h.waiting_status j (hwait j hj).1
      idle := ?_, requests := hreq
      requests_nodup := by
        rw [hr.byRequest_eq]
        exact h.requests_nodup.sublist (List.filter_sublist.map _) }
  · rw [Scheduler.runningSeqs, hr.running_eq, hr.seqs_eq,
      map_update_erase h.running_nodup]
    exact hmanager
  · intro j hj
    rcases List.mem_append.mp hj with hj | hj
    · rw [hval j (hpre j hj).2]
      exact h.idle j (List.mem_append_left _ (hpre j hj).1)
    · rw [hval j (hwait j hj).2]
      exact h.idle j (List.mem_append_right _ (hwait j hj).1)

end Retired

/-- The terminal value of a sequence. -/
abbrev finished (seq : Sequence) (reason : FinishReason) (tok : Option TokenId) :
    Sequence :=
  { seq with
    status := .finished, finishReason := some reason, stopTokenId := tok
    blockTable := [] }

section Retirement

variable {s : Scheduler D W} {i : SeqId}

omit [BlockDigest D] in
/-- `_detach` takes the sequence off the one queue it is on. -/
theorem detach_spec (hnd : s.inFlight.Nodup)
    (hq : QueueInv s.waiting fun j => (s.seqs j).tenantId) :
    (s.detach i).running = s.running.erase i ∧
      (s.detach i).preempted = s.preempted.erase i ∧
      (s.detach i).waiting.toList = s.waiting.toList.erase i ∧
      (s.detach i).byRequest =
        s.byRequest.filter (fun p => decide (p.1 ≠ (s.seqs i).requestId)) ∧
      (s.detach i).seqs = s.seqs ∧ (s.detach i).config = s.config ∧
      (s.detach i).blockManager = s.blockManager ∧
      (s.detach i).seqCounter = s.seqCounter ∧
      QueueInv (s.detach i).waiting fun j => (s.seqs j).tenantId := by
  obtain ⟨hrem, hlist⟩ := WaitQueue.remove_spec hq i
  have hdisj := (List.nodup_append'.mp hnd).2.2
  have hdisj₂ := (List.nodup_append'.mp (List.nodup_append'.mp hnd).2.1).2.2
  unfold Scheduler.detach
  by_cases hr : i ∈ s.running
  · have hp : i ∉ s.preempted := fun hp => hdisj hr (List.mem_append_left _ hp)
    have hw : i ∉ s.waiting.toList := fun hw => hdisj hr (List.mem_append_right _ hw)
    simp only [hr, if_true, List.erase_of_not_mem hp, List.erase_of_not_mem hw]
    exact ⟨trivial, trivial, trivial, trivial, trivial, trivial, trivial, trivial, hq⟩
  · by_cases hp : i ∈ s.preempted
    · have hw : i ∉ s.waiting.toList := fun hw => hdisj₂ hp hw
      simp only [hr, if_false, hp, if_true, List.erase_of_not_mem hr,
        List.erase_of_not_mem hw]
      exact ⟨trivial, trivial, trivial, trivial, trivial, trivial, trivial, trivial, hq⟩
    · simp only [hr, if_false, hp, List.erase_of_not_mem hr, List.erase_of_not_mem hp]
      exact ⟨trivial, trivial, hlist, trivial, trivial, trivial, trivial, trivial, hrem⟩

/-- `finish` retires any in-flight sequence: it never fails, publishes at most
the sequence's own computed blocks, and touches nobody else. -/
theorem finish_spec [DecidableEq D] (h : Inv s) (hi : i ∈ s.inFlight) (reason : FinishReason)
    (tok : Option TokenId) :
    ∃ s', s.finish i reason tok = .ok s' ∧ Inv s' ∧
      Retired s i (finished (s.seqs i) reason tok) s' := by
  have hfin : (s.seqs i).finish reason tok = { s.seqs i with
      status := .finished, finishReason := some reason, stopTokenId := tok } := by
    rw [Sequence.finish, h.not_finished hi]
    rfl
  have hid := h.ids i hi
  -- what the block manager makes of it, for a running and for a queued sequence
  obtain ⟨m', hfree, hmanager, hframe, hidx⟩ : ∃ m',
      s.blockManager.free ((s.seqs i).finish reason tok) =
        .ok (m', finished (s.seqs i) reason tok) ∧
      ManagerInv m' ((s.running.erase i).map s.seqs) ∧ Frame s.blockManager m' i ∧
      (∀ x e, m'.allocator.indexed x = some e →
        s.blockManager.allocator.indexed x = some e ∨
          i ∈ s.running ∧ Published s.blockManager (s.seqs i) x e) := by
    rw [hfin]
    by_cases hr : i ∈ s.running
    · have hhead : ManagerInv s.blockManager ({ s.seqs i with
          status := .finished, finishReason := some reason, stopTokenId := tok } ::
            (s.running.erase i).map s.seqs) :=
        (h.manager_head hr).head_congr rfl rfl rfl rfl rfl rfl
      obtain ⟨m', hfree, hinv, hframe, hidx⟩ := free_spec hhead
      refine ⟨m', hfree, hinv, hid ▸ hframe, fun x e hx => ?_⟩
      exact (hidx x e hx).imp_right fun hpub => ⟨hr, hpub⟩
    · have hidle : (s.seqs i).blockTable = [] := by
        refine (h.idle i ?_).1
        rcases mem_inFlight.mp hi with hr' | hp | hw
        · exact absurd hr' hr
        · exact List.mem_append_left _ hp
        · exact List.mem_append_right _ hw
      have hnot := h.not_holder hi hr
      have hfree : s.blockManager.free { s.seqs i with
          status := .finished, finishReason := some reason, stopTokenId := tok } = .ok _ :=
        free_idle h.manager hnot hidle
      refine ⟨s.blockManager, ?_, ?_, .refl _ _, fun _ _ => Or.inl⟩
      · rw [hfree]
        simp only [finished, hidle]
      · rw [List.erase_of_not_mem hr]
        exact h.manager
  have hq : QueueInv s.waiting fun j =>
      (Function.update s.seqs i (finished (s.seqs i) reason tok) j).tenantId := by
    refine h.queue.congr fun j _ => ?_
    by_cases hji : j = i
    · rw [hji, Function.update_self]
    · rw [Function.update_of_ne hji]
  obtain ⟨hrun, hpre, hwait, hreq, hseqs, hconfig, hbm, hcount, hqueue⟩ :=
    detach_spec (s := { s.setSeq i (finished (s.seqs i) reason tok) with
      blockManager := m' }) (i := i) h.nodup hq
  have hretired : Retired s i (finished (s.seqs i) reason tok)
      { ({ s.setSeq i (finished (s.seqs i) reason tok) with blockManager := m' } :
        Scheduler D W).detach i with numFinished := s.numFinished + 1 } :=
    { running_eq := hrun, preempted_eq := hpre, waiting_eq := hwait, seqs_eq := hseqs
      byRequest_eq := by
        rw [hreq]
        simp [Scheduler.setSeq]
      config_eq := hconfig, counter_eq := hcount, frame := hbm.symm ▸ hframe
      indexed_of := hbm.symm ▸ hidx }
  refine ⟨_, ?_, hretired.inv h hi (hbm.symm ▸ hmanager) ?_, hretired⟩
  · simp only [Scheduler.finish, hfree, bind, Except.bind]
  · refine hqueue.congr fun j _ => ?_
    show (s.seqs j).tenantId =
      (Function.update s.seqs i (finished (s.seqs i) reason tok) j).tenantId
    by_cases hji : j = i
    · rw [hji, Function.update_self]
    · rw [Function.update_of_ne hji]

/-- `abort` never fails; on a request in flight it retires that request. -/
theorem abort_spec [DecidableEq D] (h : Inv s) (rid : String) :
    (s.getSequence rid = none ∧ s.abort rid = .ok (false, s)) ∨
      ∃ i s', s.getSequence rid = some i ∧ i ∈ s.inFlight ∧
        s.abort rid = .ok (true, s') ∧ Inv s' ∧
        Retired s i (finished (s.seqs i) .abort none) s' := by
  cases hg : s.getSequence rid with
  | none => exact Or.inl ⟨rfl, by simp [Scheduler.abort, hg]⟩
  | some i =>
      have hi : i ∈ s.inFlight := (h.mem_byRequest.mp (getSequence_mem hg)).1
      obtain ⟨s', hok, hinv, hret⟩ := finish_spec h hi .abort none
      refine Or.inr ⟨i, s', rfl, hi, ?_, hinv, hret⟩
      simp only [Scheduler.abort, hg, hok, bind, Except.bind]

/-! ## §6  A sampled token -/

/-- The sequence with one more generated token. -/
abbrev appended (seq : Sequence) (tok : TokenId) : Sequence :=
  { seq with outputTokenIds := seq.outputTokenIds ++ [tok] }

/-- Changing the value of one in-flight sequence in ways its queue does not
see. -/
theorem Inv.set_value (h : Inv s) {seq' : Sequence}
    (hid : seq'.seqId = (s.seqs i).seqId)
    (hrid : seq'.requestId = (s.seqs i).requestId)
    (htenant : seq'.tenantId = (s.seqs i).tenantId)
    (hstatus : seq'.status = (s.seqs i).status)
    (hidle : Idle (s.seqs i) → Idle seq')
    (hmanager : i ∈ s.running →
      ManagerInv s.blockManager (seq' :: (s.running.erase i).map s.seqs)) :
    Inv (s.setSeq i seq') := by
  have hproj : ∀ {β : Type} (f : Sequence → β), f seq' = f (s.seqs i) →
      ∀ j, f (Function.update s.seqs i seq' j) = f (s.seqs j) := by
    intro β f hf j
    by_cases hji : j = i
    · rw [hji, Function.update_self, hf]
    · rw [Function.update_of_ne hji]
  refine
    { blockSize_eq := h.blockSize_eq, manager := ?_
      queue := h.queue.congr fun j _ => hproj (·.tenantId) htenant j
      nodup := h.nodup
      ids := fun j hj => (hproj (·.seqId) hid j).trans (h.ids j hj)
      counter := h.counter
      running_status := fun j hj =>
        (hproj (·.status) hstatus j).trans (h.running_status j hj)
      preempted_status := fun j hj =>
        (hproj (·.status) hstatus j).trans (h.preempted_status j hj)
      waiting_status := fun j hj =>
        (hproj (·.status) hstatus j).trans (h.waiting_status j hj)
      idle := ?_, requests := ?_, requests_nodup := h.requests_nodup }
  · by_cases hr : i ∈ s.running
    · exact ManagerInv.of_update h.running_nodup hr (hmanager hr)
    · show ManagerInv s.blockManager (s.running.map (Function.update s.seqs i seq'))
      rw [map_update_of_not_mem hr]
      exact h.manager
  · intro j hj
    show Idle (Function.update s.seqs i seq' j)
    by_cases hji : j = i
    · rw [hji, Function.update_self]
      exact hidle (hji ▸ h.idle j hj)
    · rw [Function.update_of_ne hji]
      exact h.idle j hj
  · refine h.requests.trans (List.Perm.of_eq ?_)
    refine List.map_congr_left fun j _ => ?_
    exact congrArg (fun r => (r, j)) (hproj (·.requestId) hrid j).symm

theorem appended_inv (h : Inv s) (i : SeqId) (tok : TokenId) :
    Inv (s.setSeq i (appended (s.seqs i) tok)) :=
  h.set_value rfl rfl rfl rfl id fun hr => (h.manager_head hr).append_token

/-- `append_token` never fails on a sequence in flight: it extends the sequence,
and retires it exactly when its stop condition fires. -/
theorem appendToken_spec [DecidableEq D] (h : Inv s) (hi : i ∈ s.inFlight) (tok : TokenId)
    (eos : Option TokenId) :
    ∃ s', s.appendToken i tok eos =
        .ok ((appended (s.seqs i) tok).checkStop tok eos, s') ∧ Inv s' ∧
      ((appended (s.seqs i) tok).checkStop tok eos = none →
        s' = s.setSeq i (appended (s.seqs i) tok)) ∧
      (∀ reason, (appended (s.seqs i) tok).checkStop tok eos = some reason →
        Retired (s.setSeq i (appended (s.seqs i) tok)) i
          (finished (appended (s.seqs i) tok) reason
            (if reason = .stop then some tok else none)) s') := by
  have happ : (s.seqs i).appendToken tok = .ok (appended (s.seqs i) tok) := by
    simp [Sequence.appendToken, h.not_finished hi]
  have hinv := appended_inv h i tok
  cases hstop : (appended (s.seqs i) tok).checkStop tok eos with
  | none =>
      refine ⟨_, ?_, hinv, fun _ => rfl, fun _ hr => by cases hr⟩
      simp only [Scheduler.appendToken, happ, bind, Except.bind, hstop]
  | some reason =>
      obtain ⟨s', hok, hinv', hret⟩ := finish_spec hinv hi reason
        (if reason = .stop then some tok else none)
      refine ⟨s', ?_, hinv', fun hn => (by cases hn), fun r hr => ?_⟩
      · simp only [Scheduler.appendToken, happ, bind, Except.bind, hstop, hok]
      · obtain rfl := Option.some.inj hr
        have hself : (s.setSeq i (appended (s.seqs i) tok)).seqs i =
            appended (s.seqs i) tok := Function.update_self _ _ _
        rwa [hself] at hret

end Retirement

end TurboServe.Core
