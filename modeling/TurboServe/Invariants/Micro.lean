import TurboServe.Invariants.Scheduler

/-!
# The small steps of one `schedule()`

A step of the scheduler is a sequence of small ones: send a running sequence
back to the queue, take a queued one in, grow a running one by the tokens it
computes this step, or take an admission back. `Micro` says everything each of
them can do to the scheduler and to the locals of the step; what holds of every
batch is proved once per small step.
-/

namespace TurboServe.Core

variable {D W : Type} [BlockDigest D] [VirtualTime W]

/-! ## §1  The four small steps -/

/-- `v` lost its blocks and waits at the back of the preempted queue. -/
def Scheduler.sentBack (s : Scheduler D W) (v : SeqId) (m' : BlockManager D) :
    Scheduler D W :=
  { s.setSeq v (s.seqs v).resetForRecompute with
    blockManager := m'
    running := s.running.erase v
    preempted := s.preempted ++ [v]
    numPreemptions := s.numPreemptions + 1 }

def StepAcc.sentBack (acc : StepAcc) (v : SeqId) : StepAcc :=
  { acc with
    preemptedNow := v :: acc.preemptedNow
    preempted := acc.preempted ++ [v] }

/-- `i` left the queues (`rest` and `q'` remain) and runs as `seq'`. -/
def Scheduler.admitted (s : Scheduler D W) (i : SeqId) (rest : List SeqId)
    (q' : WaitQueue W) (m' : BlockManager D) (seq' : Sequence) : Scheduler D W :=
  { s.setSeq i { seq' with status := .running } with
    blockManager := m'
    preempted := rest
    waiting := q'
    running := s.running ++ [i]
    numAdmitted := s.numAdmitted + 1 }

/-- `i` grew to `seq'`. -/
def Scheduler.grown (s : Scheduler D W) (i : SeqId) (m' : BlockManager D)
    (seq' : Sequence) : Scheduler D W :=
  { s.setSeq i seq' with blockManager := m' }

/-- `i` contributed `item` of `n` tokens to the batch. -/
def StepAcc.emitted (acc : StepAcc) (i : SeqId) (n : ℕ) (item : ScheduledSeq) :
    StepAcc :=
  { acc with
    budget := ⟨acc.budget.tokens - n, acc.budget.seqs - 1⟩
    scheduledIds := i :: acc.scheduledIds
    prefills := if item.isPrefill then acc.prefills ++ [item] else acc.prefills
    decodes := if item.isPrefill then acc.decodes else acc.decodes ++ [item] }

/-- The admission of `i` was taken back: it holds nothing again. -/
def Scheduler.rolledBack (s : Scheduler D W) (i : SeqId) (m' : BlockManager D) :
    Scheduler D W :=
  { s.setSeq i { s.seqs i with numCachedPromptTokens := 0 } with blockManager := m' }

/-- The head of the admission order and what the queues hold without it. -/
inductive Popped (s : Scheduler D W) (i : SeqId) :
    List SeqId → WaitQueue W → Prop where
  | resumed {rest : List SeqId} (h : s.preempted = i :: rest) : Popped s i rest s.waiting
  | arrived {q' : WaitQueue W} (hnone : s.preempted = [])
      (hpeek : s.waiting.peek = .ok (some i)) (hpop : s.waiting.pop = .ok (i, q')) :
      Popped s i [] q'

/-- The batch entry of `n` new tokens of `seq`, grown to `seq'`. -/
structure ItemOf (seq : Sequence) (i : SeqId) (n : ℕ) (slots : List Slot)
    (seq' : Sequence) (item : ScheduledSeq) : Prop where
  seq_eq : item.seq = i
  num_eq : item.numNewTokens = n
  context_eq : item.contextLen = seq.numComputedTokens + n
  tokens_eq : item.tokenIds =
    (seq.tokenIds.take (seq.numComputedTokens + n)).drop seq.numComputedTokens
  slots_eq : item.slotMapping = slots
  table_eq : item.blockTable = seq'.blockTable
  prefill_eq : item.isPrefill = decide (seq.numComputedTokens < seq.numPromptTokens)
  chunk_eq : item.isChunk = (item.isPrefill &&
    decide (seq.numComputedTokens + n < seq.numPromptTokens))

inductive Micro : Scheduler D W × StepAcc → Scheduler D W × StepAcc → Prop where
  | preempt {s : Scheduler D W} {acc : StepAcc} (v : SeqId) (m' : BlockManager D)
      (hv : v ∈ s.running) (hnew : v ∉ acc.scheduledIds)
      (hframe : Frame s.blockManager m' v)
      (hmanager : ManagerInv m' ((s.running.erase v).map s.seqs))
      (hidx : ∀ x e, m'.allocator.indexed x = some e →
        s.blockManager.allocator.indexed x = some e ∨
          Published s.blockManager (s.seqs v) x e) :
      Micro (s, acc) (s.sentBack v m', acc.sentBack v)
  | enter {s : Scheduler D W} {acc : StepAcc} (i : SeqId) (rest : List SeqId)
      (q' : WaitQueue W) (n : ℕ) (m' : BlockManager D) (seq' : Sequence)
      (hpop : Popped s i rest q') (hnow : i ∉ acc.preemptedNow)
      (hbudget : acc.budget.exhausted = false)
      (hcan : s.blockManager.canAllocate (s.seqs i) = true)
      (hmay : s.mayRun seq' (seq'.numNewTokensToCompute acc.budget.tokens) = true)
      (hadopted : Adopted s.blockManager (s.seqs i) n seq')
      (hframe : Frame s.blockManager m' i)
      (hmanager : ManagerInv m' (seq' :: s.runningSeqs))
      (hidx : ∀ x, m'.allocator.indexed x = s.blockManager.allocator.indexed x) :
      Micro (s, acc) (s.admitted i rest q' m' seq',
        { acc with numCachedTokens := acc.numCachedTokens + n })
  | grow {s : Scheduler D W} {acc : StepAcc} (i : SeqId) (n : ℕ) (slots : List Slot)
      (m' : BlockManager D) (seq' : Sequence) (item : ScheduledSeq)
      (hi : i ∈ s.running) (hnew : i ∉ acc.scheduledIds)
      (hbudget : acc.budget.exhausted = false)
      (hn : n = (s.seqs i).numNewTokensToCompute acc.budget.tokens)
      (hmay : s.mayRun (s.seqs i) n = true)
      (hgrown : Grown s.blockManager m' (s.seqs i) n slots seq')
      (hframe : Frame s.blockManager m' i)
      (hmanager : ManagerInv m' (advanced seq' n :: (s.running.erase i).map s.seqs))
      (hitem : ItemOf (s.seqs i) i n slots seq' item) :
      Micro (s, acc) (s.grown i m' (advanced seq' n), acc.emitted i n item)
  | rollback {s : Scheduler D W} {acc : StepAcc} (i : SeqId) (m' : BlockManager D)
      (hi : i ∈ s.preempted ++ s.waiting.toList)
      (hframe : Frame s.blockManager m' i) (hmanager : ManagerInv m' s.runningSeqs)
      (hidx : ∀ x e, m'.allocator.indexed x = some e →
        s.blockManager.allocator.indexed x = some e) :
      Micro (s, acc) (s.rolledBack i m', acc)

/-! ## §2  What holds in the middle of a step -/

/-- What a batch entry says about the sequence it belongs to. -/
structure EntryOk (s : Scheduler D W) (item : ScheduledSeq) : Prop where
  running : item.seq ∈ s.running
  table_eq : item.blockTable = (s.seqs item.seq).blockTable
  context_eq : item.contextLen = (s.seqs item.seq).numComputedTokens
  tokens_eq : item.tokenIds =
    ((s.seqs item.seq).tokenIds.take item.contextLen).drop item.start
  slots_eq : item.slotMapping =
    item.positions.map (slotAt s.blockManager.blockSize item.blockTable)
  prefill_eq : item.isPrefill =
    decide (item.start < (s.seqs item.seq).numPromptTokens)
  chunk_eq : item.isChunk = (item.isPrefill &&
    decide (item.contextLen < (s.seqs item.seq).numPromptTokens))
  published : ∃ st, s.blockManager.state item.seq = some st ∧
    st.numPublished * s.blockManager.blockSize ≤ item.start

/-- The batch so far. -/
def StepAcc.entries (acc : StepAcc) : List ScheduledSeq := acc.prefills ++ acc.decodes

structure StepInv (s : Scheduler D W) (acc : StepAcc) : Prop where
  inv : Inv s
  entries : ∀ item ∈ acc.entries, EntryOk s item
  ids : (acc.entries.map (·.seq)).Perm acc.scheduledIds
  nodup : acc.scheduledIds.Nodup
  prefills : ∀ item ∈ acc.prefills, item.isPrefill = true
  decodes : ∀ item ∈ acc.decodes, item.isPrefill = false
  tokens : acc.budget.tokens + (acc.entries.map (·.numNewTokens)).sum =
    s.config.maxNumBatchedTokens
  seqs : acc.budget.seqs + acc.scheduledIds.length = s.config.maxNumSeqs
  preemptedNow : ∀ i ∈ acc.preemptedNow, i ∈ s.preempted

theorem StepInv.init {s : Scheduler D W} (h : Inv s) :
    StepInv s (StepAcc.init s.config) where
  inv := h
  entries := by simp [StepAcc.entries, StepAcc.init]
  ids := by simp [StepAcc.entries, StepAcc.init]
  nodup := List.nodup_nil
  prefills := by simp [StepAcc.init]
  decodes := by simp [StepAcc.init]
  tokens := by simp [StepAcc.entries, StepAcc.init]
  seqs := by simp [StepAcc.init]
  preemptedNow := by simp [StepAcc.init]

/-! ## §3  Small steps keep the scheduler's invariant -/

/-- The parts of `Inv` that do not depend on which queue a sequence is on. -/
theorem Inv.of_rearranged {s s' : Scheduler D W} (h : Inv s)
    (hflight : s'.inFlight.Perm s.inFlight)
    (hproj : ∀ j, (s'.seqs j).seqId = (s.seqs j).seqId ∧
      (s'.seqs j).requestId = (s.seqs j).requestId ∧
      (s'.seqs j).tenantId = (s.seqs j).tenantId)
    (hreq : s'.byRequest = s.byRequest) (hcount : s'.seqCounter = s.seqCounter)
    (hconfig : s'.config = s.config)
    (hbs : s'.blockManager.blockSize = s.blockManager.blockSize)
    (hmanager : ManagerInv s'.blockManager s'.runningSeqs)
    (hqueue : QueueInv s'.waiting fun j => (s.seqs j).tenantId)
    (hrun : ∀ i ∈ s'.running, (s'.seqs i).status = .running)
    (hpre : ∀ i ∈ s'.preempted, (s'.seqs i).status = .preempted)
    (hwait : ∀ i ∈ s'.waiting.toList, (s'.seqs i).status = .waiting)
    (hidle : ∀ i ∈ s'.preempted ++ s'.waiting.toList, Idle (s'.seqs i)) :
    Inv s' where
  blockSize_eq := by rw [hbs, hconfig]; exact h.blockSize_eq
  manager := hmanager
  queue := hqueue.congr fun j _ => (hproj j).2.2
  nodup := hflight.nodup_iff.mpr h.nodup
  ids i hi := (hproj i).1.trans (h.ids i (hflight.mem_iff.mp hi))
  counter i hi := hcount ▸ h.counter i (hflight.mem_iff.mp hi)
  running_status := hrun
  preempted_status := hpre
  waiting_status := hwait
  idle := hidle
  requests := by
    rw [hreq]
    refine (h.requests.trans (hflight.symm.map _)).trans (List.Perm.of_eq ?_)
    exact List.map_congr_left fun j _ => by rw [(hproj j).2.1]
  requests_nodup := hreq ▸ h.requests_nodup

/-- A one-point update that keeps the identity fields. -/
theorem update_proj {seqs : SeqId → Sequence} {i : SeqId} {seq' : Sequence}
    (hid : seq'.seqId = (seqs i).seqId) (hrid : seq'.requestId = (seqs i).requestId)
    (htenant : seq'.tenantId = (seqs i).tenantId) (j : SeqId) :
    (Function.update seqs i seq' j).seqId = (seqs j).seqId ∧
      (Function.update seqs i seq' j).requestId = (seqs j).requestId ∧
      (Function.update seqs i seq' j).tenantId = (seqs j).tenantId := by
  by_cases hji : j = i
  · rw [hji, Function.update_self]
    exact ⟨hid, hrid, htenant⟩
  · rw [Function.update_of_ne hji]
    exact ⟨rfl, rfl, rfl⟩

variable {s : Scheduler D W} {acc : StepAcc}

theorem sentBack_inv (h : Inv s) {v : SeqId} {m' : BlockManager D} (hv : v ∈ s.running)
    (hframe : Frame s.blockManager m' v)
    (hmanager : ManagerInv m' ((s.running.erase v).map s.seqs)) :
    Inv (s.sentBack v m') := by
  have hother : ∀ j, j ≠ v → (s.sentBack v m').seqs j = s.seqs j := fun j hj =>
    Function.update_of_ne hj _ _
  have hself : (s.sentBack v m').seqs v = (s.seqs v).resetForRecompute :=
    Function.update_self _ _ _
  refine h.of_rearranged ?_ (update_proj rfl rfl rfl) rfl rfl rfl hframe.blockSize_eq
    ?_ h.queue ?_ ?_ ?_ ?_
  · show (s.running.erase v ++ ((s.preempted ++ [v]) ++ s.waiting.toList)).Perm
      s.inFlight
    rw [List.append_assoc, ← List.append_assoc, List.singleton_append]
    refine List.perm_middle.trans ?_
    rw [← List.cons_append, ← List.cons_append, List.append_assoc]
    exact (List.perm_cons_erase hv).symm.append_right _
  · show ManagerInv m' ((s.running.erase v).map (Function.update s.seqs v _))
    rw [map_update_erase h.running_nodup]
    exact hmanager
  · intro j hj
    obtain ⟨hne, hj⟩ := h.running_nodup.mem_erase_iff.mp hj
    rw [hother j hne]
    exact h.running_status j hj
  · intro j hj
    by_cases hjv : j = v
    · rw [hjv, hself]
      rfl
    · rw [hother j hjv]
      have : j ∈ s.preempted := (List.mem_append.mp hj).resolve_right
        fun hm => hjv (List.mem_singleton.mp hm)
      exact h.preempted_status j this
  · intro j hj
    have hne : j ≠ v := fun heq => h.not_waiting hv (heq ▸ hj)
    rw [hother j hne]
    exact h.waiting_status j hj
  · intro j hj
    by_cases hjv : j = v
    · rw [hjv, hself]
      exact ⟨rfl, rfl⟩
    · rw [hother j hjv]
      refine h.idle j ?_
      rcases List.mem_append.mp hj with hj | hj
      · exact List.mem_append_left _ ((List.mem_append.mp hj).resolve_right
          fun hm => hjv (List.mem_singleton.mp hm))
      · exact List.mem_append_right _ hj

/-- What is left of the queues after the head has been taken off. -/
theorem Popped.spec (h : Inv s) {i : SeqId} {rest : List SeqId} {q' : WaitQueue W}
    (hp : Popped s i rest q') :
    i ∈ s.preempted ++ s.waiting.toList ∧
      (s.preempted ++ s.waiting.toList).Perm (i :: (rest ++ q'.toList)) ∧
      QueueInv q' (fun j => (s.seqs j).tenantId) ∧
      (∀ j ∈ rest, j ∈ s.preempted) ∧ (∀ j ∈ q'.toList, j ∈ s.waiting.toList) := by
  cases hp with
  | @resumed rest hcons =>
      rw [hcons]
      refine ⟨by simp, List.Perm.refl _, h.queue, ?_, fun _ => id⟩
      exact fun j hj => List.mem_cons_of_mem _ hj
  | @arrived q' hnone hpeek hpop =>
      rcases WaitQueue.peek_spec h.queue h.waiting_nodup with ⟨hnil, -⟩ | hhead
      · rw [hnil] at hpeek
        cases hpeek
      · obtain ⟨j, q'', hpeek', hmem, hpop', hq, hlist⟩ := hhead
        rw [hpop] at hpop'
        obtain ⟨rfl, rfl⟩ : i = j ∧ q' = q'' := by
          injection hpop' with heq
          injection heq with h₁ h₂
          exact ⟨h₁, h₂⟩
        rw [hnone, List.nil_append, List.nil_append, hlist]
        refine ⟨hmem, List.perm_cons_erase hmem, hq, by simp, ?_⟩
        exact fun j hj => List.mem_of_mem_erase hj

theorem not_running_of_queued (h : Inv s) {i : SeqId}
    (hi : i ∈ s.preempted ++ s.waiting.toList) : i ∉ s.running := fun hr =>
  (List.nodup_append'.mp h.nodup).2.2 hr hi

omit [BlockDigest D] in
theorem inFlight_of_queued {i : SeqId} (hi : i ∈ s.preempted ++ s.waiting.toList) :
    i ∈ s.inFlight := List.mem_append_right _ hi

theorem admitted_inv (h : Inv s) {i : SeqId} {rest : List SeqId} {q' : WaitQueue W}
    {n : ℕ} {m' : BlockManager D} {seq' : Sequence} (hp : Popped s i rest q')
    (hadopted : Adopted s.blockManager (s.seqs i) n seq')
    (hframe : Frame s.blockManager m' i)
    (hmanager : ManagerInv m' (seq' :: s.runningSeqs)) :
    Inv (s.admitted i rest q' m' seq') := by
  obtain ⟨hi, hperm, hq, hrest, hqsub⟩ := hp.spec h
  have hnr := not_running_of_queued h hi
  have hnd := (List.nodup_append'.mp h.nodup).2.1
  have hnotrest : i ∉ rest ++ q'.toList :=
    (List.nodup_cons.mp (hperm.nodup_iff.mp hnd)).1
  have hother : ∀ j, j ≠ i → (s.admitted i rest q' m' seq').seqs j = s.seqs j :=
    fun j hj => Function.update_of_ne hj _ _
  have hself : (s.admitted i rest q' m' seq').seqs i =
      { seq' with status := .running } := Function.update_self _ _ _
  have hadj := hadopted.seq_eq
  refine h.of_rearranged ?_ (update_proj (by rw [hadj]) (by rw [hadj]) (by rw [hadj]))
    rfl rfl rfl hframe.blockSize_eq ?_ hq ?_ ?_ ?_ ?_
  · show ((s.running ++ [i]) ++ (rest ++ q'.toList)).Perm s.inFlight
    rw [List.append_assoc]
    exact (hperm.symm.append_left s.running)
  · show ManagerInv m' ((s.running ++ [i]).map (Function.update s.seqs i _))
    rw [List.map_append, map_update_of_not_mem hnr, List.map_singleton,
      Function.update_self]
    refine ManagerInv.perm ?_ List.perm_append_comm.symm
    exact hmanager.head_congr rfl rfl rfl rfl rfl rfl
  · intro j hj
    by_cases hji : j = i
    · rw [hji, hself]
    · rw [hother j hji]
      exact h.running_status j ((List.mem_append.mp hj).resolve_right
        fun hm => hji (List.mem_singleton.mp hm))
  · intro j hj
    have hne : j ≠ i := fun heq => hnotrest (List.mem_append_left _ (heq ▸ hj))
    rw [hother j hne]
    exact h.preempted_status j (hrest j hj)
  · intro j hj
    have hne : j ≠ i := fun heq => hnotrest (List.mem_append_right _ (heq ▸ hj))
    rw [hother j hne]
    exact h.waiting_status j (hqsub j hj)
  · intro j hj
    have hne : j ≠ i := fun heq => hnotrest (heq ▸ hj)
    rw [hother j hne]
    refine h.idle j ?_
    rcases List.mem_append.mp hj with hj | hj
    · exact List.mem_append_left _ (hrest j hj)
    · exact List.mem_append_right _ (hqsub j hj)

theorem grown_inv (h : Inv s) {i : SeqId} {n : ℕ} {slots : List Slot}
    {m' : BlockManager D} {seq' : Sequence} (hi : i ∈ s.running)
    (hgrown : Grown s.blockManager m' (s.seqs i) n slots seq')
    (hframe : Frame s.blockManager m' i)
    (hmanager : ManagerInv m' (advanced seq' n :: (s.running.erase i).map s.seqs)) :
    Inv (s.grown i m' (advanced seq' n)) := by
  have heq := hgrown.seq_eq
  have hother : ∀ j, j ≠ i → (s.grown i m' (advanced seq' n)).seqs j = s.seqs j :=
    fun j hj => Function.update_of_ne hj _ _
  have hself : (s.grown i m' (advanced seq' n)).seqs i = advanced seq' n :=
    Function.update_self _ _ _
  refine h.of_rearranged (List.Perm.refl _)
    (update_proj (by rw [heq]) (by rw [heq]) (by rw [heq])) rfl rfl rfl
    hframe.blockSize_eq (ManagerInv.of_update h.running_nodup hi hmanager) h.queue
    ?_ ?_ ?_ ?_
  · intro j hj
    by_cases hji : j = i
    · rw [hji, hself, heq]
      exact h.running_status i hi
    · rw [hother j hji]
      exact h.running_status j hj
  · intro j hj
    rw [hother j fun hji => h.not_preempted hi (hji ▸ hj)]
    exact h.preempted_status j hj
  · intro j hj
    rw [hother j fun hji => h.not_waiting hi (hji ▸ hj)]
    exact h.waiting_status j hj
  · intro j hj
    rw [hother j fun hji => not_running_of_queued h hj (hji ▸ hi)]
    exact h.idle j hj

theorem rolledBack_inv (h : Inv s) {i : SeqId} {m' : BlockManager D}
    (hi : i ∈ s.preempted ++ s.waiting.toList) (hframe : Frame s.blockManager m' i)
    (hmanager : ManagerInv m' s.runningSeqs) : Inv (s.rolledBack i m') := by
  have hnr := not_running_of_queued h hi
  have hproj : ∀ j, ((s.rolledBack i m').seqs j).status = (s.seqs j).status ∧
      (Idle (s.seqs j) → Idle ((s.rolledBack i m').seqs j)) := by
    intro j
    show (Function.update s.seqs i _ j).status = _ ∧
      (_ → Idle (Function.update s.seqs i _ j))
    by_cases hji : j = i
    · rw [hji, Function.update_self]
      exact ⟨rfl, id⟩
    · rw [Function.update_of_ne hji]
      exact ⟨rfl, id⟩
  refine h.of_rearranged (List.Perm.refl _) (update_proj rfl rfl rfl) rfl rfl rfl
    hframe.blockSize_eq ?_ h.queue ?_ ?_ ?_ ?_
  · show ManagerInv m' (s.running.map (Function.update s.seqs i _))
    rw [map_update_of_not_mem hnr]
    exact hmanager
  · exact fun j hj => (hproj j).1.trans (h.running_status j hj)
  · exact fun j hj => (hproj j).1.trans (h.preempted_status j hj)
  · exact fun j hj => (hproj j).1.trans (h.waiting_status j hj)
  · exact fun j hj => (hproj j).2 (h.idle j hj)

end TurboServe.Core
