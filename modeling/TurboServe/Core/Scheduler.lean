import TurboServe.Core.BlockManager
import TurboServe.Core.WaitQueue

/-!
# The scheduler

`engine/core/scheduler.py`: continuous batching with chunked prefill and
recompute preemption. `schedule` publishes the blocks of the previous step,
gives every running sequence its next tokens, resumes preempted sequences and
admits waiting ones, and returns the batch as a `SchedulerOutput`.

The scheduler's queues, its request index and its outputs hold identities;
`seqs` is the store of the sequence objects they refer to. Objects that left
the scheduler stay in the store, as they stay alive in the source.
-/

namespace TurboServe.Core

/-! ## §1  One step's batch -/

/-- One sequence's share of one step, a snapshot. The four checks of
`__post_init__` are fields. -/
structure ScheduledSeq where
  seq : SeqId
  numNewTokens : ℕ
  contextLen : ℕ
  tokenIds : List TokenId
  slotMapping : List Slot
  blockTable : List BlockId
  isPrefill : Bool
  isChunk : Bool
  numCachedTokens : ℕ
  numNewTokens_pos : 1 ≤ numNewTokens
  length_tokenIds : tokenIds.length = numNewTokens
  length_slotMapping : slotMapping.length = numNewTokens
  le_contextLen : numNewTokens ≤ contextLen

namespace ScheduledSeq

def create (seq : SeqId) (numNewTokens contextLen : ℕ) (tokenIds : List TokenId)
    (slotMapping : List Slot) (blockTable : List BlockId)
    (isPrefill isChunk : Bool) (numCachedTokens : ℕ) :
    Except Fault ScheduledSeq :=
  if h₁ : 1 ≤ numNewTokens then
    if h₂ : tokenIds.length = numNewTokens then
      if h₃ : slotMapping.length = numNewTokens then
        if h₄ : numNewTokens ≤ contextLen then
          .ok ⟨seq, numNewTokens, contextLen, tokenIds, slotMapping, blockTable,
            isPrefill, isChunk, numCachedTokens, h₁, h₂, h₃, h₄⟩
        else .error (.scheduledContext contextLen numNewTokens)
      else .error (.scheduledSlots slotMapping.length numNewTokens)
    else .error (.scheduledTokenIds tokenIds.length numNewTokens)
  else .error .scheduledEmpty

variable (item : ScheduledSeq)

/-- First position this step computes for the sequence. -/
def start : ℕ := item.contextLen - item.numNewTokens

/-- Whether a token is sampled from the sequence's last position. -/
def samplesToken : Bool := !item.isChunk

def positions : List ℕ := List.range' item.start item.numNewTokens

end ScheduledSeq

/-- The complete description of one step, prefills first, then decodes. -/
structure SchedulerOutput where
  scheduled : List ScheduledSeq
  preempted : List SeqId
  numPrefillTokens : ℕ
  numDecodeTokens : ℕ
  numPrefillSeqs : ℕ
  numDecodeSeqs : ℕ
  numCachedTokens : ℕ

namespace SchedulerOutput

variable (out : SchedulerOutput)

def numBatchedTokens : ℕ := out.numPrefillTokens + out.numDecodeTokens

def numSeqs : ℕ := out.scheduled.length

def isEmpty : Bool := out.scheduled.isEmpty

/-- The entries that produce a token this step. -/
def sampled : List ScheduledSeq := out.scheduled.filter (·.samplesToken)

/-- The loop of `sample_indices`, `offset` tokens into the packed batch. -/
def sampleIndicesFrom : ℕ → List ScheduledSeq → List ℕ
  | _, [] => []
  | offset, item :: rest =>
      let offset' := offset + item.numNewTokens
      if item.samplesToken then (offset' - 1) :: sampleIndicesFrom offset' rest
      else sampleIndicesFrom offset' rest

def sampleIndices : List ℕ := sampleIndicesFrom 0 out.scheduled

def inputTokenIds : List TokenId := out.scheduled.flatMap (·.tokenIds)

def positions : List ℕ := out.scheduled.flatMap (·.positions)

end SchedulerOutput

/-- What is left of the step's two limits. -/
structure Budget where
  tokens : ℕ
  seqs : ℕ

def Budget.exhausted (b : Budget) : Bool := decide (b.tokens = 0 ∨ b.seqs = 0)

/-- The locals of one `schedule()` call that its helpers share. -/
structure StepAcc where
  budget : Budget
  scheduledIds : List SeqId
  prefills : List ScheduledSeq
  decodes : List ScheduledSeq
  preemptedNow : List SeqId
  preempted : List SeqId
  numCachedTokens : ℕ

/-- The batch a finished step hands to the runtime. -/
def StepAcc.toOutput (acc : StepAcc) : SchedulerOutput :=
  { scheduled := acc.prefills ++ acc.decodes
    preempted := acc.preempted
    numPrefillTokens := (acc.prefills.map (·.numNewTokens)).sum
    numDecodeTokens := (acc.decodes.map (·.numNewTokens)).sum
    numPrefillSeqs := acc.prefills.length
    numDecodeSeqs := acc.decodes.length
    numCachedTokens := acc.numCachedTokens }

/-- The accumulator `schedule()` starts from. -/
def StepAcc.init {W : Type} [VirtualTime W] (config : SchedulerConfig W) : StepAcc :=
  { budget := ⟨config.maxNumBatchedTokens, config.maxNumSeqs⟩
    scheduledIds := [], prefills := [], decodes := [], preemptedNow := [],
    preempted := [], numCachedTokens := 0 }

/-! ## §2  The scheduler's state -/

structure Scheduler (D W : Type) [VirtualTime W] where
  config : SchedulerConfig W
  blockManager : BlockManager D
  seqs : SeqId → Sequence
  waiting : WaitQueue W
  preempted : List SeqId
  running : List SeqId
  byRequest : List (String × SeqId)
  seqCounter : ℕ
  numSteps : ℕ
  numPreemptions : ℕ
  numFinished : ℕ
  numAdmitted : ℕ
  numPrefillTokens : ℕ
  numDecodeTokens : ℕ
  numCachedTokens : ℕ

namespace Scheduler

variable {D W : Type} [BlockDigest D] [DecidableEq D] [VirtualTime W]

/-- The constructor: without a block manager the pool must be sized by the
configuration; with one, the two block sizes must agree. -/
def create (config : SchedulerConfig W) (blockManager : Option (BlockManager D)) :
    Except Fault (Scheduler D W) := do
  let bm ← (match blockManager, config.numBlocks with
    | some bm, _ => .ok bm
    | none, some n =>
        .ok (BlockManager.create D n config.blockSize config.enablePrefixCaching)
    | none, none => .error .poolUnsized)
  if bm.blockSize ≠ config.blockSize then
    .error (.blockSizeDisagrees bm.blockSize config.blockSize)
  else
    return { config := config, blockManager := bm, seqs := fun _ => default,
             waiting := WaitQueue.new (decide (config.policy = .tenantFair))
               config.tenantWeights
             preempted := [], running := [], byRequest := [], seqCounter := 0,
             numSteps := 0, numPreemptions := 0, numFinished := 0,
             numAdmitted := 0, numPrefillTokens := 0, numDecodeTokens := 0,
             numCachedTokens := 0 }

variable (s : Scheduler D W)

def setSeq (i : SeqId) (seq : Sequence) : Scheduler D W :=
  { s with seqs := Function.update s.seqs i seq }

def hasUnfinished : Bool := !s.byRequest.isEmpty

def getSequence (requestId : String) : Option SeqId := s.byRequest.lookup requestId

/-- Every in-flight identity, queue by queue. -/
def inFlight : List SeqId := s.running ++ (s.preempted ++ s.waiting.toList)

/-! ## §3  Request lifecycle -/

/-- Queue an already-constructed sequence, refusing what could never run. -/
def addSequence (seq : Sequence) : Except Fault (Scheduler D W) :=
  let capacity := s.blockManager.allocator.numBlocks
  let needed := seq.numBlocksNeeded s.config.blockSize
  if (s.getSequence seq.requestId).isSome then
    .error (.alreadyInFlight seq.requestId)
  else if needed > capacity then
    .error (.poolTooSmall seq.requestId needed capacity)
  else if s.config.enableChunkedPrefill = false ∧
      seq.numTokens > s.config.maxNumBatchedTokens then
    .error (.promptOverBudget seq.requestId seq.numTokens
      s.config.maxNumBatchedTokens)
  else .ok
    { s with
      seqs := Function.update s.seqs seq.seqId { seq with status := .waiting }
      byRequest := s.byRequest ++ [(seq.requestId, seq.seqId)]
      waiting := s.waiting.push seq.seqId seq.tenantId }

/-- What a caller of `add_request` supplies. -/
structure Request where
  requestId : String
  promptTokenIds : List TokenId
  sampling : SamplingParams := {}
  tenantId : String := defaultTenant
  priority : ℤ := 0
  loraId : ℤ := noLora

/-- Queue a new request. The counter is consumed before the constructor and
`add_sequence` may refuse, so the scheduler after a refusal is returned too. -/
def addRequest (r : Request) : Except Fault SeqId × Scheduler D W :=
  if (s.getSequence r.requestId).isSome then
    (.error (.alreadyInFlight r.requestId), s)
  else
    let id := s.seqCounter
    let s' := { s with seqCounter := s.seqCounter + 1 }
    match Sequence.create id r.requestId r.promptTokenIds r.sampling r.tenantId
        r.priority r.loraId [] with
    | .error e => (.error e, s')
    | .ok seq =>
        match s'.addSequence seq with
        | .error e => (.error e, s')
        | .ok s'' => (.ok id, s'')

/-- `_detach`: remove a sequence from every queue and from the request index. -/
def detach (i : SeqId) : Scheduler D W :=
  let seq := s.seqs i
  let s' :=
    if i ∈ s.running then { s with running := s.running.erase i }
    else if i ∈ s.preempted then { s with preempted := s.preempted.erase i }
    else { s with waiting := (s.waiting.remove i seq.tenantId).2 }
  { s' with
    byRequest := s'.byRequest.filter fun p => decide (p.1 ≠ seq.requestId) }

/-- Retire a sequence: mark it finished, free its blocks, drop it from every
queue. -/
def finish (i : SeqId) (reason : FinishReason) (stopTokenId : Option TokenId) :
    Except Fault (Scheduler D W) := do
  let freed ← s.blockManager.free ((s.seqs i).finish reason stopTokenId)
  let s' := { s.setSeq i freed.2 with blockManager := freed.1 }
  .ok { s'.detach i with numFinished := s.numFinished + 1 }

/-- Cancel a request wherever it is. -/
def abort (requestId : String) : Except Fault (Bool × Scheduler D W) :=
  match s.getSequence requestId with
  | none => .ok (false, s)
  | some i => do
      let s' ← s.finish i .abort none
      .ok (true, s')

/-- Record a sampled token and retire the sequence if it just stopped. -/
def appendToken (i : SeqId) (tokenId : TokenId) (eosTokenId : Option TokenId) :
    Except Fault (Option FinishReason × Scheduler D W) := do
  let seq ← (s.seqs i).appendToken tokenId
  let s' := s.setSeq i seq
  match seq.checkStop tokenId eosTokenId with
  | none => .ok (none, s')
  | some reason => do
      let s'' ← s'.finish i reason
        (if reason = .stop then some tokenId else none)
      .ok (some reason, s'')

/-- Drop every request and return the whole KV pool. -/
def reset : Scheduler D W :=
  { s with
    waiting := s.waiting.clear, preempted := [], running := [], byRequest := [],
    blockManager := s.blockManager.reset }

/-! ## §4  Preemption -/

/-- The key order `(priority, -seq_id)`. -/
def victimLt (i j : SeqId) : Bool :=
  decide ((s.seqs i).priority < (s.seqs j).priority ∨
    (s.seqs i).priority = (s.seqs j).priority ∧
      (s.seqs j).seqId < (s.seqs i).seqId)

/-- The running sequences `_pick_victim` chooses from: those already scheduled
in this step are off limits. -/
def victimCandidates (acc : StepAcc) (requester : SeqId) : List SeqId :=
  s.running.filter fun i =>
    decide (i ≠ requester ∧ (s.seqs i).seqId ∉ acc.scheduledIds ∧
      (s.seqs i).status = .running)

/-- Lowest priority first, then the most recently admitted. -/
def pickVictim (acc : StepAcc) (requester : SeqId) : Option SeqId :=
  Lib.minBy s.victimLt (s.victimCandidates acc requester)

/-- `_preempt`: take a sequence's blocks and send it back to the queue. -/
def preempt (acc : StepAcc) (i : SeqId) :
    Except Fault (Scheduler D W × StepAcc) := do
  let freed ← s.blockManager.preempt (s.seqs i)
  .ok
    ({ s.setSeq i freed.2 with
        blockManager := freed.1
        running := s.running.erase i
        preempted := s.preempted ++ [i]
        numPreemptions := s.numPreemptions + 1 },
      { acc with
        preemptedNow := (s.seqs i).seqId :: acc.preemptedNow
        preempted := acc.preempted ++ [i] })

/-- `_make_room`: preempt until `i` can grow by `n` tokens. `false` means `i`
itself went back to the queue. -/
def makeRoom (s : Scheduler D W) (acc : StepAcc) (i : SeqId) (n : ℕ) :
    ℕ → Except Fault (Bool × Scheduler D W × StepAcc)
  | 0 => .error .loopFuel
  | fuel + 1 =>
      if s.blockManager.canAppend (s.seqs i) n then .ok (true, s, acc)
      else
        match s.pickVictim acc i with
        | none => do
            let r ← s.preempt acc i
            .ok (false, r)
        | some victim => do
            let r ← s.preempt acc victim
            makeRoom r.1 r.2 i n fuel

/-! ## §5  The step -/

/-- `_emit`: allocate the slots for `n` tokens and record the sequence in the
batch. -/
def emit (acc : StepAcc) (i : SeqId) (n cached : ℕ) :
    Except Fault (Scheduler D W × StepAcc) := do
  let seq := s.seqs i
  let start := seq.numComputedTokens
  let stop := start + n
  let grown ← s.blockManager.appendSlots seq n
  let seq' := grown.2.2
  let isPrefill := decide (start < seq.numPromptTokens)
  let toks ← seq'.tokensInRange start stop
  let item ← ScheduledSeq.create i n stop toks grown.1 seq'.blockTable isPrefill
    (isPrefill && decide (stop < seq.numPromptTokens)) cached
  let seq'' ← seq'.advanceComputed n
  .ok
    ({ s.setSeq i seq'' with blockManager := grown.2.1 },
      { acc with
        budget := ⟨acc.budget.tokens - n, acc.budget.seqs - 1⟩
        scheduledIds := seq.seqId :: acc.scheduledIds
        prefills := if isPrefill then acc.prefills ++ [item] else acc.prefills
        decodes := if isPrefill then acc.decodes else acc.decodes ++ [item] })

/-- Whether a sequence may run with `n` tokens now: at least one, and the whole
rest of it when chunked prefill is off. -/
def mayRun (seq : Sequence) (n : ℕ) : Bool :=
  decide (0 < n ∧ (s.config.enableChunkedPrefill = true ∨
    seq.numUncomputedTokens ≤ n))

/-- `_schedule_running`, over the snapshot of the running list. -/
def scheduleRunning (s : Scheduler D W) (acc : StepAcc) :
    List SeqId → Except Fault (Scheduler D W × StepAcc)
  | [] => .ok (s, acc)
  | i :: rest =>
      if acc.budget.exhausted then .ok (s, acc)
      else if (s.seqs i).status ≠ .running then scheduleRunning s acc rest
      else
        let n := (s.seqs i).numNewTokensToCompute acc.budget.tokens
        if s.mayRun (s.seqs i) n = false then scheduleRunning s acc rest
        else do
          let room ← s.makeRoom acc i n (s.running.length + 1)
          if room.1 then
            let r ← room.2.1.emit room.2.2 i n 0
            scheduleRunning r.1 r.2 rest
          else scheduleRunning room.2.1 room.2.2 rest

/-- The head of the admission order: preempted sequences first. -/
def nextQueued : Except Fault (Option (Bool × SeqId)) :=
  match s.preempted with
  | i :: _ => .ok (some (true, i))
  | [] => do
      let head ← s.waiting.peek
      .ok (head.map fun i => (false, i))

/-- Take the head off the queue it came from. -/
def popQueued (fromPreempted : Bool) : Except Fault (Scheduler D W) :=
  if fromPreempted then .ok { s with preempted := s.preempted.tail }
  else do
    let r ← s.waiting.pop
    .ok { s with waiting := r.2 }

/-- `_schedule_admissions`: resume preempted sequences, then admit new ones,
while the budgets allow. -/
def scheduleAdmissions (s : Scheduler D W) (acc : StepAcc) :
    ℕ → Except Fault (Scheduler D W × StepAcc)
  | 0 => if acc.budget.exhausted then .ok (s, acc) else .error .loopFuel
  | fuel + 1 =>
      if acc.budget.exhausted then .ok (s, acc)
      else do
        match ← s.nextQueued with
        | none => .ok (s, acc)
        | some (fromPreempted, i) =>
            if (s.seqs i).seqId ∈ acc.preemptedNow then .ok (s, acc)
            else if s.blockManager.canAllocate (s.seqs i) = false then .ok (s, acc)
            else do
              let got ← s.blockManager.allocate (s.seqs i)
              let s₁ := { s.setSeq i got.2.2 with blockManager := got.2.1 }
              let n := got.2.2.numNewTokensToCompute acc.budget.tokens
              if s.mayRun got.2.2 n = false then do
                let put ← got.2.1.release got.2.2
                .ok ({ s₁.setSeq i put.2 with blockManager := put.1 }, acc)
              else do
                let s₂ ← s₁.popQueued fromPreempted
                let s₃ :=
                  { s₂.setSeq i { got.2.2 with status := .running } with
                    running := s₂.running ++ [i]
                    numAdmitted := s₂.numAdmitted + 1 }
                let r ← s₃.emit
                  { acc with numCachedTokens := acc.numCachedTokens + got.1 }
                  i n got.1
                scheduleAdmissions r.1 r.2 fuel

/-- Publish the completed blocks of every sequence in the list. -/
def publishAll (s : Scheduler D W) : List SeqId → Except Fault (Scheduler D W)
  | [] => .ok s
  | i :: rest => do
      let r ← s.blockManager.publishComputedBlocks (s.seqs i)
      publishAll { s with blockManager := r.2 } rest

/-- Assemble the next batch. -/
def schedule : Except Fault (SchedulerOutput × Scheduler D W) := do
  let s₀ ← s.publishAll s.running
  let r₁ ← s₀.scheduleRunning (StepAcc.init s.config) s₀.running
  let r₂ ← r₁.1.scheduleAdmissions r₁.2 r₁.2.budget.seqs
  let out := r₂.2.toOutput
  .ok (out, { r₂.1 with
    numSteps := r₂.1.numSteps + 1
    numPrefillTokens := r₂.1.numPrefillTokens + out.numPrefillTokens
    numDecodeTokens := r₂.1.numDecodeTokens + out.numDecodeTokens
    numCachedTokens := r₂.1.numCachedTokens + out.numCachedTokens })

end Scheduler

end TurboServe.Core
