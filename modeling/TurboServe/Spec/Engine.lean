import TurboServe.Core.StepLoop

/-!
# The speculative step

`SpeculativeLLMEngine` of `engine/spec/spec_engine.py`: a step's decoding sequences
are extended by their drafts as far as the pool funds them (`_fund`, `_extend`), one
forward pass scores every position, each extension is undone (`_rollback`), and the
verified tokens are fed back one at a time (`_process`), the computed count following
up to a cap.

The drafter and the outcome of every verification are parameters. What a failed check
of the verification raises is `SpecFault.logitRows`; every other fault is one of the
engine core.
-/

namespace TurboServe.Spec

open TurboServe.Core

/-! ## §1  Verification -/

/-- `Verification`: the accepted tokens are a prefix of the draft, and one token more is
always emitted. -/
structure Verification (drafts : List TokenId) where
  acceptedTokens : List TokenId
  bonusToken : TokenId
  accepted_isPrefix : acceptedTokens <+: drafts

namespace Verification

variable {drafts : List TokenId} (v : Verification drafts)

def numAccepted : ℕ := v.acceptedTokens.length

/-- The tokens to append to the sequence, in order. -/
def tokens : List TokenId := v.acceptedTokens ++ [v.bonusToken]

end Verification

/-- The verdict on a draft: any outcome the acceptance rule could have. -/
abbrev Verifier : Type := Sequence → (drafts : List TokenId) → Verification drafts

inductive SpecFault where
  | core (e : Fault)
  /-- `ValueError: target_logits must be [num_drafted + 1, vocab]` -/
  | logitRows (rows numDrafted : ℕ)

/-- A call into the engine core. -/
def lift {α : Type} : Except Fault α → Except SpecFault α
  | .ok a => .ok a
  | .error e => .error (.core e)

/-! ## §2  Funding -/

/-- The loop of `_fund`, from `allowed` down: the first length that fits, with the
blocks it needs. -/
def fundLoop (blockSize computed tableLen : ℕ) (allocatable : ℤ) : ℕ → Option (ℕ × ℕ)
  | 0 => none
  | allowed + 1 =>
      let stop := computed + (allowed + 1)
      let needed := stop ⌈/⌉ blockSize - tableLen
      if (needed : ℤ) ≤ allocatable then some (allowed + 1, needed)
      else fundLoop blockSize computed tableLen allocatable allowed

/-- One decoding sequence after `_extend`. -/
structure Verified where
  item : ScheduledSeq
  verifyItem : ScheduledSeq
  numDrafted : ℕ
  baseComputed : ℕ
  baseOutputs : ℕ

section Step

variable {D W : Type} [BlockDigest D] [DecidableEq D] [VirtualTime W]

/-- `_fund`: trim a draft to what the pool can hold, next to the blocks `reserved` for
the earlier drafts of the step. -/
def fund (m : BlockManager D) (seq : Sequence) (drafts : List TokenId) (reserved : ℕ) :
    List TokenId × ℕ :=
  let allocatable : ℤ := m.allocator.numAllocatable - reserved
  match fundLoop m.blockSize seq.numComputedTokens seq.blockTable.length allocatable
      drafts.length with
  | none => ([], reserved)
  | some (allowed, needed) => (drafts.take allowed, reserved + needed)

/-- `_extend`: append a draft to its sequence and widen its entry of the batch. -/
def extend (s : Scheduler D W) (item : ScheduledSeq) (drafts : List TokenId) :
    Except Fault (Verified × Scheduler D W) :=
  let seq := s.seqs item.seq
  if drafts = [] then
    .ok (⟨item, item, 0, seq.numComputedTokens, seq.outputTokenIds.length⟩, s)
  else do
    let seq₁ := { seq with outputTokenIds := seq.outputTokenIds ++ drafts }
    let grown ← s.blockManager.appendSlots seq₁ drafts.length
    let seq₂ ← grown.2.2.advanceComputed drafts.length
    let verifyItem ← ScheduledSeq.create item.seq (item.numNewTokens + drafts.length)
      (item.contextLen + drafts.length) (item.tokenIds ++ drafts)
      (item.slotMapping ++ grown.1) seq₂.blockTable false false item.numCachedTokens
    .ok (⟨item, verifyItem, drafts.length, seq.numComputedTokens,
        seq.outputTokenIds.length⟩,
      { s.setSeq item.seq seq₂ with blockManager := grown.2.1 })

/-- The funding loop of `_speculative_step`. -/
def fundDecodes (s : Scheduler D W) (reserved : ℕ) :
    List (ScheduledSeq × List TokenId) → Except Fault (List Verified × Scheduler D W)
  | [] => .ok ([], s)
  | (item, drafts) :: rest => do
      let funded := fund s.blockManager (s.seqs item.seq) drafts reserved
      let one ← extend s item funded.1
      let more ← fundDecodes one.2 funded.2 rest
      .ok (one.1 :: more.1, more.2)

/-! ## §3  Verification and rollback -/

/-- `_rollback`: leave the sequence as the scheduler left it. Its blocks stay. -/
def rollback (s : Scheduler D W) (record : Verified) : Scheduler D W :=
  let seq := s.seqs record.item.seq
  s.setSeq record.item.seq
    { seq with
      outputTokenIds :=
        if record.numDrafted ≠ 0 then seq.outputTokenIds.take record.baseOutputs
        else seq.outputTokenIds
      numComputedTokens := record.baseComputed }

/-- What `_verify_decodes` leaves: the scheduler, the caps, the tokens to feed. -/
structure Verdicts (D W : Type) [VirtualTime W] where
  sched : Scheduler D W
  caps : SeqId → Option ℕ
  pairs : List (SeqId × TokenId)

/-- `_verify_decodes`, with the width check of the verifier. -/
def verifyDecodes (verify : Verifier) (s : Scheduler D W) (caps : SeqId → Option ℕ)
    (pairs : List (SeqId × TokenId)) :
    List Verified → Except SpecFault (Verdicts D W)
  | [] => .ok ⟨s, caps, pairs⟩
  | record :: rest =>
      let i := record.item.seq
      let width := record.verifyItem.numNewTokens
      let drafts := record.verifyItem.tokenIds.drop record.item.numNewTokens
      if width ≠ drafts.length + 1 then .error (.logitRows width drafts.length)
      else
        let v := verify (s.seqs i) drafts
        verifyDecodes verify (rollback s record)
          (Function.update caps i (some (record.baseComputed + v.numAccepted)))
          (pairs ++ v.tokens.map fun tok => (i, tok)) rest

/-! ## §4  The step -/

/-- What `_execute` leaves. `computed` is the scheduler at the time of the forward
pass and `batch` what that pass ran. -/
structure Executed (D W : Type) [VirtualTime W] where
  computed : Scheduler D W
  batch : List ScheduledSeq
  sched : Scheduler D W
  caps : SeqId → Option ℕ
  pairs : List (SeqId × TokenId)

/-- The base engine's path: one forward pass, one token for each sampling entry. -/
def executePlain (sample : Scheduler D W → ScheduledSeq → TokenId) (s : Scheduler D W)
    (out : SchedulerOutput) : Executed D W :=
  ⟨s, out.scheduled, s, Scheduler.noCaps,
    out.sampled.map fun item => (item.seq, sample s item)⟩

/-- `_speculative_step`. The prefills go first, in the batch and in the feedback. -/
def speculativeStep (sample : Scheduler D W → ScheduledSeq → TokenId)
    (draft : SeqId → List TokenId) (verify : Verifier) (s : Scheduler D W)
    (out : SchedulerOutput) : Except SpecFault (Executed D W) :=
  let decodes := out.scheduled.filter fun item => !item.isPrefill
  let prefills := out.scheduled.filter fun item => item.isPrefill
  if decodes.all fun item => (draft item.seq).isEmpty then
    .ok (executePlain sample s out)
  else do
    let funded ← lift (fundDecodes s 0 (decodes.map fun item => (item, draft item.seq)))
    let sampled := (prefills.filter (·.samplesToken)).map fun item =>
      (item.seq, sample funded.2 item)
    let verdicts ← verifyDecodes verify funded.2 Scheduler.noCaps sampled funded.1
    .ok ⟨funded.2, prefills ++ funded.1.map (·.verifyItem), verdicts.sched, verdicts.caps,
      verdicts.pairs⟩

/-- `_execute`: speculate when the step decodes, and not too many sequences. -/
def execute (maxBatchSize : Option ℕ) (sample : Scheduler D W → ScheduledSeq → TokenId)
    (draft : SeqId → List TokenId) (verify : Verifier) (s : Scheduler D W)
    (out : SchedulerOutput) : Except SpecFault (Executed D W) :=
  let decodes := out.scheduled.filter fun item => !item.isPrefill
  if decodes.isEmpty ∨ maxBatchSize.any (· < decodes.length) then
    .ok (executePlain sample s out)
  else speculativeStep sample draft verify s out

/-! ## §5  Feedback -/

/-- The checkpoint's end tokens, and what a request's decoder answers to the last token
of an output: whether it completed a stop string. -/
structure EngineStops where
  eosTokenIds : List TokenId
  stopString : SamplingParams → List TokenId → Bool

/-- `LLMEngine._process` for one token: the stop conditions of the core, then the end
tokens, then the stop strings (`_emit`). A finished sequence is skipped. -/
def engineToken (stops : EngineStops) (s : Scheduler D W) (i : SeqId) (tok : TokenId) :
    Except Fault (Scheduler D W) :=
  if (s.seqs i).isFinished then .ok s
  else do
    let r ← s.appendToken i tok none
    let seq := r.2.seqs i
    match r.1 with
    | some _ => .ok r.2
    | none =>
        if tok ∈ stops.eosTokenIds ∧ seq.sampling.ignoreEos = false then
          r.2.finish i .stop (some tok)
        else if stops.stopString seq.sampling seq.outputTokenIds then
          r.2.finish i .stop none
        else .ok r.2

/-- `_process`: feed the tokens back one at a time, restoring KV credit. -/
def process (stops : EngineStops) (e : Executed D W) : Except Fault (Scheduler D W) :=
  Scheduler.feedAll (engineToken stops) e.caps e.sched e.pairs

end Step

end TurboServe.Spec
