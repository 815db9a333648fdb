import TurboServe.Core.Types

/-!
# The unit of work: one request, one sequence

`engine/core/sequence.py`. A `Sequence` is the server-side state of one
request: its tokens, its block table, how far the engine has got through it.
`numComputedTokens` is the only progress counter, and preemption is recompute:
it throws the counter away and keeps the generated text.

Sequences are mutable objects with identity in the source. Here a sequence is
a value and its identity is its `seqId`; the scheduler owns the store that maps
identities to values. Timestamps and the per-request generator are left out:
nothing modelled reads them.
-/

namespace TurboServe.Core

/-- One request's tokens, KV blocks and progress. The prompt is never empty and
the adapter slot never negative: `__post_init__` refuses both, so the two
checks are fields. -/
structure Sequence where
  seqId : SeqId
  requestId : String
  promptTokenIds : List TokenId
  sampling : SamplingParams
  tenantId : String
  priority : ℤ
  loraId : ℤ
  outputTokenIds : List TokenId
  blockTable : List BlockId
  numComputedTokens : ℕ
  status : SeqStatus
  finishReason : Option FinishReason
  stopTokenId : Option TokenId
  numCachedPromptTokens : ℕ
  numPreemptions : ℕ
  prompt_ne_nil : promptTokenIds ≠ []
  lora_nonneg : noLora ≤ loraId

namespace Sequence

/-- The constructor with its `__post_init__` checks; every field a caller of
the scheduler does not set takes its default. -/
def create (seqId : SeqId) (requestId : String) (prompt : List TokenId)
    (sampling : SamplingParams) (tenantId : String) (priority loraId : ℤ)
    (output : List TokenId) : Except Fault Sequence :=
  if hp : prompt = [] then .error (.emptyPrompt requestId)
  else if hl : loraId < noLora then .error (.badLoraId loraId)
  else .ok
    { seqId := seqId, requestId := requestId, promptTokenIds := prompt,
      sampling := sampling, tenantId := tenantId, priority := priority,
      loraId := loraId, outputTokenIds := output, blockTable := [],
      numComputedTokens := 0, status := .waiting, finishReason := none,
      stopTokenId := none, numCachedPromptTokens := 0, numPreemptions := 0,
      prompt_ne_nil := hp, lora_nonneg := not_lt.mp hl }

/-- A placeholder for identities the store has never held. -/
instance : Inhabited Sequence where
  default :=
    { seqId := 0, requestId := "", promptTokenIds := [0], sampling := {},
      tenantId := defaultTenant, priority := 0, loraId := noLora,
      outputTokenIds := [], blockTable := [], numComputedTokens := 0,
      status := .waiting, finishReason := none, stopTokenId := none,
      numCachedPromptTokens := 0, numPreemptions := 0,
      prompt_ne_nil := List.cons_ne_nil _ _, lora_nonneg := le_rfl }

variable (seq : Sequence)

/-! ## §1  Token accounting -/

def numPromptTokens : ℕ := seq.promptTokenIds.length

def numOutputTokens : ℕ := seq.outputTokenIds.length

def numTokens : ℕ := seq.promptTokenIds.length + seq.outputTokenIds.length

def numUncomputedTokens : ℕ := seq.numTokens - seq.numComputedTokens

def tokenIds : List TokenId := seq.promptTokenIds ++ seq.outputTokenIds

def isFinished : Bool := decide (seq.status = .finished)

/-- Tokens at absolute positions `[start, stop)`, prompt and output stitched. -/
def tokensInRange (start stop : ℕ) : Except Fault (List TokenId) :=
  if stop > seq.numTokens ∨ start > stop then
    .error (.rangeOutside seq.requestId start stop seq.numTokens)
  else
    let promptLen := seq.promptTokenIds.length
    if stop ≤ promptLen then
      .ok ((seq.promptTokenIds.take stop).drop start)
    else if start ≥ promptLen then
      .ok ((seq.outputTokenIds.take (stop - promptLen)).drop (start - promptLen))
    else
      .ok (seq.promptTokenIds.drop start ++
        seq.outputTokenIds.take (stop - promptLen))

/-- The `blockSize` tokens of block `index`; refuses a short tail. -/
def blockTokens (index blockSize : ℕ) : Except Fault (List TokenId) :=
  let start := index * blockSize
  let stop := start + blockSize
  if stop > seq.numTokens then
    .error (.blockNotFull seq.requestId index stop seq.numTokens)
  else seq.tokensInRange start stop

/-- Blocks that hold the whole sequence's KV, a partial tail included. -/
def numBlocksNeeded (blockSize : ℕ) : ℕ := seq.numTokens ⌈/⌉ blockSize

/-- How many tokens the sequence would compute next under `budget`. -/
def numNewTokensToCompute (budget : ℕ) : ℕ :=
  if seq.isFinished ∨ budget = 0 then 0
  else min budget seq.numUncomputedTokens

def advanceComputed (n : ℕ) : Except Fault Sequence :=
  let target := seq.numComputedTokens + n
  if target > seq.numTokens then
    .error (.advanceOverflow seq.requestId target seq.numTokens)
  else .ok { seq with numComputedTokens := target }

/-- Forget all computed KV; the generated tokens survive. -/
def resetForRecompute : Sequence :=
  { seq with
    numComputedTokens := 0, blockTable := [], numCachedPromptTokens := 0,
    numPreemptions := seq.numPreemptions + 1, status := .preempted }

/-! ## §2  Generation -/

def appendToken (tokenId : TokenId) : Except Fault Sequence :=
  if seq.isFinished then .error (.appendToFinished seq.requestId)
  else .ok { seq with outputTokenIds := seq.outputTokenIds ++ [tokenId] }

/-- Whether the just-appended `tokenId` ends the sequence. -/
def checkStop (tokenId : TokenId) (eosTokenId : Option TokenId) :
    Option FinishReason :=
  if tokenId ∈ seq.sampling.stopTokenIds then some .stop
  else if eosTokenId = some tokenId ∧ seq.sampling.ignoreEos = false then
    some .stop
  else if seq.numOutputTokens ≥ seq.sampling.maxTokens then some .length
  else none

/-- Move to the terminal state; the first reason recorded wins. -/
def finish (reason : FinishReason) (stopTokenId : Option TokenId) : Sequence :=
  if seq.isFinished then seq
  else { seq with
    status := .finished, finishReason := some reason, stopTokenId := stopTokenId }

/-! ## §3  What the accounting functions return -/

@[simp] theorem length_tokenIds : seq.tokenIds.length = seq.numTokens := by
  simp [tokenIds, numTokens]

theorem numPromptTokens_pos : 0 < seq.numPromptTokens :=
  List.length_pos_of_ne_nil seq.prompt_ne_nil

theorem numTokens_pos : 0 < seq.numTokens :=
  Nat.lt_of_lt_of_le seq.numPromptTokens_pos (Nat.le_add_right _ _)

theorem numPromptTokens_le : seq.numPromptTokens ≤ seq.numTokens :=
  Nat.le_add_right _ _

theorem numTokens_eq : seq.numTokens = seq.numPromptTokens + seq.numOutputTokens :=
  rfl

variable {seq}

/-- The three branches of `tokens_in_range` are one slice of the whole. -/
theorem tokensInRange_ok {start stop : ℕ} (h₁ : start ≤ stop)
    (h₂ : stop ≤ seq.numTokens) :
    seq.tokensInRange start stop = .ok ((seq.tokenIds.take stop).drop start) := by
  have hguard : ¬ (stop > seq.numTokens ∨ start > stop) := by omega
  rw [tokensInRange, if_neg hguard]
  by_cases hp : stop ≤ seq.promptTokenIds.length
  · simp [hp, tokenIds, List.take_append_of_le_length hp]
  · have htake : seq.promptTokenIds.take stop = seq.promptTokenIds :=
      List.take_of_length_le (by omega)
    by_cases hs : start ≥ seq.promptTokenIds.length
    · simp only [hp, hs, if_false, if_true, tokenIds]
      rw [List.take_append, List.drop_append, htake,
        List.drop_eq_nil_of_le hs, List.nil_append]
    · have hstart : start - seq.promptTokenIds.length = 0 := by omega
      simp only [hp, hs, if_false, tokenIds]
      rw [List.take_append, List.drop_append, htake, hstart, List.drop_zero]

theorem length_slice {start stop : ℕ} (h₂ : stop ≤ seq.numTokens) :
    ((seq.tokenIds.take stop).drop start).length = stop - start := by
  rw [List.length_drop, List.length_take, length_tokenIds, min_eq_left h₂]

/-- A full block is the slice of the tokens it covers. -/
theorem blockTokens_ok {index blockSize : ℕ}
    (h : (index + 1) * blockSize ≤ seq.numTokens) :
    seq.blockTokens index blockSize =
      .ok ((seq.tokenIds.drop (index * blockSize)).take blockSize) := by
  have hstop : index * blockSize + blockSize ≤ seq.numTokens := by
    rw [Nat.succ_mul] at h; exact h
  rw [blockTokens, if_neg (not_lt.mpr hstop),
    tokensInRange_ok (Nat.le_add_right _ _) hstop, List.drop_take,
    Nat.add_sub_cancel_left]

theorem advanceComputed_ok {n : ℕ} (h : seq.numComputedTokens + n ≤ seq.numTokens) :
    seq.advanceComputed n =
      .ok { seq with numComputedTokens := seq.numComputedTokens + n } := by
  rw [advanceComputed, if_neg (not_lt.mpr h)]

theorem create_ok {seqId : SeqId} {rid : String} {prompt output : List TokenId}
    {sp : SamplingParams} {tenant : String} {prio lora : ℤ}
    (hp : prompt ≠ []) (hl : noLora ≤ lora) :
    ∃ seq, create seqId rid prompt sp tenant prio lora output = .ok seq := by
  rw [create, dif_neg hp, dif_neg (not_lt.mpr hl)]
  exact ⟨_, rfl⟩

/-- What a newly constructed sequence looks like to the scheduler. -/
structure Fresh (seq : Sequence) (seqId : SeqId) (rid : String) : Prop where
  seqId_eq : seq.seqId = seqId
  requestId_eq : seq.requestId = rid
  blockTable_nil : seq.blockTable = []
  computed_zero : seq.numComputedTokens = 0
  status_waiting : seq.status = .waiting

theorem create_fresh {seqId : SeqId} {rid : String} {prompt output : List TokenId}
    {sp : SamplingParams} {tenant : String} {prio lora : ℤ}
    (h : create seqId rid prompt sp tenant prio lora output = .ok seq) :
    Fresh seq seqId rid := by
  unfold create at h
  split at h
  · cases h
  · split at h
    · cases h
    · cases h
      exact ⟨rfl, rfl, rfl, rfl, rfl⟩

end Sequence

end TurboServe.Core
