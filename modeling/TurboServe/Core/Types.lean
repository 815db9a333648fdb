import Mathlib

/-!
# Data contracts of the engine core

The vocabulary of `engine/core/types.py` that the scheduler, the block manager
and the runtime share: sampling parameters, the scheduler configuration with
its validators as fields, finish reasons, sequence statuses, and the faults
the step path can raise.

Two things stand outside the repository and enter as parameters. The block
digest (`hashlib.blake2b` over a parent digest, an adapter id and a block of
tokens) is the class `BlockDigest`; the arithmetic of the fair queue's virtual
times (floats in the source) is the class `VirtualTime`.
-/

namespace TurboServe.Core

abbrev TokenId : Type := ℤ
abbrev SeqId : Type := ℕ
abbrev BlockId : Type := ℕ
abbrev Slot : Type := ℕ

/-- Adapter slot reserved for the base model. -/
def noLora : ℤ := 0

/-- Fill value for unused entries of a block table. -/
def padBlock : ℤ := -1

/-- Tenant used when a caller does not supply one. -/
def defaultTenant : String := "default"

/-! ## §1  Parameters: the block digest and virtual time -/

/-- The digest of one full block given the digest of the block before it. -/
class BlockDigest (D : Type) where
  rootHash : D
  blockHash : D → List TokenId → ℤ → D

/-- What "blake2b is collision free" means for the prefix index: a block digest
determines its parent, its tokens and its adapter, and the domain-separated
root is no block's digest. -/
class CollisionFree (D : Type) [BlockDigest D] : Prop where
  blockHash_inj : ∀ {p p' : D} {ts ts' : List TokenId} {l l' : ℤ},
    BlockDigest.blockHash p ts l = BlockDigest.blockHash p' ts' l' →
      p = p' ∧ ts = ts' ∧ l = l'
  blockHash_ne_root : ∀ (p : D) (ts : List TokenId) (l : ℤ),
    BlockDigest.blockHash p ts l ≠ BlockDigest.rootHash

/-- The arithmetic `_WaitQueue` does on weights and virtual times. -/
class VirtualTime (W : Type) where
  zero : W
  defaultWeight : W
  /-- `weight > 0`, the configuration's validator -/
  isPos : W → Bool
  /-- `vtime + 1.0 / weight` -/
  charge : W → W → W
  max : W → W → W
  lt : W → W → Bool
  eq : W → W → Bool

instance : VirtualTime ℚ where
  zero := 0
  defaultWeight := 1
  isPos w := decide (0 < w)
  charge v w := v + 1 / w
  max a b := if a < b then b else a
  lt a b := decide (a < b)
  eq a b := decide (a = b)

/-- Free digests: a chain is its own digest. The collision-free instance the
concrete runs of this development use. -/
inductive FreeDigest : Type where
  | root
  | block (parent : FreeDigest) (tokens : List TokenId) (lora : ℤ)
deriving DecidableEq

instance : BlockDigest FreeDigest where
  rootHash := .root
  blockHash := .block

instance : CollisionFree FreeDigest where
  blockHash_inj h := by
    injection h with hp hts hl
    exact ⟨hp, hts, hl⟩
  blockHash_ne_root _ _ _ h := by cases h

/-! ## §2  Requests and configuration -/

/-! The defaults pass their own checks. -/

theorem maxTokens_default : 1 ≤ 128 := by decide

theorem temperature_default : (0 : ℚ) ≤ 1 := by norm_num

theorem topP_default : (0 : ℚ) < 1 ∧ (1 : ℚ) ≤ 1 := by norm_num

theorem repetitionPenalty_default : (0 : ℚ) < 1 := by norm_num

theorem numBlocks_default : ∀ n ∈ (none : Option ℕ), 1 ≤ n := by decide

theorem weights_default {W : Type} [VirtualTime W] :
    ∀ p ∈ ([] : List (String × W)), VirtualTime.isPos p.2 = true := by
  intro p hp
  cases hp

/-- Per-request sampling configuration, validated at construction. -/
structure SamplingParams where
  maxTokens : ℕ := 128
  temperature : ℚ := 1
  topP : ℚ := 1
  topK : ℕ := 0
  seed : Option ℤ := none
  stopTokenIds : List TokenId := []
  stop : List String := []
  repetitionPenalty : ℚ := 1
  ignoreEos : Bool := false
  one_le_maxTokens : 1 ≤ maxTokens := by first | exact Core.maxTokens_default | decide
  temperature_nonneg : 0 ≤ temperature := by first | exact Core.temperature_default | norm_num
  topP_mem : 0 < topP ∧ topP ≤ 1 := by first | exact Core.topP_default | norm_num
  repetitionPenalty_pos : 0 < repetitionPenalty := by
    first | exact Core.repetitionPenalty_default | norm_num

/-- Whether the sampler takes the argmax. -/
def SamplingParams.isGreedy (p : SamplingParams) : Bool :=
  decide (p.temperature = 0)

inductive FinishReason : Type where
  | stop
  | length
  | abort
deriving DecidableEq

inductive SeqStatus : Type where
  | waiting
  | running
  | preempted
  | finished
deriving DecidableEq

inductive SchedulerPolicy : Type where
  | fcfs
  | tenantFair
deriving DecidableEq

/-- Limits and policy of one scheduler step. The fields below the data are the
validators of `SchedulerConfig`: a value of this type has passed them. -/
structure SchedulerConfig (W : Type) [VirtualTime W] where
  maxNumSeqs : ℕ := 64
  maxNumBatchedTokens : ℕ := 2048
  blockSize : ℕ := 16
  numBlocks : Option ℕ := none
  enableChunkedPrefill : Bool := true
  enablePrefixCaching : Bool := true
  policy : SchedulerPolicy := .fcfs
  tenantWeights : List (String × W) := []
  one_le_maxNumSeqs : 1 ≤ maxNumSeqs := by decide
  one_le_maxNumBatchedTokens : 1 ≤ maxNumBatchedTokens := by decide
  one_le_blockSize : 1 ≤ blockSize := by decide
  one_le_numBlocks : ∀ n ∈ numBlocks, 1 ≤ n := by first | exact Core.numBlocks_default | decide
  blockSize_pow2 : blockSize &&& (blockSize - 1) = 0 := by decide
  blockSize_le_budget : blockSize ≤ maxNumBatchedTokens := by decide
  weights_pos : ∀ p ∈ tenantWeights, VirtualTime.isPos p.2 = true := by
    first | exact Core.weights_default | decide

/-! ## §3  Faults

One constructor per `raise` on the modelled paths, carrying the values its
message interpolates. `loopFuel` is the model's own: a `while` loop of the
source is a recursion on fuel, and running out of it is a fault like any
other, so "never raises" also says that no loop ran short. -/

inductive Fault : Type where
  | outOfBlocks (inUse total retained : ℕ)
  | blockOutOfRange (blockId total : ℕ)
  | notRetained (blockId refs : ℕ)
  | increfUnowned (blockId : ℕ) (retained : Bool)
  | doubleFree (blockId : ℕ) (retained : Bool)
  | cachedUnderOtherHash (blockId : ℕ)
  | alreadyHoldsBlocks (requestId : String) (held : ℕ)
  | neverAllocated (requestId : String)
  | tooManyTokens (requestId : String) (held upTo : ℕ)
  | noBlockForPosition (requestId : String) (position held : ℕ)
  | rangeOutside (requestId : String) (first last held : ℕ)
  | blockNotFull (requestId : String) (index upTo held : ℕ)
  | advanceOverflow (requestId : String) (target held : ℕ)
  | emptyPrompt (requestId : String)
  | badLoraId (loraId : ℤ)
  | appendToFinished (requestId : String)
  | scheduledEmpty
  | scheduledTokenIds (given expected : ℕ)
  | scheduledSlots (given expected : ℕ)
  | scheduledContext (contextLen queries : ℕ)
  | alreadyInFlight (requestId : String)
  | poolTooSmall (requestId : String) (needed capacity : ℕ)
  | promptOverBudget (requestId : String) (held budget : ℕ)
  | popEmpty
  | noVirtualTime (tenant : String)
  | poolUnsized
  | blockSizeDisagrees (given expected : ℕ)
  | emptyStep
  | shortBlockTable (requestId : String) (contextLen held blockSize : ℕ)
  | badBlockSize (given : ℕ)
  | narrowTable (maxBlocks width : ℕ)
  | tableRows (rows seqs : ℕ)
  | contextEntries (entries seqs : ℕ)
  | locEntries (expected entries : ℕ)
  | locsStart (first : ℕ)
  | locsDecreasing
  | locsEnd (last tokens : ℕ)
  | maxQueryLenDisagrees (given actual : ℕ)
  | maxContextLenDisagrees (given actual : ℕ)
  | contextShorter (index contextLen queries : ℕ)
  | missingBlocks (index needed contextLen held : ℕ)
  | verifyShape (rows drafts : ℕ)
  | sampledCount (tokens items : ℕ)
  | tooManyAccepted (accepted drafted : ℕ)
  | loopFuel
deriving DecidableEq

end TurboServe.Core
