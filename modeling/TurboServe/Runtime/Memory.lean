import Mathlib.Data.Rat.Floor
import TurboServe.Core.Types

/-!
# Sizing the KV block pool

`engine/runtime/memory.py` and the two size functions of `core/kv_cache.py`. A dtype is its
item size in bytes and floats are exact.
-/

namespace TurboServe.Runtime

open TurboServe.Core (SchedulerConfig VirtualTime)

/-! ## §1  Terms -/

/-- The geometry of a model, as far as memory depends on it. -/
structure ModelGeometry where
  hiddenSize : ℕ
  intermediateSize : ℕ
  vocabSize : ℕ
  numHiddenLayers : ℕ
  numAttentionHeads : ℕ
  numKeyValueHeads : ℕ
  headDim : ℕ
deriving DecidableEq

def ModelGeometry.qProjSize (m : ModelGeometry) : ℕ := m.numAttentionHeads * m.headDim

def ModelGeometry.kvProjSize (m : ModelGeometry) : ℕ := m.numKeyValueHeads * m.headDim

/-- What a device reports about its memory. -/
structure MemoryProbe where
  device : String
  totalBytes : ℤ
  freeBytes : ℤ
  source : String
deriving DecidableEq

def MemoryProbe.usedBytes (p : MemoryProbe) : ℤ := max 0 (p.totalBytes - p.freeBytes)

/-- Which constraint decided the number of blocks. -/
inductive SizingReason : Type where
  | explicit
  | memory
  | maxModelLen
deriving DecidableEq

/-- The decision and the arithmetic behind it. -/
structure KVCacheSizing where
  numBlocks : ℤ
  blockSize : ℕ
  bytesPerBlock : ℕ
  budgetBytes : ℤ
  activationBytes : ℤ
  probe : MemoryProbe
  reason : SizingReason
deriving DecidableEq

inductive MemoryFault : Type where
  /-- `gpu_memory_utilization must be in (0, 1]` -/
  | utilization (given : ℚ)
  /-- `max_num_batched_tokens and max_num_seqs must be positive` -/
  | notPositive
  /-- `num_blocks must be positive` -/
  | numBlocks (given : ℤ)
  /-- `MemoryProfileError`, with every term of the budget -/
  | noRoom (probe : MemoryProbe) (activations : ℤ) (utilization : ℚ) (budget : ℤ)
      (bytesPerBlock : ℕ)
  | zeroDivision
deriving DecidableEq

/-- `int(x)`: towards zero. -/
def truncate (x : ℚ) : ℤ := if 0 ≤ x then ⌊x⌋ else ⌈x⌉

/-- `KVCache.bytes_per_block_for` -/
def bytesPerBlockFor (numLayers blockSize numKvHeads headDim itemsize : ℕ) : ℕ :=
  numLayers * 2 * blockSize * numKvHeads * headDim * itemsize

/-- `KVCache.blocks_for_memory` -/
def blocksForMemory (availableBytes : ℤ) (numLayers blockSize numKvHeads headDim itemsize : ℕ) :
    Except MemoryFault ℤ :=
  let perBlock := bytesPerBlockFor numLayers blockSize numKvHeads headDim itemsize
  if availableBytes ≤ 0 then .ok 0
  else if perBlock = 0 then .error .zeroDivision
  else .ok (availableBytes / perBlock)

/-- Hidden-state copies a layer holds alive at once. -/
def activationElementsPerToken : ℕ := 8

/-- Bytes one scheduler step can need outside the pool. -/
def activationHeadroomBytes (m : ModelGeometry) (maxNumBatchedTokens maxNumSeqs itemsize : ℕ) :
    Except MemoryFault ℕ :=
  if maxNumBatchedTokens < 1 ∨ maxNumSeqs < 1 then .error .notPositive
  else
    let widest := max m.hiddenSize m.intermediateSize
    let hidden := maxNumBatchedTokens * activationElementsPerToken * widest * itemsize
    let qkv := maxNumBatchedTokens * (m.qProjSize + 2 * m.kvProjSize) * itemsize
    let logits := maxNumSeqs * m.vocabSize * 4
    .ok (hidden + qkv + logits)

/-- Blocks that hold `max_num_seqs` sequences of `max_model_len` tokens. -/
def maxUsefulBlocks (maxNumSeqs blockSize : ℕ) (maxModelLen : Option ℤ) : Option ℤ :=
  maxModelLen.map fun len : ℤ => max 1 (⌈(len : ℚ) / blockSize⌉ * maxNumSeqs)

/-! ## §2  The decision -/

section Sizing

variable {W : Type} [VirtualTime W] (m : ModelGeometry) (config : SchedulerConfig W)
  (itemsize : ℕ) (utilization : ℚ) (probe : MemoryProbe)

/-- `int(total * utilization) - used - activations`, not below zero. -/
def poolBudget (activations : ℕ) : ℤ :=
  max 0 (truncate (probe.totalBytes * utilization) - probe.usedBytes - activations)

/-- How many KV blocks the engine gets. -/
def sizeKvCache (numBlocks maxModelLen : Option ℤ) : Except MemoryFault KVCacheSizing :=
  if ¬ (0 < utilization ∧ utilization ≤ 1) then .error (.utilization utilization)
  else do
    let blockSize := config.blockSize
    let bytesPerBlock :=
      bytesPerBlockFor m.numHiddenLayers blockSize m.numKeyValueHeads m.headDim itemsize
    let activations ←
      activationHeadroomBytes m config.maxNumBatchedTokens config.maxNumSeqs itemsize
    let budget := poolBudget utilization probe activations
    let sizing (chosen : ℤ) (reason : SizingReason) : KVCacheSizing :=
      ⟨chosen, blockSize, bytesPerBlock, budget, activations, probe, reason⟩
    match numBlocks with
    | some n => if n < 1 then .error (.numBlocks n) else .ok (sizing n .explicit)
    | none => do
        let chosen ←
          blocksForMemory budget m.numHiddenLayers blockSize m.numKeyValueHeads m.headDim itemsize
        if chosen < 1 then
          .error (.noRoom probe activations utilization budget bytesPerBlock)
        else
          match maxUsefulBlocks config.maxNumSeqs blockSize maxModelLen with
          | some cap =>
              if cap < chosen then .ok (sizing cap .maxModelLen) else .ok (sizing chosen .memory)
          | none => .ok (sizing chosen .memory)

end Sizing

end TurboServe.Runtime
