import Mathlib.Tactic.Linarith
import TurboServe.Lib.Fallible
import TurboServe.Runtime.Memory

/-!
# The KV pool never overcommits

`size_kv_cache` without an explicit number of blocks: the pool, the activations of a step
and what is used already stay within the utilization share of the device, and the pool is
the largest that does unless no sequence could use it.
-/

namespace TurboServe.Runtime

open TurboServe.Core (SchedulerConfig VirtualTime)
open TurboServe.Lib

/-- A positive number of bytes is at most `int(x)` exactly if it is at most `x`. -/
theorem le_truncate_iff {k : ℤ} (hk : 0 < k) (x : ℚ) : k ≤ truncate x ↔ (k : ℚ) ≤ x := by
  unfold truncate
  by_cases hx : 0 ≤ x
  · rw [if_pos hx, Int.le_floor]
  · rw [if_neg hx]
    have hceil : ⌈x⌉ ≤ 0 := Int.ceil_le.mpr (by rw [Int.cast_zero]; linarith)
    have hcast : (0 : ℚ) < k := Int.cast_pos.mpr hk
    constructor
    · intro h
      omega
    · intro h
      linarith

section Sizing

variable {W : Type} [VirtualTime W] (m : ModelGeometry) (config : SchedulerConfig W)
  (itemsize : ℕ) (utilization : ℚ) (probe : MemoryProbe)

/-- `n` blocks, one step's activations and what is used already stay within the share. -/
def FitsShare (bytesPerBlock activations : ℕ) (n : ℤ) : Prop :=
  ((n * bytesPerBlock + activations + probe.usedBytes : ℤ) : ℚ) ≤ utilization * probe.totalBytes

variable {utilization probe}

theorem usedBytes_nonneg : 0 ≤ probe.usedBytes := le_max_left _ _

/-- Blocks are within the budget exactly if they fit the share. -/
theorem le_poolBudget_iff {bytesPerBlock activations : ℕ} (hbytes : 0 < bytesPerBlock) {n : ℤ}
    (hn : 0 < n) : n * bytesPerBlock ≤ poolBudget utilization probe activations ↔
      FitsShare utilization probe bytesPerBlock activations n := by
  have hpos : 0 < n * bytesPerBlock := mul_pos hn (by exact_mod_cast hbytes)
  have hused : 0 ≤ probe.usedBytes := usedBytes_nonneg
  unfold poolBudget FitsShare
  rw [le_max_iff, or_iff_right (by omega), mul_comm utilization, ← le_truncate_iff (by omega)]
  omega

/-- What fits a budget, if a block has bytes at all. -/
theorem blocksForMemory_spec (budget : ℤ) (numLayers blockSize numKvHeads headDim : ℕ) :
    match blocksForMemory budget numLayers blockSize numKvHeads headDim itemsize with
    | .ok chosen => ∀ n, 0 < n → (n ≤ chosen ↔
        0 < bytesPerBlockFor numLayers blockSize numKvHeads headDim itemsize ∧
          n * bytesPerBlockFor numLayers blockSize numKvHeads headDim itemsize ≤ budget)
    | .error _ => bytesPerBlockFor numLayers blockSize numKvHeads headDim itemsize = 0 := by
  unfold blocksForMemory
  generalize bytesPerBlockFor numLayers blockSize numKvHeads headDim itemsize = bytes
  dsimp only
  by_cases hbudget : budget ≤ 0
  · rw [if_pos hbudget]
    intro n hn
    refine iff_of_false (by omega) fun h => ?_
    have hpos : 0 < n * bytes := mul_pos hn (by exact_mod_cast h.1)
    omega
  rw [if_neg hbudget]
  by_cases hzero : bytes = 0
  · rw [if_pos hzero]
    exact hzero
  · rw [if_neg hzero]
    intro n _
    have hbytes : 0 < bytes := Nat.pos_of_ne_zero hzero
    rw [and_iff_right hbytes]
    exact Int.le_ediv_iff_mul_le (by exact_mod_cast hbytes)

variable (utilization probe)

/-- What the sizing returns: within the share and, unless it is all that `max_num_seqs`
sequences of `max_model_len` tokens can use, the most that is. -/
structure Sized (bytesPerBlock activations : ℕ) (maxModelLen : Option ℤ) (s : KVCacheSizing) :
    Prop where
  bytes_eq : s.bytesPerBlock = bytesPerBlock
  activations_eq : s.activationBytes = activations
  positive : 1 ≤ s.numBlocks
  fits : FitsShare utilization probe bytesPerBlock activations s.numBlocks
  most : (∀ n, FitsShare utilization probe bytesPerBlock activations n → n ≤ s.numBlocks) ∨
    ∃ len, maxModelLen = some len ∧
      s.numBlocks = max 1 (⌈(len : ℚ) / config.blockSize⌉ * config.maxNumSeqs)

variable {utilization probe}

theorem FitsShare.anti {bytesPerBlock activations : ℕ} {n k : ℤ}
    (h : FitsShare utilization probe bytesPerBlock activations n) (hk : k ≤ n) :
    FitsShare utilization probe bytesPerBlock activations k := by
  refine le_trans ?_ h
  have hbytes : (0 : ℤ) ≤ bytesPerBlock := Int.natCast_nonneg _
  have hmul := mul_le_mul_of_nonneg_right hk hbytes
  exact_mod_cast (by omega : k * bytesPerBlock + activations + probe.usedBytes ≤
    n * bytesPerBlock + activations + probe.usedBytes)

theorem activationHeadroomBytes_returns :
    ∃ activations, activationHeadroomBytes m config.maxNumBatchedTokens config.maxNumSeqs
      itemsize = .ok activations := by
  have htokens := config.one_le_maxNumBatchedTokens
  have hseqs := config.one_le_maxNumSeqs
  exact ⟨_, if_neg (by omega)⟩

/-- For every geometry, configuration, utilization, probe and model length: the sizing
returns a pool of at least one block that keeps to the share and is the largest that does or
all that can be used; or it raises, as the utilization is out of range, a block has no bytes,
or not even one fits. -/
theorem pool_within_share (maxModelLen : Option ℤ) :
    ∃ activations, activationHeadroomBytes m config.maxNumBatchedTokens config.maxNumSeqs
        itemsize = .ok activations ∧
      match sizeKvCache m config itemsize utilization probe none maxModelLen with
      | .ok s => Sized config utilization probe (bytesPerBlockFor m.numHiddenLayers
          config.blockSize m.numKeyValueHeads m.headDim itemsize) activations maxModelLen s
      | .error _ => ¬ (0 < utilization ∧ utilization ≤ 1) ∨
          bytesPerBlockFor m.numHiddenLayers config.blockSize m.numKeyValueHeads m.headDim
            itemsize = 0 ∨
          ∀ n, 1 ≤ n → ¬ FitsShare utilization probe (bytesPerBlockFor m.numHiddenLayers
            config.blockSize m.numKeyValueHeads m.headDim itemsize) activations n := by
  obtain ⟨activations, hactivations⟩ := activationHeadroomBytes_returns m config itemsize
  refine ⟨activations, hactivations, ?_⟩
  unfold sizeKvCache
  by_cases hrange : 0 < utilization ∧ utilization ≤ 1
  swap
  · rw [if_pos hrange]
    exact Or.inl hrange
  rw [if_neg (not_not.mpr hrange)]
  dsimp only
  rw [bind_of_ok hactivations]
  have hspec := blocksForMemory_spec itemsize (poolBudget utilization probe activations)
    m.numHiddenLayers config.blockSize m.numKeyValueHeads m.headDim
  generalize hbytes : bytesPerBlockFor m.numHiddenLayers config.blockSize m.numKeyValueHeads
    m.headDim itemsize = bytes at hspec ⊢
  cases hblocks : blocksForMemory (poolBudget utilization probe activations) m.numHiddenLayers
    config.blockSize m.numKeyValueHeads m.headDim itemsize with
  | error e =>
      rw [hblocks] at hspec
      exact Or.inr (Or.inl hspec)
  | ok chosen =>
      rw [hblocks] at hspec
      rw [bind_of_ok rfl]
      by_cases hnone : chosen < 1
      · rw [if_pos hnone]
        by_cases hzero : bytes = 0
        · exact Or.inr (Or.inl hzero)
        · refine Or.inr (Or.inr fun n hn hfits => ?_)
          have hpositive : 0 < bytes := Nat.pos_of_ne_zero hzero
          have hle := (hspec n hn).mpr ⟨hpositive, (le_poolBudget_iff hpositive hn).mpr hfits⟩
          omega
      rw [if_neg hnone]
      -- what is chosen is the largest pool within the share
      have hchosen : 0 < chosen := by omega
      obtain ⟨hpositive, hbudget⟩ := (hspec chosen hchosen).mp le_rfl
      have hfits := (le_poolBudget_iff hpositive hchosen).mp hbudget
      have hmost : ∀ n, FitsShare utilization probe bytes activations n → n ≤ chosen := by
        intro n hn
        by_cases hn0 : 0 < n
        · exact (hspec n hn0).mpr ⟨hpositive, (le_poolBudget_iff hpositive hn0).mpr hn⟩
        · omega
      have hmemory : Sized config utilization probe bytes activations maxModelLen
          ⟨chosen, config.blockSize, bytes, poolBudget utilization probe activations, activations,
            probe, .memory⟩ := ⟨rfl, rfl, hchosen, hfits, Or.inl hmost⟩
      cases maxModelLen with
      | none => exact hmemory
      | some len =>
          dsimp only [maxUsefulBlocks, Option.map_some]
          by_cases hcap : max 1 (⌈(len : ℚ) / config.blockSize⌉ * config.maxNumSeqs) < chosen
          · rw [if_pos hcap]
            exact ⟨rfl, rfl, le_max_left _ _, hfits.anti hcap.le, Or.inr ⟨len, rfl, rfl⟩⟩
          · rw [if_neg hcap]
            exact hmemory

end Sizing

end TurboServe.Runtime
