import TurboServe.Model.Attention

/-!
# The paged decode kernel

`engine/model/triton_attention.py`: one program per sequence and KV head attends one query
token for its whole group of query heads, a block of keys at a time. Lanes of a tile are
functions of their index; a lane whose arithmetic is not a number is `none`.
-/

namespace TurboServe.Model

open TurboServe.Core Lib

/-- Upper bound on the elements of the largest tile. -/
def maxTileElements : ℕ := 16384

/-- `_next_power_of_two`. -/
def nextPow2 (value : ℕ) : ℕ := 1 <<< (value - 1).size

theorem le_nextPow2 (value : ℕ) : value ≤ nextPow2 value := by
  have h := Nat.lt_size_self (value - 1)
  unfold nextPow2
  rw [Nat.one_shiftLeft]
  omega

def tileElements (numKvGroups headDim blockSize : ℕ) : ℕ :=
  nextPow2 numKvGroups * blockSize * nextPow2 headDim

/-- What `can_use_triton_decode` asks of the installation and of the queries. -/
structure Device : Type where
  tritonAvailable : Bool
  cuda : Bool
  supportedDtype : Bool

def canUseTritonDecode (d : Device) (headDim : ℕ) (m : AttnMetadata) (numKvGroups : ℕ)
    (blockSize : Option ℕ) : Bool :=
  d.tritonAvailable && d.cuda && d.supportedDtype && m.isDecodeOnly &&
    decide (m.numTokens = m.numSeqs) && decide (m.numSeqs ≠ 0 ∧ 1 ≤ m.maxContextLen) &&
    blockSize.all fun bs => decide (tileElements numKvGroups headDim bs ≤ maxTileElements)

/-- Where the entries of a freshly allocated `[n₀, n₁, n₂]` tensor lie: apart. -/
structure Layout (n₀ n₁ n₂ : ℕ) where
  stride : ℕ → ℕ
  inj : ∀ i < n₀, ∀ j < n₁, ∀ k < n₂, ∀ i' < n₀, ∀ j' < n₁, ∀ k' < n₂,
    i * stride 0 + j * stride 1 + k * stride 2 =
      i' * stride 0 + j' * stride 1 + k' * stride 2 → i = i' ∧ j = j' ∧ k = k'

/-- Row after row. -/
def Layout.contiguous (n₀ n₁ n₂ : ℕ) : Layout n₀ n₁ n₂ where
  stride := ([n₁ * n₂, n₂, 1].getD · 0)
  inj := by
    intro i _ j hj k hk i' _ j' hj' k' hk' heq
    have hflat : ∀ a b c, a * (n₁ * n₂) + b * n₂ + c * 1 = (a * n₁ + b) * n₂ + c := by
      intro a b c
      rw [Nat.add_mul, Nat.mul_assoc, Nat.mul_one]
    obtain ⟨hrow, hcol⟩ := address_inj hk hk' ((hflat i j k).symm.trans (heq.trans (hflat ..)))
    obtain ⟨hi, hmid⟩ := address_inj hj hj' hrow
    exact ⟨hi, hmid, hcol⟩

section Kernel

variable {K : Type} [Field K] [LinearOrder K] (E : Exponential K)

/-- Lane `i` of a block lies inside the context. -/
def validLane (blockSize ctx block i : ℕ) : Prop := block * blockSize + i < ctx

instance (blockSize ctx block i : ℕ) : Decidable (validLane blockSize ctx block i) :=
  inferInstanceAs (Decidable (_ < _))

/-- One lane of a block of keys or values. -/
def blockEntry (cache : View K) (blockTables : View ℤ) (headDim blockSize seq kvHead ctx : ℕ)
    (block i d : ℕ) : K :=
  let blockId := blockTables.storage (seq * blockTables.stride 0 + block * blockTables.stride 1)
  load cache.storage
    (blockId * cache.stride 0 + i * cache.stride 1 + kvHead * cache.stride 2 + d * cache.stride 3)
    (validLane blockSize ctx block i ∧ d < headDim) 0

/-- The scores of a block, `-∞` behind the context. -/
def blockScore (k : View K) (blockTables : View ℤ) (headDim headDimPow2 blockSize : ℕ)
    (seq kvHead ctx : ℕ) (q : ℕ → K) (block i : ℕ) : WithBot K :=
  if validLane blockSize ctx block i then
    (∑ d ∈ Finset.range headDimPow2,
      q d * blockEntry k blockTables headDim blockSize seq kvHead ctx block i d : K)
  else ⊥

/-- The loop of `_paged_decode_kernel` for one query head, over the blocks of its context. -/
def decodeLane (k v : View K) (blockTables : View ℤ) (headDim headDimPow2 blockSize : ℕ)
    (seq kvHead ctx : ℕ) (q : ℕ → K) : Option (Running K ℕ) :=
  let numBlocks := ctx ⌈/⌉ blockSize
  (List.range numBlocks).foldlM (fun r block =>
    Running.absorb E blockSize
      (blockScore k blockTables headDim headDimPow2 blockSize seq kvHead ctx q block)
      (blockEntry v blockTables headDim blockSize seq kvHead ctx block) r) Running.initial

/-- `_paged_decode_kernel`: one program, for one sequence and one KV head. -/
def pagedDecodeKernel (q k v : View K) (outStride : ℕ → ℕ) (blockTables : View ℤ)
    (contextLens : ℕ → ℕ) (scale : K) (group groupPow2 headDim headDimPow2 blockSize : ℕ)
    (program : ℕ × ℕ) (out : ℤ → Option K) : ℤ → Option K :=
  let seq := program.1
  let kvHead := program.2
  let ctx := contextLens seq
  let qHead (head : ℕ) := kvHead * group + head
  let qVals (head d : ℕ) := load q.storage
    (seq * q.stride 0 + qHead head * q.stride 1 + d * q.stride 2)
    (head < group ∧ d < headDim) 0 * scale
  let lane head := decodeLane E k v blockTables headDim headDimPow2 blockSize seq kvHead ctx
    (qVals head)
  store (List.range groupPow2 ×ˢ List.range headDimPow2)
    (fun p => (seq * outStride 0 + qHead p.1 * outStride 1 + p.2 * outStride 2 : ℕ))
    (fun p => p.1 < group ∧ p.2 < headDim) (fun p => (lane p.1).bind (·.quotient p.2)) out

/-- One program per sequence and KV head. -/
def decodeGrid (numSeqs numKvHeads : ℕ) : List (ℕ × ℕ) :=
  List.range numSeqs ×ˢ List.range numKvHeads

/-- Run the decode kernel. `tables` is the batch's block tables as the device holds them,
and `layout` that of the tensor `empty_like` allocates. -/
def pagedAttentionDecodeTriton (d : Device) (q kCache vCache : View K) (m : AttnMetadata)
    (tables : View ℤ) (scale : K) (numKvGroups : ℕ)
    (layout : Layout (q.size 0) (q.size 1) (q.size 2)) (garbage : ℤ → Option K)
    (order : Schedule (decodeGrid (q.size 0) (kCache.size 2))) :
    Except AttentionFault (View (Option K)) :=
  if ! d.tritonAvailable then .error .noTriton
  else if q.size 1 ≠ kCache.size 2 * numKvGroups then
    .error (.cacheHeads (q.size 1) (kCache.size 2) numKvGroups)
  else if m.numSeqs ≠ q.size 0 then .error (.sequences m.numSeqs (q.size 0))
  else
    let kernel := pagedDecodeKernel E q kCache vCache layout.stride tables
      (fun seq => m.contextLens.getD seq 0) scale numKvGroups (nextPow2 numKvGroups) (q.size 2)
      (nextPow2 (q.size 2)) (kCache.size 1)
    .ok ⟨q.size, layout.stride, launch kernel order.order garbage⟩

end Kernel

end TurboServe.Model
