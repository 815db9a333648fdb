import TurboServe.Core.AttnMetadata
import TurboServe.Lib.Launch
import TurboServe.Lib.OnlineSoftmax

/-!
# Paged attention

`engine/model/attention.py`: the reference path, which gathers a sequence's blocks and
attends with a causal mask, over an ordered field with an exponential. A tensor is a
storage read through strides. An entry of the result is `none` until it is written.
-/

namespace TurboServe.Model

open TurboServe.Core Lib

/-! ## §1  Tensors -/

/-- A strided tensor. -/
structure View (α : Type) where
  size : ℕ → ℕ
  stride : ℕ → ℕ
  storage : ℤ → α

namespace View

variable {α : Type} (t : View α)

def at2 (i j : ℤ) : α := t.storage (i * t.stride 0 + j * t.stride 1)

def at3 (i j k : ℤ) : α := t.storage (i * t.stride 0 + j * t.stride 1 + k * t.stride 2)

def at4 (i j k l : ℤ) : α :=
  t.storage (i * t.stride 0 + j * t.stride 1 + k * t.stride 2 + l * t.stride 3)

end View

/-- What the attention paths raise. -/
inductive AttentionFault : Type where
  | noTriton
  | queryHeads (heads kvHeads : ℕ)
  | cacheHeads (heads kvHeads groups : ℕ)
  | sequences (described queries : ℕ)
  | offsets (entries sequences : ℕ)
  | tableRows (rows sequences : ℕ)
  | missingBlocks (seq needed contextLen : ℕ) (supplied : List ℤ)
  | blockRange (blocks : List ℤ)
  | shortContext (seq contextLen queryLen : ℕ)
deriving DecidableEq

/-! ## §2  The host-side plan -/

structure BatchPlan where
  queryOffsets : List ℕ
  contextLens : List ℕ
  blockIds : List (List ℤ)
  blockSize : ℕ

namespace BatchPlan

def numSeqs (p : BatchPlan) : ℕ := p.contextLens.length

/-- The blocks sequence `seq` needs, none of them padding. -/
def trimRow (m : AttnMetadata) (blockSize seq : ℕ) : Except AttentionFault (List ℤ) :=
  let ctx := m.contextLens.getD seq 0
  let needed := ctx ⌈/⌉ blockSize
  let row := (m.blockTables.getD seq []).take needed
  if row.length ≠ needed ∨ padBlock ∈ row then
    .error (.missingBlocks seq needed ctx (row.filter (· ≠ padBlock)))
  else .ok row

def fromMetadata (m : AttnMetadata) (blockSize : ℕ) : Except AttentionFault BatchPlan :=
  if m.queryStartLoc.length ≠ m.contextLens.length + 1 then
    .error (.offsets m.queryStartLoc.length m.contextLens.length)
  else if m.blockTables.length ≠ m.contextLens.length then
    .error (.tableRows m.blockTables.length m.contextLens.length)
  else
    match (List.range m.contextLens.length).mapM (trimRow m blockSize) with
    | .error e => .error e
    | .ok rows => .ok ⟨m.queryStartLoc, m.contextLens, rows, blockSize⟩

end BatchPlan

/-! ## §3  The reference -/

section Reference

variable {K : Type} [Field K] [LinearOrder K] (E : Exponential K)

/-- `gather_sequence_kv`: position `p` of the gathered context, for a KV head. -/
def gatherSequenceKv (cache : View K) (blockIds : List ℤ) :
    Except AttentionFault (ℕ → ℕ → ℕ → K) :=
  if ∃ b ∈ blockIds, ¬ (0 ≤ b ∧ b < cache.size 0) then .error (.blockRange blockIds)
  else .ok fun p h d =>
    cache.at4 (blockIds.getD (p / cache.size 1) 0) (p % cache.size 1 : ℕ) h d

/-- `causal_block_mask`: whether query `j` may attend to key `i`. -/
def causalBlockMask (queryLen contextLen j i : ℕ) : Bool := decide (i ≤ contextLen - queryLen + j)

/-- One row of `scaled_dot_product_attention` over `n` keys. -/
def scaledDotProduct (scale : K) (headDim n : ℕ) (q : ℕ → K) (keys values : ℕ → ℕ → K)
    (mask : ℕ → Bool) (d : ℕ) : K :=
  let score i : WithBot K :=
    if mask i then ((∑ e ∈ Finset.range headDim, q e * keys i e) * scale : K) else ⊥
  let total := ∑ i ∈ Finset.range n, E.exp (score i)
  ∑ i ∈ Finset.range n, E.exp (score i) / total * values i d

/-- One sequence's queries, written to its rows of `out`. -/
def attendSequence (q kCache vCache : View K) (plan : BatchPlan) (scale : K)
    (out : ℕ → ℕ → ℕ → Option K) (seq : ℕ) : Except AttentionFault (ℕ → ℕ → ℕ → Option K) :=
  let group := q.size 1 / kCache.size 2
  let start := plan.queryOffsets.getD seq 0
  let stop := plan.queryOffsets.getD (seq + 1) 0
  let qLen := stop - start
  if qLen = 0 then .ok out
  else
    let ctx := plan.contextLens.getD seq 0
    if ctx < qLen then .error (.shortContext seq ctx qLen)
    else
      match gatherSequenceKv kCache (plan.blockIds.getD seq []) with
      | .error e => .error e
      | .ok keys =>
          match gatherSequenceKv vCache (plan.blockIds.getD seq []) with
          | .error e => .error e
          | .ok values => .ok fun t h d =>
              if start ≤ t ∧ t < stop then
                some (scaledDotProduct E scale (q.size 2) ctx (fun e => q.at3 t h e)
                  (fun i => keys i (h / group)) (fun i => values i (h / group))
                  (causalBlockMask qLen ctx (t - start)) d)
              else out t h d

def pagedAttentionReference (q kCache vCache : View K) (m : AttnMetadata) (scale : K)
    (plan : Option BatchPlan) : Except AttentionFault (ℕ → ℕ → ℕ → Option K) :=
  if q.size 1 % kCache.size 2 ≠ 0 then .error (.queryHeads (q.size 1) (kCache.size 2))
  else
    match plan.elim (BatchPlan.fromMetadata m (kCache.size 1)) .ok with
    | .error e => .error e
    | .ok plan => (List.range plan.numSeqs).foldlM
        (attendSequence E q kCache vCache plan scale) fun _ _ _ => none

end Reference

end TurboServe.Model
