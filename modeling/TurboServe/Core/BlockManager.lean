import TurboServe.Core.PrefixCache
import TurboServe.Core.Sequence

/-!
# The block manager

`engine/core/block_manager.py`: admission, adoption, growth, publication and
release of the KV blocks of sequences. The only place that knows the
allocator, the prefix cache and the sequences at once.

Every operation that mutates a sequence returns the updated sequence next to
the updated manager. `BlockManager.create` wires the cache in as the
allocator's recycler, so the manager's `_prefix_cache` is the allocator's
`recycler` field.
-/

namespace TurboServe.Core

/-- Per-sequence hashing bookkeeping. -/
structure SeqBlocks (D : Type) where
  hashes : List D
  numPublished : ℕ

structure BlockManager (D : Type) where
  allocator : BlockAllocator (PrefixCache D)
  blockSize : ℕ
  state : SeqId → Option (SeqBlocks D)

namespace BlockManager

variable {D : Type} [BlockDigest D] [DecidableEq D]

/-- An allocator, a prefix cache and a manager already wired together. -/
def create (D : Type) (numBlocks blockSize : ℕ) (enablePrefixCaching : Bool) :
    BlockManager D where
  allocator := BlockAllocator.new numBlocks blockSize
    (if enablePrefixCaching then some (PrefixCache.new blockSize) else none)
  blockSize := blockSize
  state := fun _ => none

variable (m : BlockManager D)

def prefixCache : Option (PrefixCache D) := m.allocator.recycler

def setCache (c : PrefixCache D) : BlockManager D :=
  { m with allocator := { m.allocator with recycler := some c } }

/-! ## §1  Admission and adoption -/

/-- Cap on prefix-cache hits: at least one token must be left to compute. -/
def maxHitBlocks (seq : Sequence) : ℕ := (seq.numTokens - 1) / m.blockSize

/-- Whether the pool can hold this sequence's KV, counting prefix hits. The
comparison is over the integers, as in the source: both sides may be negative. -/
def canAllocate (seq : Sequence) : Bool :=
  let needed := seq.numBlocksNeeded m.blockSize
  match m.prefixCache with
  | none => decide (needed ≤ m.allocator.numAllocatable)
  | some c =>
      let found := c.match seq.tokenIds seq.loraId (some (m.maxHitBlocks seq))
      let retainedHits := found.blockIds.countP m.allocator.isRetained
      decide ((needed : ℤ) - found.numBlocks ≤
        (m.allocator.numAllocatable : ℤ) - retainedHits)

/-- The adoption loop of `allocate`: take a reference on each hit, pin it. -/
def takeHits (m : BlockManager D) : List BlockId → Except Fault (BlockManager D)
  | [] => .ok m
  | b :: bs => do
      let a ← (if m.allocator.isRetained b then m.allocator.adopt b
        else m.allocator.incref b)
      let m' := { m with allocator := a }
      match a.recycler with
      | none => takeHits m' bs
      | some c => takeHits (m'.setCache (c.acquire b)) bs

/-- Give the sequence its prefix-cache hits; returns how many tokens they
cover. -/
def allocate (seq : Sequence) :
    Except Fault (ℕ × BlockManager D × Sequence) :=
  if seq.blockTable ≠ [] then
    .error (.alreadyHoldsBlocks seq.requestId seq.blockTable.length)
  else
    match m.prefixCache with
    | none =>
        .ok (0, { m with
            state := Function.update m.state seq.seqId (some ⟨[], 0⟩) },
          { seq with numComputedTokens := 0, numCachedPromptTokens := 0 })
    | some c => do
        let hit := c.match seq.tokenIds seq.loraId (some (m.maxHitBlocks seq))
        let c' := c.recordMatch seq.tokenIds (some (m.maxHitBlocks seq)) hit
        let m' ← (m.setCache c').takeHits hit.blockIds
        .ok (hit.numTokens, { m' with
            state := Function.update m'.state seq.seqId
              (some ⟨hit.hashes, hit.numBlocks⟩) },
          { seq with
            blockTable := hit.blockIds
            numComputedTokens := hit.numTokens
            numCachedPromptTokens := min hit.numTokens seq.numPromptTokens })

/-! ## §2  Growth -/

/-- Whether `n` more tokens fit without preempting anybody. -/
def canAppend (seq : Sequence) (n : ℕ) : Bool :=
  let stop := seq.numComputedTokens + n
  if stop > seq.numTokens then false
  else decide ((stop ⌈/⌉ m.blockSize : ℕ) - (seq.blockTable.length : ℤ) ≤
    (m.allocator.numAllocatable : ℤ))

/-- Flat KV slots for positions `[start, start + n)`. -/
def slotMapping (seq : Sequence) (start n : ℕ) : Except Fault (List Slot) :=
  (List.range' start n).mapM fun position =>
    match seq.blockTable[position / m.blockSize]? with
    | none => .error
        (.noBlockForPosition seq.requestId position seq.blockTable.length)
    | some b => .ok (b * m.blockSize + position % m.blockSize)

/-- `n` rounds of `block_table.append(allocator.allocate())`. -/
def growTable (m : BlockManager D) (table : List BlockId) :
    ℕ → Except Fault (BlockManager D × List BlockId)
  | 0 => .ok (m, table)
  | n + 1 => do
      let got ← m.allocator.allocate
      growTable { m with allocator := got.2 } (table ++ [got.1]) n

/-- Extend the sequence by `n` tokens and return their KV slots. -/
def appendSlots (seq : Sequence) (n : ℕ) :
    Except Fault (List Slot × BlockManager D × Sequence) :=
  if (m.state seq.seqId).isNone then .error (.neverAllocated seq.requestId)
  else
    let start := seq.numComputedTokens
    let stop := start + n
    if stop > seq.numTokens then
      .error (.tooManyTokens seq.requestId seq.numTokens stop)
    else do
      let needed := stop ⌈/⌉ m.blockSize
      let grown ← m.growTable seq.blockTable (needed - seq.blockTable.length)
      let seq' := { seq with blockTable := grown.2 }
      let slots ← grown.1.slotMapping seq' start n
      .ok (slots, grown.1, seq')

/-! ## §3  Publication -/

/-- The inner loop: extend the sequence's own hash chain by `n` blocks. -/
def extendHashes (seq : Sequence) (blockSize : ℕ) (hashes : List D) :
    ℕ → Except Fault (List D)
  | 0 => .ok hashes
  | n + 1 => do
      let nextIndex := hashes.length
      let parent := hashes.getLast?.getD BlockDigest.rootHash
      let toks ← seq.blockTokens nextIndex blockSize
      extendHashes seq blockSize
        (hashes ++ [BlockDigest.blockHash parent toks seq.loraId]) n

/-- The outer loop over the newly completed blocks, `n` of them left. -/
def publishLoop (seq : Sequence) (blockSize : ℕ) (c : PrefixCache D)
    (st : SeqBlocks D) (published : ℕ) :
    ℕ → Except Fault (ℕ × PrefixCache D × SeqBlocks D)
  | 0 => .ok (published, c, st)
  | n + 1 => do
      let index := st.numPublished
      let hashes ← extendHashes seq blockSize st.hashes
        (index + 1 - st.hashes.length)
      match seq.blockTable[index]?, hashes[index]? with
      | some b, some digest =>
          let r ← c.insert b digest
          publishLoop seq blockSize r.2 ⟨hashes, index + 1⟩
            (if r.1 then published + 1 else published) n
      | _, _ =>
          .error (.noBlockForPosition seq.requestId index seq.blockTable.length)

/-- Offer every newly completed block of this sequence to the prefix cache. -/
def publishComputedBlocks (seq : Sequence) :
    Except Fault (ℕ × BlockManager D) :=
  match m.prefixCache, m.state seq.seqId with
  | some c, some st => do
      let numFull :=
        min (seq.numComputedTokens / m.blockSize) seq.blockTable.length
      let out ← publishLoop seq m.blockSize c st 0 (numFull - st.numPublished)
      .ok (out.1, { m.setCache out.2.1 with
        state := Function.update m.state seq.seqId (some out.2.2) })
  | _, _ => .ok (0, m)

/-! ## §4  Release -/

/-- Drop the sequence's references, after publishing what it computed. -/
def free (seq : Sequence) : Except Fault (BlockManager D × Sequence) := do
  let pub ← m.publishComputedBlocks seq
  let a ← pub.2.allocator.decrefMany seq.blockTable
  .ok ({ pub.2 with
      allocator := a, state := Function.update pub.2.state seq.seqId none },
    { seq with blockTable := [] })

/-- Free the blocks and reset progress, leaving the status alone. -/
def release (seq : Sequence) : Except Fault (BlockManager D × Sequence) := do
  let out ← m.free seq
  .ok (out.1,
    { out.2 with numComputedTokens := 0, numCachedPromptTokens := 0 })

/-- Take the sequence's blocks away and mark it for recompute. -/
def preempt (seq : Sequence) : Except Fault (BlockManager D × Sequence) := do
  let out ← m.free seq
  .ok (out.1, out.2.resetForRecompute)

/-- Return every block to the pool and empty the prefix cache. -/
def reset : BlockManager D :=
  { m with
    allocator := { m.allocator.reset with
      recycler := m.allocator.recycler.map PrefixCache.reset }
    state := fun _ => none }

end BlockManager

end TurboServe.Core
