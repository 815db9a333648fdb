import TurboServe.Core.KvCache

/-!
# The prefix cache

`engine/core/prefix_cache.py`: a hash-to-block index of computed KV blocks,
with LRU eviction of the blocks no sequence is using. A block is identified by
the chained digest of the whole prefix that ends at it, so two sequences share
a block exactly when they share that prefix and the adapter.
-/

namespace TurboServe.Core

variable {D : Type} [BlockDigest D]

/-! ## §1  The hash chain -/

/-- The tokens of block `i`: `token_ids[i * block_size : (i + 1) * block_size]`. -/
def blockSlice (toks : List TokenId) (blockSize i : ℕ) : List TokenId :=
  (toks.drop (i * blockSize)).take blockSize

/-- The digest of the first `n` full blocks: `ROOT_HASH` for `n = 0`. -/
def chainHash (D : Type) [BlockDigest D] (toks : List TokenId)
    (blockSize : ℕ) (lora : ℤ) : ℕ → D
  | 0 => BlockDigest.rootHash
  | n + 1 =>
      BlockDigest.blockHash (chainHash D toks blockSize lora n)
        (blockSlice toks blockSize n) lora

/-! ## §2  The index -/

/-- `evictable` is the `OrderedDict` of the source, oldest first. -/
structure PrefixCache (D : Type) where
  blockSize : ℕ
  byHash : D → Option BlockId
  byBlock : BlockId → Option D
  evictable : List BlockId
  hits : ℕ
  misses : ℕ
  inserts : ℕ
  evictions : ℕ

/-- The longest cached prefix found for a token sequence. -/
structure PrefixMatch (D : Type) where
  blockIds : List BlockId
  hashes : List D
  blockSize : ℕ

def PrefixMatch.numBlocks (m : PrefixMatch D) : ℕ := m.blockIds.length

def PrefixMatch.numTokens (m : PrefixMatch D) : ℕ := m.blockIds.length * m.blockSize

namespace PrefixCache

def new (blockSize : ℕ) : PrefixCache D where
  blockSize := blockSize
  byHash := fun _ => none
  byBlock := fun _ => none
  evictable := []
  hits := 0
  misses := 0
  inserts := 0
  evictions := 0

variable (c : PrefixCache D)

def containsBlock (b : BlockId) : Bool := (c.byBlock b).isSome

def isEvictable (b : BlockId) : Bool := decide (b ∈ c.evictable)

/-- The walk of `match`: from block `index` on, `n` blocks at most, stopping at
the first miss. -/
def matchFrom (c : PrefixCache D) (toks : List TokenId) (lora : ℤ) :
    ℕ → ℕ → D → List (BlockId × D)
  | 0, _, _ => []
  | n + 1, index, parent =>
      let digest :=
        BlockDigest.blockHash parent (blockSlice toks c.blockSize index) lora
      match c.byHash digest with
      | none => []
      | some b => (b, digest) :: matchFrom c toks lora n (index + 1) digest

/-- How many full blocks a lookup considers. -/
def numLookups (toks : List TokenId) (maxBlocks : Option ℕ) : ℕ :=
  let numFull := toks.length / c.blockSize
  match maxBlocks with
  | none => numFull
  | some m => min numFull m

/-- Longest run of cached full blocks at the beginning of `toks`. -/
def «match» (toks : List TokenId) (lora : ℤ) (maxBlocks : Option ℕ) :
    PrefixMatch D :=
  let found := c.matchFrom toks lora (c.numLookups toks maxBlocks) 0
    BlockDigest.rootHash
  { blockIds := found.map Prod.fst, hashes := found.map Prod.snd,
    blockSize := c.blockSize }

/-- The `record=True` half of `match`: count hits and misses. -/
def recordMatch (toks : List TokenId) (maxBlocks : Option ℕ)
    (m : PrefixMatch D) : PrefixCache D :=
  { c with
    hits := c.hits + m.numBlocks
    misses := c.misses + (c.numLookups toks maxBlocks - m.numBlocks) }

/-! ## §3  Mutation -/

/-- Index a freshly computed, full block. `false` means an equivalent block is
already cached, and the caller's block stays uncached. -/
def insert [DecidableEq D] (b : BlockId) (digest : D) :
    Except Fault (Bool × PrefixCache D) :=
  match c.byBlock b with
  | some existing =>
      if existing = digest then .ok (false, c)
      else .error (.cachedUnderOtherHash b)
  | none =>
      if (c.byHash digest).isSome then .ok (false, c)
      else .ok (true,
        { c with
          byHash := Function.update c.byHash digest (some b)
          byBlock := Function.update c.byBlock b (some digest)
          inserts := c.inserts + 1 })

/-- A sequence now references this block, so it must not be evicted. -/
def acquire (b : BlockId) : PrefixCache D :=
  { c with evictable := c.evictable.erase b }

/-- The block lost its last reference; keep it if it is cached. -/
def release (b : BlockId) : Bool × PrefixCache D :=
  if (c.byBlock b).isSome then
    (true, { c with evictable := c.evictable.erase b ++ [b] })
  else (false, c)

/-- Forget one block's entry in both indexes. -/
def forget [DecidableEq D] (b : BlockId) : PrefixCache D :=
  match c.byBlock b with
  | none => c
  | some digest =>
      { c with
        byBlock := Function.update c.byBlock b none
        byHash := Function.update c.byHash digest none }

/-- Drop up to `n` least recently released blocks from the index. -/
def evict [DecidableEq D] (c : PrefixCache D) : ℕ → List BlockId × PrefixCache D
  | 0 => ([], c)
  | n + 1 =>
      match c.evictable with
      | [] => ([], c)
      | b :: rest =>
          let c' := { c with evictable := rest }.forget b
          let out := evict { c' with evictions := c'.evictions + 1 } n
          (b :: out.1, out.2)

/-- Forget a block entirely, whether pinned or evictable. Returns whether it was
known. -/
def remove [DecidableEq D] (b : BlockId) : Bool × PrefixCache D :=
  match c.byBlock b with
  | none => (false, c)
  | some _ => (true, { c.forget b with evictable := c.evictable.erase b })

/-- Empty the index, keeping the statistics counters. -/
def reset : PrefixCache D :=
  { c with byHash := fun _ => none, byBlock := fun _ => none, evictable := [] }

instance [DecidableEq D] : BlockRecycler (PrefixCache D) where
  onZeroRefs := release
  reclaim := evict

end PrefixCache

end TurboServe.Core
