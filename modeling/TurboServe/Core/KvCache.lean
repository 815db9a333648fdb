import TurboServe.Core.Types

/-!
# The block allocator

`engine/core/kv_cache.py`: a reference-counted free list over a fixed pool of
KV blocks. A block is free (on the free list), in use (reference count
positive) or retained (unreferenced, but held by the recycler because its
contents are a cached prefix).

The allocator and its recycler call each other in the source through one
object reference; here the recycler is a field of the allocator, so that the
prefix cache the block manager talks to and the one the allocator consults are
the same value by construction.
-/

namespace TurboServe.Core

/-- The hook a prefix cache offers the allocator. -/
class BlockRecycler (R : Type) where
  /-- Offer a just-freed block; `true` retains it. -/
  onZeroRefs : R → BlockId → Bool × R
  /-- Give up to `n` retained blocks back, least valuable first. -/
  reclaim : R → ℕ → List BlockId × R

/-- `_refs` is a list indexed by block id in the source; a total function here,
read only under `checkId`. -/
structure BlockAllocator (R : Type) where
  numBlocks : ℕ
  blockSize : ℕ
  refs : BlockId → ℕ
  free : List BlockId
  retained : Finset BlockId
  recycler : Option R

namespace BlockAllocator

variable {R : Type}

def new (numBlocks blockSize : ℕ) (recycler : Option R) : BlockAllocator R where
  numBlocks := numBlocks
  blockSize := blockSize
  refs := fun _ => 0
  free := List.range numBlocks
  retained := ∅
  recycler := recycler

/-! ## §1  Introspection -/

variable (a : BlockAllocator R)

/-- Blocks `allocate` could serve right now, retained ones included. -/
def numAllocatable : ℕ := a.free.length + a.retained.card

def numInUse : ℕ := a.numBlocks - a.free.length - a.retained.card

def isFree (b : BlockId) : Bool := decide (a.refs b = 0 ∧ b ∉ a.retained)

def isRetained (b : BlockId) : Bool := decide (b ∈ a.retained)

def checkId (b : BlockId) : Except Fault Unit :=
  if b < a.numBlocks then .ok () else .error (.blockOutOfRange b a.numBlocks)

/-! ## §2  Allocation and release -/

/-- Return retained blocks to the free list; ids that are not retained are
ignored. -/
def releaseRetained (a : BlockAllocator R) :
    List BlockId → Except Fault (BlockAllocator R)
  | [] => .ok a
  | b :: bs => do
      a.checkId b
      if b ∈ a.retained then
        releaseRetained
          { a with retained := a.retained.erase b, free := a.free ++ [b] } bs
      else releaseRetained a bs

variable [BlockRecycler R]

/-- `_reclaim`: ask the recycler for retained blocks and free them. -/
def reclaim (n : ℕ) : Except Fault (BlockAllocator R) :=
  match a.recycler with
  | none => .ok a
  | some r =>
      if a.retained = ∅ then .ok a
      else
        let given := BlockRecycler.reclaim r (min n a.retained.card)
        { a with recycler := some given.2 }.releaseRetained given.1

/-- Take one block, with a reference count of 1. -/
def allocate : Except Fault (BlockId × BlockAllocator R) := do
  let a' ← (if a.free = [] then a.reclaim 1 else .ok a)
  match a'.free with
  | [] => .error (.outOfBlocks a'.numInUse a'.numBlocks a'.retained.card)
  | b :: rest =>
      .ok (b, { a' with free := rest, refs := Function.update a'.refs b 1 })

/-- Take a reference on a retained block, pulling it out of the recycler. -/
def adopt (b : BlockId) : Except Fault (BlockAllocator R) := do
  a.checkId b
  if b ∈ a.retained then
    .ok { a with
      retained := a.retained.erase b, refs := Function.update a.refs b 1 }
  else .error (.notRetained b (a.refs b))

/-- Add a reference to an in-use block. -/
def incref (b : BlockId) : Except Fault (BlockAllocator R) := do
  a.checkId b
  if a.refs b = 0 then .error (.increfUnowned b (a.isRetained b))
  else .ok { a with refs := Function.update a.refs b (a.refs b + 1) }

/-- `_release`: offer a now-unreferenced block to the recycler, else free it. -/
def release (b : BlockId) : BlockAllocator R :=
  match a.recycler with
  | none => { a with free := a.free ++ [b] }
  | some r =>
      let kept := BlockRecycler.onZeroRefs r b
      if kept.1 then
        { a with retained := insert b a.retained, recycler := some kept.2 }
      else { a with free := a.free ++ [b], recycler := some kept.2 }

/-- Drop a reference, releasing the block at zero. -/
def decref (b : BlockId) : Except Fault (BlockAllocator R) := do
  a.checkId b
  if a.refs b = 0 then .error (.doubleFree b (a.isRetained b))
  else
    let a' := { a with refs := Function.update a.refs b (a.refs b - 1) }
    if a.refs b - 1 = 0 then .ok (a'.release b) else .ok a'

def decrefMany (a : BlockAllocator R) :
    List BlockId → Except Fault (BlockAllocator R)
  | [] => .ok a
  | b :: bs => do
      let a' ← a.decref b
      decrefMany a' bs

/-- Drop every reference and return the whole pool to the free list. The
recycler keeps its own index; `BlockManager.reset` empties both. -/
def reset : BlockAllocator R :=
  { a with
    refs := fun _ => 0, free := List.range a.numBlocks, retained := ∅ }

end BlockAllocator

end TurboServe.Core
