import TurboServe.Core.PrefixCache
import TurboServe.Lib.FixedWidth

/-!
# The hash chain, byte by byte

`_token_bytes`, `block_hash` and `block_hash_chain` of `engine/core/prefix_cache.py`,
and the walk of `match` with the digests it computes. `blake2b` (with a 16-byte
digest) is a parameter. Token and adapter ids are encoded as signed 64-bit integers;
an id outside that range raises.

The rest of the engine's model abstracts from the bytes (`BlockDigest`);
`matchTokens_eq_match` says that it loses nothing when every id is in range.
-/

namespace TurboServe.Core

open Lib.FixedWidth

abbrev Digest : Type := List UInt8

/-- What a hash chain raises. -/
inductive HashError where
  /-- `OverflowError: int too big to convert` -/
  | overflow (v : ℤ)
  /-- `ValueError: block_size must be positive` -/
  | blockSize (n : ℕ)
deriving DecidableEq

/-! ## §1  Encoding -/

/-- `int(v).to_bytes(8, "little", signed=True)` -/
def int64Bytes (v : ℤ) : Except HashError (List UInt8) :=
  if InRange 8 v then .ok (signedBytes 8 v) else .error (.overflow v)

def tokenBytes : List TokenId → Except HashError (List UInt8)
  | [] => .ok []
  | t :: ts => do
      let head ← int64Bytes t
      let rest ← tokenBytes ts
      .ok (head ++ rest)

/-- The bytes `block_hash` feeds to the digest, in the order of its `update`s. -/
def blockInput (parent : Digest) (toks : List TokenId) (lora : ℤ) :
    Except HashError (List UInt8) := do
  let adapter ← int64Bytes lora
  let tokens ← tokenBytes toks
  .ok (parent ++ adapter ++ tokens)

/-! ## §2  The chain -/

section Chain

variable (blake2b : List UInt8 → Digest)

/-- `ROOT_HASH`, domain-separated. -/
def rootHash : Digest :=
  blake2b ("turboserve/prefix-cache/v1".toList.map fun ch => UInt8.ofNat ch.toNat)

def blockHash (parent : Digest) (toks : List TokenId) (lora : ℤ) :
    Except HashError Digest := do
  let input ← blockInput parent toks lora
  .ok (blake2b input)

/-- How many full blocks a walk over `toks` considers. -/
def numFull (toks : List TokenId) (blockSize : ℕ) : Option ℤ → ℕ
  | none => toks.length / blockSize
  | some m => min (toks.length / blockSize) (max 0 m).toNat

/-- The loop of `block_hash_chain`, from block `index` on, for `n` blocks. -/
def chainFrom (toks : List TokenId) (blockSize : ℕ) (lora : ℤ) :
    ℕ → ℕ → Digest → Except HashError (List Digest)
  | 0, _, _ => .ok []
  | n + 1, index, parent => do
      let digest ← blockHash blake2b parent (blockSlice toks blockSize index) lora
      let rest ← chainFrom toks blockSize lora n (index + 1) digest
      .ok (digest :: rest)

/-- Hashes of every full block of `toks`, in order, `maxBlocks` at most. -/
def blockHashChain (toks : List TokenId) (blockSize : ℕ) (lora : ℤ)
    (maxBlocks : Option ℤ) : Except HashError (List Digest) :=
  if blockSize < 1 then .error (.blockSize blockSize)
  else chainFrom blake2b toks blockSize lora (numFull toks blockSize maxBlocks) 0
    (rootHash blake2b)

/-- The strings the loop of `block_hash_chain` hashes. -/
def inputsFrom (toks : List TokenId) (blockSize : ℕ) (lora : ℤ) :
    ℕ → ℕ → Digest → List (List UInt8)
  | 0, _, _ => []
  | n + 1, index, parent =>
      match blockInput parent (blockSlice toks blockSize index) lora with
      | .error _ => []
      | .ok input =>
          input :: inputsFrom toks blockSize lora n (index + 1) (blake2b input)

def chainInputs (toks : List TokenId) (blockSize : ℕ) (lora : ℤ)
    (maxBlocks : Option ℤ) : List (List UInt8) :=
  inputsFrom blake2b toks blockSize lora (numFull toks blockSize maxBlocks) 0
    (rootHash blake2b)

/-! ## §3  The walk of `match` -/

/-- As `PrefixCache.matchFrom`, computing the digests. -/
def PrefixCache.lookupFrom (c : PrefixCache Digest) (toks : List TokenId) (lora : ℤ) :
    ℕ → ℕ → Digest → Except HashError (List (BlockId × Digest))
  | 0, _, _ => .ok []
  | n + 1, index, parent => do
      let digest ← blockHash blake2b parent (blockSlice toks c.blockSize index) lora
      match c.byHash digest with
      | none => .ok []
      | some b =>
          let rest ← lookupFrom c toks lora n (index + 1) digest
          .ok ((b, digest) :: rest)

/-- `match`, with its errors; what it counts is `recordMatch`. -/
def PrefixCache.matchTokens (c : PrefixCache Digest) (toks : List TokenId) (lora : ℤ)
    (maxBlocks : Option ℤ) : Except HashError (PrefixMatch Digest) := do
  let found ← c.lookupFrom blake2b toks lora (numFull toks c.blockSize maxBlocks) 0
    (rootHash blake2b)
  .ok { blockIds := found.map Prod.fst, hashes := found.map Prod.snd,
        blockSize := c.blockSize }

/-! ## §4  The abstract chain -/

/-- The digest of the engine's model, on bytes; a `block_hash` that raises has no
digest. -/
@[reducible] def bytesDigest : BlockDigest Digest where
  rootHash := rootHash blake2b
  blockHash parent toks lora :=
    blake2b (parent ++ signedBytes 8 lora ++ concatBytes 8 toks)

end Chain

theorem tokenBytes_eq {toks : List TokenId} (h : ∀ t ∈ toks, InRange 8 t) :
    tokenBytes toks = .ok (concatBytes 8 toks) := by
  induction toks with
  | nil => rfl
  | cons t ts ih =>
      rw [List.forall_mem_cons] at h
      rw [tokenBytes, int64Bytes, if_pos h.1, ih h.2]
      rfl

theorem inRange_of_tokenBytes {toks : List TokenId} {bs : List UInt8}
    (h : tokenBytes toks = .ok bs) : ∀ t ∈ toks, InRange 8 t := by
  induction toks generalizing bs with
  | nil => simp
  | cons t ts ih =>
      rw [tokenBytes, int64Bytes] at h
      split at h
      · next ht =>
          cases hts : tokenBytes ts with
          | error e => rw [hts] at h; cases h
          | ok rest => exact List.forall_mem_cons.mpr ⟨ht, ih hts⟩
      · cases h

theorem blockInput_eq {parent : Digest} {toks : List TokenId} {lora : ℤ}
    (hl : InRange 8 lora) (ht : ∀ t ∈ toks, InRange 8 t) :
    blockInput parent toks lora =
      .ok (parent ++ signedBytes 8 lora ++ concatBytes 8 toks) := by
  rw [blockInput, int64Bytes, if_pos hl, tokenBytes_eq ht]
  rfl

/-- What a string that was hashed consists of. -/
theorem blockInput_ok {parent : Digest} {toks : List TokenId} {lora : ℤ}
    {input : List UInt8} (h : blockInput parent toks lora = .ok input) :
    InRange 8 lora ∧ (∀ t ∈ toks, InRange 8 t) ∧
      input = parent ++ signedBytes 8 lora ++ concatBytes 8 toks := by
  have hl : InRange 8 lora := by
    by_contra hl
    rw [blockInput, int64Bytes, if_neg hl] at h
    cases h
  have ht : ∀ t ∈ toks, InRange 8 t := by
    cases hts : tokenBytes toks with
    | ok bs => exact inRange_of_tokenBytes hts
    | error e =>
        rw [blockInput, int64Bytes, if_pos hl, hts] at h
        cases h
  rw [blockInput_eq hl ht] at h
  exact ⟨hl, ht, (Except.ok.inj h).symm⟩

/-- Blocks of the same length do not alias: what is hashed determines the parent's
digest, the adapter and the tokens. -/
theorem blockInput_inj {p p' : Digest} {toks toks' : List TokenId} {lora lora' : ℤ}
    {input : List UInt8} (h : blockInput p toks lora = .ok input)
    (h' : blockInput p' toks' lora' = .ok input) (hlen : toks.length = toks'.length) :
    p = p' ∧ lora = lora' ∧ toks = toks' := by
  obtain ⟨hl, ht, rfl⟩ := blockInput_ok h
  obtain ⟨hl', ht', heq⟩ := blockInput_ok h'
  obtain ⟨hhead, htoks⟩ := List.append_inj' heq (by
    rw [length_concatBytes, length_concatBytes, hlen])
  obtain ⟨hp, hlora⟩ := List.append_inj' hhead (by
    rw [length_signedBytes, length_signedBytes])
  have h8 : 0 < 8 := by decide
  exact ⟨hp, signedBytes_inj h8 hl hl' hlora, concatBytes_inj h8 ht ht' htoks⟩

/-- The walk on bytes is the walk of the engine's model. -/
theorem lookupFrom_eq_matchFrom (blake2b : List UInt8 → Digest) (c : PrefixCache Digest)
    {toks : List TokenId} {lora : ℤ} (hl : InRange 8 lora)
    (ht : ∀ t ∈ toks, InRange 8 t) (n index : ℕ) (parent : Digest) :
    c.lookupFrom blake2b toks lora n index parent =
      .ok (letI : BlockDigest Digest := bytesDigest blake2b
        c.matchFrom toks lora n index parent) := by
  induction n generalizing index parent with
  | zero => rfl
  | succ n ih =>
      have hslice : ∀ t ∈ blockSlice toks c.blockSize index, InRange 8 t := fun t h =>
        ht t (List.mem_of_mem_drop (List.mem_of_mem_take h))
      rw [PrefixCache.lookupFrom, blockHash, blockInput_eq hl hslice]
      simp only [Except.bind, bind, PrefixCache.matchFrom]
      cases hb : c.byHash (blake2b (parent ++ signedBytes 8 lora ++
          concatBytes 8 (blockSlice toks c.blockSize index))) with
      | none => rfl
      | some b =>
          simp only [ih]
          rfl

theorem matchTokens_eq_match (blake2b : List UInt8 → Digest) (c : PrefixCache Digest)
    {toks : List TokenId} {lora : ℤ} (hl : InRange 8 lora)
    (ht : ∀ t ∈ toks, InRange 8 t) (maxBlocks : Option ℕ) :
    c.matchTokens blake2b toks lora (maxBlocks.map Int.ofNat) =
      .ok (letI : BlockDigest Digest := bytesDigest blake2b
        c.match toks lora maxBlocks) := by
  have hnum : numFull toks c.blockSize (maxBlocks.map Int.ofNat) =
      c.numLookups toks maxBlocks := by
    cases maxBlocks with
    | none => rfl
    | some m => simp [numFull, PrefixCache.numLookups]
  rw [PrefixCache.matchTokens, lookupFrom_eq_matchFrom blake2b c hl ht, hnum]
  rfl

end TurboServe.Core
