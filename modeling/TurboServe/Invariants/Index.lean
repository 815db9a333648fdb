import TurboServe.Core.PrefixCache
import TurboServe.Core.Sequence

/-!
# Hash chains and prefix matches

A chain digest depends on the tokens it covers and on nothing after them, and
`match` returns a run of consecutive chain digests with the blocks indexed
under them. When block digests are collision free, a chain digest in turn
determines its tokens, its adapter and its length.
-/

namespace TurboServe.Core

variable {D : Type} [BlockDigest D]

/-! ## §1  What a chain digest depends on -/

theorem blockSlice_congr {toks toks' : List TokenId} {bs i n : ℕ} (hi : i < n)
    (h : toks.take (n * bs) = toks'.take (n * bs)) :
    blockSlice toks bs i = blockSlice toks' bs i := by
  have hle : i * bs + bs ≤ n * bs := by
    calc i * bs + bs = (i + 1) * bs := (Nat.succ_mul i bs).symm
      _ ≤ n * bs := Nat.mul_le_mul_right bs hi
  have key : ∀ l : List TokenId,
      blockSlice l bs i = ((l.take (n * bs)).drop (i * bs)).take bs := by
    intro l
    rw [blockSlice, List.drop_take, List.take_take, min_eq_left (by omega)]
  rw [key toks, key toks', h]

theorem chainHash_congr {toks toks' : List TokenId} {bs n : ℕ} (lora : ℤ)
    (h : toks.take (n * bs) = toks'.take (n * bs)) :
    chainHash D toks bs lora n = chainHash D toks' bs lora n := by
  suffices hk : ∀ k ≤ n, chainHash D toks bs lora k = chainHash D toks' bs lora k from
    hk n le_rfl
  intro k hk
  induction k with
  | zero => rfl
  | succ k ih =>
      rw [chainHash, chainHash, ih (Nat.le_of_succ_le hk), blockSlice_congr hk h]

/-- Tokens generated later do not change the digests of complete blocks. -/
theorem chainHash_append {toks more : List TokenId} {bs n : ℕ} (lora : ℤ)
    (h : n * bs ≤ toks.length) :
    chainHash D (toks ++ more) bs lora n = chainHash D toks bs lora n :=
  chainHash_congr lora (List.take_append_of_le_length h)

/-! ## §2  What `match` finds -/

namespace PrefixCache

variable (c : PrefixCache D) (toks : List TokenId) (lora : ℤ)

theorem length_matchFrom_le (n index : ℕ) (parent : D) :
    (c.matchFrom toks lora n index parent).length ≤ n := by
  induction n generalizing index parent with
  | zero => exact le_rfl
  | succ n ih =>
      simp only [matchFrom]
      split
      · exact Nat.zero_le _
      · exact Nat.succ_le_succ (ih _ _)

/-- The digests of a match are consecutive chain digests. -/
theorem matchFrom_hashes (n index : ℕ) :
    (c.matchFrom toks lora n index (chainHash D toks c.blockSize lora index)).map
        Prod.snd =
      (List.range' index (c.matchFrom toks lora n index
          (chainHash D toks c.blockSize lora index)).length).map
        fun k => chainHash D toks c.blockSize lora (k + 1) := by
  induction n generalizing index with
  | zero => rfl
  | succ n ih =>
      simp only [matchFrom]
      split
      · rfl
      · simp only [List.map_cons, List.length_cons, List.range'_succ]
        exact congrArg₂ List.cons rfl (ih (index + 1))

/-- Every block of a match is indexed under the digest found with it. -/
theorem matchFrom_indexed (n index : ℕ) (parent : D) {p : BlockId × D}
    (hp : p ∈ c.matchFrom toks lora n index parent) : c.byHash p.2 = some p.1 := by
  induction n generalizing index parent with
  | zero => cases hp
  | succ n ih =>
      simp only [matchFrom] at hp
      split at hp
      · cases hp
      · next b hb =>
          rcases List.mem_cons.mp hp with rfl | hp
          · exact hb
          · exact ih _ _ hp

/-- A cache that knows less finds a shorter prefix. -/
theorem length_matchFrom_mono {c' : PrefixCache D} (hbs : c'.blockSize = c.blockSize)
    (hsub : ∀ d b, c'.byHash d = some b → c.byHash d = some b) (n index : ℕ) (parent : D) :
    (c'.matchFrom toks lora n index parent).length ≤
      (c.matchFrom toks lora n index parent).length := by
  induction n generalizing index parent with
  | zero => exact le_rfl
  | succ n ih =>
      simp only [matchFrom, hbs]
      split
      · exact Nat.zero_le _
      · next b hb =>
          rw [hsub _ b hb]
          exact Nat.succ_le_succ (ih _ _)

theorem match_blockSize (maxBlocks : Option ℕ) :
    (c.match toks lora maxBlocks).blockSize = c.blockSize := rfl

theorem match_hashes (maxBlocks : Option ℕ) :
    (c.match toks lora maxBlocks).hashes =
      (List.range (c.match toks lora maxBlocks).blockIds.length).map
        fun k => chainHash D toks c.blockSize lora (k + 1) := by
  have h := c.matchFrom_hashes toks lora (c.numLookups toks maxBlocks) 0
  rw [← List.range_eq_range'] at h
  simpa [PrefixCache.match, chainHash] using h

theorem numBlocks_match_le (m : ℕ) :
    (c.match toks lora (some m)).blockIds.length ≤ m := by
  have h := c.length_matchFrom_le toks lora (c.numLookups toks (some m)) 0
    BlockDigest.rootHash
  have hm : c.numLookups toks (some m) ≤ m := Nat.min_le_right _ _
  simpa [PrefixCache.match] using h.trans hm

variable {c toks lora}

/-- Block `k` of a match is indexed under the sequence's own chain digest. -/
theorem match_indexed {maxBlocks : Option ℕ} {k : ℕ} {b : BlockId}
    (hk : (c.match toks lora maxBlocks).blockIds[k]? = some b) :
    c.byHash (chainHash D toks c.blockSize lora (k + 1)) = some b := by
  have hlt : k < (c.match toks lora maxBlocks).blockIds.length :=
    (List.getElem?_eq_some_iff.mp hk).1
  have hhash : (c.match toks lora maxBlocks).hashes[k]? =
      some (chainHash D toks c.blockSize lora (k + 1)) := by
    rw [match_hashes, List.getElem?_map, List.getElem?_range hlt]
    rfl
  simp only [PrefixCache.match, List.getElem?_map, Option.map_eq_some_iff] at hk hhash
  obtain ⟨p, hp, rfl⟩ := hk
  obtain ⟨p', hp', hd⟩ := hhash
  obtain rfl : p = p' := Option.some.inj (hp.symm.trans hp')
  rw [← hd]
  exact matchFrom_indexed _ _ _ _ _ _ (List.mem_of_getElem? hp)

end PrefixCache

/-! ## §3  Collision freedom -/

section CollisionFree

variable [CollisionFree D]

/-- Equal chain digests cover the same number of blocks of the same tokens
under the same adapter. -/
theorem chainHash_inj {toks toks' : List TokenId} {bs : ℕ} {lora lora' : ℤ}
    {n n' : ℕ} (hn : n * bs ≤ toks.length) (hn' : n' * bs ≤ toks'.length)
    (h : chainHash D toks bs lora n = chainHash D toks' bs lora' n') :
    n = n' ∧ toks.take (n * bs) = toks'.take (n * bs) ∧ (0 < n → lora = lora') := by
  induction n generalizing n' with
  | zero =>
      cases n' with
      | zero => simp
      | succ n' => exact absurd h.symm (CollisionFree.blockHash_ne_root _ _ _)
  | succ n ih =>
      cases n' with
      | zero => exact absurd h (CollisionFree.blockHash_ne_root _ _ _)
      | succ n' =>
          rw [chainHash, chainHash] at h
          rw [Nat.succ_mul] at hn hn'
          obtain ⟨hparent, hslice, hlora⟩ := CollisionFree.blockHash_inj h
          obtain ⟨rfl, htake, -⟩ := ih (by omega) (by omega) hparent
          refine ⟨rfl, ?_, fun _ => hlora⟩
          rw [Nat.succ_mul, List.take_add, List.take_add, htake]
          exact congrArg _ hslice

/-- The digests along one chain are pairwise different. -/
theorem chainHash_length_inj {toks : List TokenId} {bs : ℕ} {lora : ℤ} {n n' : ℕ}
    (h : chainHash D toks bs lora n = chainHash D toks bs lora n') : n = n' := by
  induction n generalizing n' with
  | zero =>
      cases n' with
      | zero => rfl
      | succ n' => exact absurd h.symm (CollisionFree.blockHash_ne_root _ _ _)
  | succ n ih =>
      cases n' with
      | zero => exact absurd h (CollisionFree.blockHash_ne_root _ _ _)
      | succ n' => rw [ih (CollisionFree.blockHash_inj h).1]

end CollisionFree

end TurboServe.Core
