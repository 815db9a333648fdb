import TurboServe.Core.BlockHash
import TurboServe.Invariants.Index
import TurboServe.Invariants.Pool

/-!
# Prefix identity and the longest match

Where `blake2b` does not collide on the strings that are hashed, the `i`-th digests of
two chains agree exactly when the adapters and the first `i + 1` blocks of tokens do.
After any history of operations, the index is what the answers of the operations say
(`Ledger`), and `match` finds the longest run of leading blocks that are indexed.
-/

namespace TurboServe.Core

open Lib.FixedWidth

/-- `blake2b` does not collide on the strings of `S`. -/
def CollisionFreeOn (blake2b : List UInt8 → Digest) (S : List (List UInt8)) : Prop :=
  ∀ x ∈ S, ∀ y ∈ S, blake2b x = blake2b y → x = y

instance (blake2b : List UInt8 → Digest) (S : List (List UInt8)) :
    Decidable (CollisionFreeOn blake2b S) :=
  inferInstanceAs (Decidable (∀ x ∈ S, ∀ y ∈ S, blake2b x = blake2b y → x = y))

/-! ## §1  Prefix identity -/

section Identity

variable {blake2b : List UInt8 → Digest} {toks toks' : List TokenId} {bs : ℕ}
  {lora lora' : ℤ}

/-- What one turn of the chain's loop did. -/
theorem chainFrom_succ {n j : ℕ} {p : Digest} {hs : List Digest}
    (h : chainFrom blake2b toks bs lora (n + 1) j p = .ok hs) :
    ∃ input rest, blockInput p (blockSlice toks bs j) lora = .ok input ∧
      chainFrom blake2b toks bs lora n (j + 1) (blake2b input) = .ok rest ∧
      hs = blake2b input :: rest := by
  rw [chainFrom, blockHash] at h
  cases hin : blockInput p (blockSlice toks bs j) lora with
  | error e => rw [hin] at h; cases h
  | ok input =>
      rw [hin] at h
      simp only [bind, Except.bind] at h
      cases hrest : chainFrom blake2b toks bs lora n (j + 1) (blake2b input) with
      | error e => rw [hrest] at h; cases h
      | ok rest =>
          rw [hrest] at h
          exact ⟨input, rest, rfl, hrest, (Except.ok.inj h).symm⟩

theorem length_chainFrom {n j : ℕ} {p : Digest} {hs : List Digest}
    (h : chainFrom blake2b toks bs lora n j p = .ok hs) : hs.length = n := by
  induction n generalizing j p hs with
  | zero =>
      cases h
      rfl
  | succ n ih =>
      obtain ⟨input, rest, -, hrest, rfl⟩ := chainFrom_succ h
      rw [List.length_cons, ih hrest]

theorem length_blockSlice {j n : ℕ} (h : (j + (n + 1)) * bs ≤ toks.length) :
    (blockSlice toks bs j).length = bs := by
  have hle : j * bs + bs ≤ (j + (n + 1)) * bs := by
    rw [← Nat.succ_mul]
    exact Nat.mul_le_mul_right bs (by omega)
  rw [blockSlice, List.length_take, List.length_drop]
  omega

/-- By induction on `i`: the first digests of the two chains agree exactly when their
inputs do, and an input determines the parent digest, the adapter and the block. -/
theorem chainFrom_getElem_iff {n n' i j : ℕ} {p p' : Digest} {hs hs' : List Digest}
    (hcf : CollisionFreeOn blake2b (inputsFrom blake2b toks bs lora n j p ++
      inputsFrom blake2b toks' bs lora' n' j p'))
    (h : chainFrom blake2b toks bs lora n j p = .ok hs)
    (h' : chainFrom blake2b toks' bs lora' n' j p' = .ok hs')
    (hn : (j + n) * bs ≤ toks.length) (hn' : (j + n') * bs ≤ toks'.length)
    (hi : i < n) (hi' : i < n') :
    hs[i]? = hs'[i]? ↔ p = p' ∧ lora = lora' ∧
      ∀ k ≤ i, blockSlice toks bs (j + k) = blockSlice toks' bs (j + k) := by
  induction i generalizing n n' j p p' hs hs' with
  | zero =>
      obtain ⟨n, rfl⟩ := Nat.exists_eq_succ_of_ne_zero (Nat.ne_of_gt hi)
      obtain ⟨n', rfl⟩ := Nat.exists_eq_succ_of_ne_zero (Nat.ne_of_gt hi')
      obtain ⟨input, rest, hin, -, rfl⟩ := chainFrom_succ h
      obtain ⟨input', rest', hin', -, rfl⟩ := chainFrom_succ h'
      have hlen : (blockSlice toks bs j).length = (blockSlice toks' bs j).length := by
        rw [length_blockSlice hn, length_blockSlice hn']
      rw [inputsFrom, inputsFrom, hin, hin'] at hcf
      simp only [List.getElem?_cons_zero, Option.some.injEq, Nat.le_zero, forall_eq,
        Nat.add_zero]
      constructor
      · intro heq
        have hinput : input = input' := hcf input (by simp) input' (by simp) heq
        subst hinput
        exact blockInput_inj hin hin' hlen
      · rintro ⟨rfl, rfl, hslice⟩
        rw [hslice, hin'] at hin
        rw [Except.ok.inj hin]
  | succ i ih =>
      obtain ⟨n, rfl⟩ := Nat.exists_eq_succ_of_ne_zero (Nat.ne_of_gt (i.succ_pos.trans hi))
      obtain ⟨n', rfl⟩ := Nat.exists_eq_succ_of_ne_zero
        (Nat.ne_of_gt (i.succ_pos.trans hi'))
      obtain ⟨input, rest, hin, hrest, rfl⟩ := chainFrom_succ h
      obtain ⟨input', rest', hin', hrest', rfl⟩ := chainFrom_succ h'
      have hlen : (blockSlice toks bs j).length = (blockSlice toks' bs j).length := by
        rw [length_blockSlice hn, length_blockSlice hn']
      rw [inputsFrom, inputsFrom, hin, hin'] at hcf
      have hcf' : CollisionFreeOn blake2b
          (inputsFrom blake2b toks bs lora n (j + 1) (blake2b input) ++
            inputsFrom blake2b toks' bs lora' n' (j + 1) (blake2b input')) := by
        intro x hx y hy
        rw [List.mem_append] at hx hy
        apply hcf x _ y
        · simp only [List.mem_append, List.mem_cons]
          tauto
        · simp only [List.mem_append, List.mem_cons]
          tauto
      have hj : ∀ m, j + (m + 1) = j + 1 + m := fun m => by omega
      rw [hj] at hn hn'
      rw [List.getElem?_cons_succ, List.getElem?_cons_succ,
        ih hcf' hrest hrest' hn hn' (Nat.lt_of_succ_lt_succ hi)
          (Nat.lt_of_succ_lt_succ hi')]
      constructor
      · rintro ⟨heq, rfl, hslices⟩
        have hinput : input = input' := hcf input (by simp) input' (by simp) heq
        subst hinput
        obtain ⟨rfl, -, hslice⟩ := blockInput_inj hin hin' hlen
        refine ⟨rfl, rfl, ?_⟩
        intro k hk
        cases k with
        | zero => exact hslice
        | succ k =>
            rw [hj]
            exact hslices k (Nat.le_of_succ_le_succ hk)
      · rintro ⟨rfl, rfl, hslices⟩
        have hslice := hslices 0 (Nat.zero_le _)
        rw [Nat.add_zero] at hslice
        rw [hslice, hin'] at hin
        refine ⟨by rw [Except.ok.inj hin], rfl, ?_⟩
        intro k hk
        rw [← hj]
        exact hslices (k + 1) (Nat.succ_le_succ hk)

/-- Equal blocks are equal prefixes. -/
theorem blockSlices_eq_iff (n : ℕ) :
    (∀ k < n, blockSlice toks bs k = blockSlice toks' bs k) ↔
      toks.take (n * bs) = toks'.take (n * bs) := by
  constructor
  · intro h
    induction n with
    | zero => simp
    | succ n ih =>
        rw [Nat.succ_mul, List.take_add, List.take_add, ih fun k hk => h k (by omega)]
        exact congrArg _ (h n n.lt_succ_self)
  · intro h k hk
    exact blockSlice_congr hk h

theorem numFull_mul_le (maxBlocks : Option ℤ) :
    numFull toks bs maxBlocks * bs ≤ toks.length := by
  have hdiv := Nat.div_mul_le_self toks.length bs
  cases maxBlocks with
  | none => exact hdiv
  | some m => exact (Nat.mul_le_mul_right bs (Nat.min_le_left _ _)).trans hdiv

theorem blockHashChain_ok {maxBlocks : Option ℤ} {hs : List Digest}
    (h : blockHashChain blake2b toks bs lora maxBlocks = .ok hs) :
    0 < bs ∧ chainFrom blake2b toks bs lora (numFull toks bs maxBlocks) 0
      (rootHash blake2b) = .ok hs := by
  rw [blockHashChain] at h
  split at h
  · cases h
  · exact ⟨by omega, h⟩

theorem blockHashChain_getElem_iff {maxBlocks maxBlocks' : Option ℤ}
    {hs hs' : List Digest}
    (hcf : CollisionFreeOn blake2b (chainInputs blake2b toks bs lora maxBlocks ++
      chainInputs blake2b toks' bs lora' maxBlocks'))
    (h : blockHashChain blake2b toks bs lora maxBlocks = .ok hs)
    (h' : blockHashChain blake2b toks' bs lora' maxBlocks' = .ok hs')
    {i : ℕ} (hi : i < hs.length) (hi' : i < hs'.length) :
    hs[i] = hs'[i] ↔
      lora = lora' ∧ toks.take ((i + 1) * bs) = toks'.take ((i + 1) * bs) := by
  obtain ⟨-, hchain⟩ := blockHashChain_ok h
  obtain ⟨-, hchain'⟩ := blockHashChain_ok h'
  have key := chainFrom_getElem_iff hcf hchain hchain'
    (by rw [Nat.zero_add]; exact numFull_mul_le _)
    (by rw [Nat.zero_add]; exact numFull_mul_le _)
    (length_chainFrom hchain ▸ hi) (length_chainFrom hchain' ▸ hi')
  rw [List.getElem?_eq_getElem hi, List.getElem?_eq_getElem hi', Option.some.injEq] at key
  rw [key, ← blockSlices_eq_iff]
  simp only [Nat.zero_add, true_and, Nat.lt_succ_iff]

end Identity

/-! ## §2  Histories of the index -/

section History

variable {D : Type} [DecidableEq D]

inductive CacheOp (D : Type) where
  | insert (b : BlockId) (digest : D)
  | acquire (b : BlockId)
  | release (b : BlockId)
  | evict (numBlocks : ℤ)
  | remove (b : BlockId)

/-- A cache, and what a caller who reads the answers of its operations knows to be
indexed. -/
structure Ledger (D : Type) where
  cache : PrefixCache D
  index : BlockId → Option D

/-- One operation. An insertion that raises leaves the cache as it was. -/
def Ledger.apply (l : Ledger D) : CacheOp D → Ledger D
  | .insert b digest =>
      match l.cache.insert b digest with
      | .error _ => l
      | .ok (true, c) => ⟨c, Function.update l.index b (some digest)⟩
      | .ok (false, c) => ⟨c, l.index⟩
  | .acquire b => ⟨l.cache.acquire b, l.index⟩
  | .release b => ⟨(l.cache.release b).2, l.index⟩
  | .evict numBlocks =>
      let out := l.cache.evict numBlocks.toNat
      ⟨out.2, fun b => if b ∈ out.1 then none else l.index b⟩
  | .remove b =>
      match l.cache.remove b with
      | (true, c) => ⟨c, Function.update l.index b none⟩
      | (false, c) => ⟨c, l.index⟩

def Ledger.run (blockSize : ℕ) (ops : List (CacheOp D)) : Ledger D :=
  ops.foldl Ledger.apply ⟨PrefixCache.new blockSize, fun _ => none⟩

/-- The two indexes are inverse, and they are what the answers said. -/
structure Ledger.Sound (blockSize : ℕ) (l : Ledger D) : Prop where
  blockSize_eq : l.cache.blockSize = blockSize
  inverse : l.cache.Inverse
  index_eq : l.cache.byBlock = l.index

namespace PrefixCache

variable {c : PrefixCache D}

theorem forget_byBlock (b : BlockId) :
    (c.forget b).byBlock = Function.update c.byBlock b none := by
  funext x
  by_cases hx : x = b
  · subst hx
    rw [forget_byBlock_self, Function.update_self]
  · rw [forget_byBlock_of_ne hx, Function.update_of_ne hx]

/-- Eviction removes the blocks it returns from the index, and only these. -/
theorem evict_spec (n : ℕ) (h : c.Inverse) :
    (c.evict n).2.Inverse ∧ (c.evict n).2.blockSize = c.blockSize ∧
      (c.evict n).2.byBlock = fun b => if b ∈ (c.evict n).1 then none else c.byBlock b := by
  induction n generalizing c with
  | zero => exact ⟨h, rfl, by simp [evict]⟩
  | succ n ih =>
      cases hev : c.evictable with
      | nil => simpa [evict, hev] using h
      | cons b rest =>
          set c₁ : PrefixCache D := { c with evictable := rest } with hc₁
          set c₂ : PrefixCache D :=
            { c₁.forget b with evictions := (c₁.forget b).evictions + 1 } with hc₂
          have hout : c.evict (n + 1) = (b :: (c₂.evict n).1, (c₂.evict n).2) := by
            rw [evict, hev]
          have hinv : c₂.Inverse := Inverse.forget (c := c₁) h b
          obtain ⟨h₁, h₂, h₃⟩ := ih hinv
          rw [hout]
          refine ⟨h₁, h₂.trans (forget_blockSize (c := c₁) b), ?_⟩
          rw [h₃]
          have hby : c₂.byBlock = Function.update c.byBlock b none :=
            forget_byBlock (c := c₁) b
          funext x
          rw [hby]
          by_cases hx : x = b
          · simp [hx]
          · simp [hx]

/-- A block that is indexed anew is new to both indexes. -/
theorem Inverse.insert {c' : PrefixCache D} {b : BlockId} {digest : D} (h : c.Inverse)
    (hins : c.insert b digest = .ok (true, c')) :
    c'.Inverse ∧ c'.blockSize = c.blockSize ∧
      c'.byBlock = Function.update c.byBlock b (some digest) := by
  rw [PrefixCache.insert] at hins
  split at hins
  · split at hins <;> cases hins
  · next hb =>
      split at hins
      · cases hins
      · next hd =>
          rw [Bool.not_eq_true, Option.isSome_eq_false_iff, Option.isNone_iff_eq_none]
            at hd
          cases hins
          refine ⟨?_, rfl, rfl⟩
          intro x d
          simp only [Function.update_apply]
          have hxd := h x d
          by_cases hx : x = b
          · by_cases hdd : d = digest
            · simp [hx, hdd]
            · have hno : c.byHash d ≠ some b := by
                intro hd'
                have := (h b d).mpr hd'
                rw [hb] at this
                cases this
              simp [hx, hdd, hno, Ne.symm hdd]
          · by_cases hdd : d = digest
            · subst hdd
              rw [hd] at hxd
              simp [hx, hxd, Ne.symm hx]
            · simpa [hx, hdd] using hxd

/-- An insertion that answers `false` changes nothing. -/
theorem insert_false {c' : PrefixCache D} {b : BlockId} {digest : D}
    (hins : c.insert b digest = .ok (false, c')) : c' = c := by
  rw [PrefixCache.insert] at hins
  split at hins
  · split at hins
    · cases hins
      rfl
    · cases hins
  · split at hins
    · cases hins
      rfl
    · cases hins

end PrefixCache

namespace Ledger.Sound

variable {blockSize : ℕ} {l : Ledger D}

/-- One operation keeps the index what the answers said. -/
theorem apply (h : l.Sound blockSize) (op : CacheOp D) :
    (l.apply op).Sound blockSize := by
  obtain ⟨hsize, hinv, hindex⟩ := h
  cases op with
  | insert b digest =>
      rw [Ledger.apply]
      cases hins : l.cache.insert b digest with
      | error e => exact ⟨hsize, hinv, hindex⟩
      | ok out =>
          obtain ⟨_ | _, c⟩ := out
          · rw [PrefixCache.insert_false hins]
            exact ⟨hsize, hinv, hindex⟩
          · obtain ⟨h₁, h₂, h₃⟩ := hinv.insert hins
            exact ⟨h₂.trans hsize, h₁, h₃.trans (by rw [hindex])⟩
  | acquire b => exact ⟨hsize, hinv, hindex⟩
  | release b =>
      have hsame : (l.cache.release b).2.byBlock = l.cache.byBlock ∧
          (l.cache.release b).2.byHash = l.cache.byHash ∧
          (l.cache.release b).2.blockSize = l.cache.blockSize := by
        rw [PrefixCache.release]
        split <;> exact ⟨rfl, rfl, rfl⟩
      obtain ⟨h₁, h₂, h₃⟩ := hsame
      refine ⟨h₃.trans hsize, ?_, h₁.trans hindex⟩
      intro x d
      rw [Ledger.apply, h₁, h₂]
      exact hinv x d
  | evict numBlocks =>
      obtain ⟨h₁, h₂, h₃⟩ := PrefixCache.evict_spec numBlocks.toNat hinv
      exact ⟨h₂.trans hsize, h₁, h₃.trans (by rw [hindex]; rfl)⟩
  | remove b =>
      rw [Ledger.apply]
      cases hb : l.cache.byBlock b with
      | none =>
          rw [PrefixCache.remove, hb]
          exact ⟨hsize, hinv, hindex⟩
      | some d =>
          rw [PrefixCache.remove, hb]
          refine ⟨(PrefixCache.forget_blockSize b).trans hsize, hinv.forget b, ?_⟩
          exact (PrefixCache.forget_byBlock b).trans (by rw [hindex])

end Ledger.Sound

/-- After any history the index is what the answers of the operations said. -/
theorem Ledger.run_sound (blockSize : ℕ) (ops : List (CacheOp D)) :
    (Ledger.run blockSize ops).Sound blockSize := by
  have hinit : Ledger.Sound blockSize
      (⟨PrefixCache.new blockSize, fun _ => none⟩ : Ledger D) :=
    ⟨rfl, fun _ _ => by simp [PrefixCache.new], rfl⟩
  suffices h : ∀ l : Ledger D, l.Sound blockSize →
      (ops.foldl Ledger.apply l).Sound blockSize from h _ hinit
  induction ops with
  | nil => exact fun l hl => hl
  | cons op ops ih => exact fun l hl => ih _ (hl.apply op)

end History

/-! ## §3  The longest match -/

/-- `m` is the longest run of leading full blocks of `toks`, `maxBlocks` at most, each
of which is in `index` under the prefix that ends with it. -/
structure LongestMatch (blake2b : List UInt8 → Digest) (index : BlockId → Option Digest)
    (toks : List TokenId) (blockSize : ℕ) (lora : ℤ) (maxBlocks : Option ℤ)
    (m : PrefixMatch Digest) : Prop where
  hashes_eq : blockHashChain blake2b toks blockSize lora (some m.numBlocks) = .ok m.hashes
  indexed : List.Forall₂ (fun b d => index b = some d) m.blockIds m.hashes
  capped : m.numBlocks ≤ numFull toks blockSize maxBlocks
  longest : m.numBlocks < numFull toks blockSize maxBlocks →
    ∃ d, blockHashChain blake2b toks blockSize lora (some (m.numBlocks + 1)) =
        .ok (m.hashes ++ [d]) ∧
      ∀ b, index b ≠ some d

section Match

variable {blake2b : List UInt8 → Digest} {c : PrefixCache Digest} {toks : List TokenId}
  {lora : ℤ}

/-- The walk, by induction on the blocks left: it follows the chain, every digest it
passed is indexed, and if it stopped early the next digest is not. -/
theorem lookupFrom_spec {n j : ℕ} {p : Digest} {found : List (BlockId × Digest)}
    (h : c.lookupFrom blake2b toks lora n j p = .ok found) :
    chainFrom blake2b toks c.blockSize lora found.length j p =
        .ok (found.map Prod.snd) ∧
      (∀ x ∈ found, c.byHash x.2 = some x.1) ∧ found.length ≤ n ∧
      (found.length < n →
        ∃ d, chainFrom blake2b toks c.blockSize lora (found.length + 1) j p =
            .ok (found.map Prod.snd ++ [d]) ∧ c.byHash d = none) := by
  induction n generalizing j p found with
  | zero =>
      cases h
      exact ⟨rfl, by simp, le_rfl, fun h => absurd h (lt_irrefl 0)⟩
  | succ n ih =>
      rw [PrefixCache.lookupFrom] at h
      cases hd : blockHash blake2b p (blockSlice toks c.blockSize j) lora with
      | error e => rw [hd] at h; cases h
      | ok digest =>
          rw [hd] at h
          simp only [bind, Except.bind] at h
          cases hb : c.byHash digest with
          | none =>
              rw [hb] at h
              cases h
              refine ⟨rfl, by simp, Nat.zero_le _, fun _ => ⟨digest, ?_, hb⟩⟩
              rw [List.length_nil, chainFrom, hd]
              rfl
          | some b =>
              simp only [hb] at h
              cases hrest : c.lookupFrom blake2b toks lora n (j + 1) digest with
              | error e => rw [hrest] at h; cases h
              | ok rest =>
                  rw [hrest] at h
                  cases h
                  obtain ⟨hchain, hindexed, hle, hlong⟩ := ih hrest
                  refine ⟨?_, ?_, Nat.succ_le_succ hle, ?_⟩
                  · rw [List.length_cons, chainFrom, hd]
                    simp only [bind, Except.bind, hchain, List.map_cons]
                  · exact List.forall_mem_cons.mpr ⟨hb, hindexed⟩
                  · intro hlt
                    obtain ⟨d, hd', hnone⟩ := hlong (Nat.lt_of_succ_lt_succ hlt)
                    refine ⟨d, ?_, hnone⟩
                    rw [List.length_cons, chainFrom, hd]
                    simp only [bind, Except.bind, hd', List.map_cons, List.cons_append]

/-- A chain that can be computed can be looked up. -/
theorem lookupFrom_total {n j : ℕ} {p : Digest} {hs : List Digest}
    (h : chainFrom blake2b toks c.blockSize lora n j p = .ok hs) :
    ∃ found, c.lookupFrom blake2b toks lora n j p = .ok found := by
  induction n generalizing j p hs with
  | zero => exact ⟨[], rfl⟩
  | succ n ih =>
      obtain ⟨input, rest, hin, hrest, rfl⟩ := chainFrom_succ h
      obtain ⟨found, hfound⟩ := ih hrest
      rw [PrefixCache.lookupFrom, blockHash, hin]
      simp only [bind, Except.bind]
      cases c.byHash (blake2b input) with
      | none => exact ⟨[], rfl⟩
      | some b => simp [hfound]

theorem numFull_capped {n : ℕ} {bs : ℕ} {maxBlocks : Option ℤ}
    (h : n ≤ numFull toks bs maxBlocks) : numFull toks bs (some (n : ℤ)) = n := by
  have hdiv : numFull toks bs maxBlocks ≤ toks.length / bs := by
    cases maxBlocks with
    | none => exact le_rfl
    | some m => exact Nat.min_le_left _ _
  rw [numFull, max_eq_right (Int.natCast_nonneg n), Int.toNat_natCast]
  exact min_eq_right (h.trans hdiv)

theorem matchTokens_longest {index : BlockId → Option Digest} {maxBlocks : Option ℤ}
    {m : PrefixMatch Digest} (hinv : c.Inverse) (hindex : c.byBlock = index)
    (hpos : 0 < c.blockSize) (h : c.matchTokens blake2b toks lora maxBlocks = .ok m) :
    LongestMatch blake2b index toks c.blockSize lora maxBlocks m := by
  rw [PrefixCache.matchTokens] at h
  cases hfound : c.lookupFrom blake2b toks lora (numFull toks c.blockSize maxBlocks) 0
      (rootHash blake2b) with
  | error e => rw [hfound] at h; cases h
  | ok found =>
      rw [hfound] at h
      cases h
      obtain ⟨hchain, hindexed, hle, hlong⟩ := lookupFrom_spec hfound
      have hlt : ¬ c.blockSize < 1 := by omega
      subst hindex
      constructor
      · simp only [PrefixMatch.numBlocks, List.length_map]
        rw [blockHashChain, if_neg hlt, numFull_capped hle]
        exact hchain
      · rw [List.forall₂_map_left_iff, List.forall₂_map_right_iff, List.forall₂_same]
        intro x hx
        exact (hinv x.1 x.2).mpr (hindexed x hx)
      · simpa [PrefixMatch.numBlocks] using hle
      · simp only [PrefixMatch.numBlocks, List.length_map]
        intro hshort
        obtain ⟨d, hd, hnone⟩ := hlong hshort
        refine ⟨d, ?_, ?_⟩
        · have hcap := numFull_capped (Nat.succ_le_of_lt hshort)
          push_cast at hcap
          rw [blockHashChain, if_neg hlt, hcap]
          exact hd
        · intro b hb
          rw [(hinv b d).mp hb] at hnone
          cases hnone

end Match

/-! ## §4  The two together -/

/-- Digests of one position identify adapters and prefixes, and after any history of
the index `match` is the longest indexed run; it raises only where the chain does. -/
theorem prefixIdentity_longestMatch (blake2b : List UInt8 → Digest) :
    (∀ (toks toks' : List TokenId) (bs : ℕ) (lora lora' : ℤ)
        (maxBlocks maxBlocks' : Option ℤ) (hs hs' : List Digest),
      CollisionFreeOn blake2b (chainInputs blake2b toks bs lora maxBlocks ++
        chainInputs blake2b toks' bs lora' maxBlocks') →
      blockHashChain blake2b toks bs lora maxBlocks = .ok hs →
      blockHashChain blake2b toks' bs lora' maxBlocks' = .ok hs' →
      ∀ (i : ℕ) (hi : i < hs.length) (hi' : i < hs'.length),
        hs[i] = hs'[i] ↔
          lora = lora' ∧ toks.take ((i + 1) * bs) = toks'.take ((i + 1) * bs)) ∧
    (∀ (bs : ℕ) (ops : List (CacheOp Digest)) (toks : List TokenId) (lora : ℤ)
        (maxBlocks : Option ℤ), 0 < bs →
      (∀ m, (Ledger.run bs ops).cache.matchTokens blake2b toks lora maxBlocks = .ok m →
        LongestMatch blake2b (Ledger.run bs ops).index toks bs lora maxBlocks m) ∧
      (∀ hs, blockHashChain blake2b toks bs lora maxBlocks = .ok hs →
        ∃ m, (Ledger.run bs ops).cache.matchTokens blake2b toks lora maxBlocks =
          .ok m)) := by
  constructor
  · intro toks toks' bs lora lora' maxBlocks maxBlocks' hs hs' hcf h h' i hi hi'
    exact blockHashChain_getElem_iff hcf h h' hi hi'
  · intro bs ops toks lora maxBlocks hbs
    obtain ⟨hsize, hinv, hindex⟩ := Ledger.run_sound bs ops
    constructor
    · intro m hm
      have key := matchTokens_longest hinv hindex (by rwa [hsize]) hm
      rwa [hsize] at key
    · intro hs h
      obtain ⟨-, hchain⟩ := blockHashChain_ok h
      rw [← hsize] at hchain
      obtain ⟨found, hfound⟩ := lookupFrom_total hchain
      rw [PrefixCache.matchTokens, hfound]
      exact ⟨_, rfl⟩

/-- `blake2b`, where the sample below asks for it: `ROOT_HASH`, the digest of `[1]`,
and those of `[1, -1]` and `[1, 2]`, for blocks of one token of the base model. -/
def sampleBlake2b (input : List UInt8) : Digest :=
  let rootHash : Digest :=
    [150, 207, 232, 74, 39, 6, 52, 95, 220, 12, 27, 56, 68, 46, 228, 69]
  let first : Digest :=
    [24, 203, 237, 49, 229, 131, 144, 202, 180, 101, 34, 232, 148, 90, 63, 201]
  if input.length = 26 then rootHash
  else if input = rootHash ++ signedBytes 8 0 ++ signedBytes 8 1 then first
  else if input = first ++ signedBytes 8 0 ++ signedBytes 8 (-1) then
    [255, 131, 30, 167, 210, 6, 194, 177, 114, 55, 230, 195, 91, 248, 215, 209]
  else if input = first ++ signedBytes 8 0 ++ signedBytes 8 2 then
    [80, 156, 15, 142, 13, 12, 81, 237, 159, 182, 122, 77, 22, 5, 163, 130]
  else input

/-- The chains of `[1, -1]` and `[1, 2]`; and after block 7 was indexed under `[1]`
and block 3 under `[1, -1]`, a lookup of `[1, 2]` finds block 7. -/
theorem prefixIdentity_longestMatch_small :
    (∀ hs hs', blockHashChain sampleBlake2b [1, -1] 1 0 none = .ok hs →
      blockHashChain sampleBlake2b [1, 2] 1 0 none = .ok hs' →
      ∀ (hi : 1 < hs.length) (hi' : 1 < hs'.length), hs[1] ≠ hs'[1]) ∧
    ∃ first second, blockHashChain sampleBlake2b [1, -1] 1 0 none = .ok [first, second] ∧
      LongestMatch sampleBlake2b
        (Ledger.run 1 [.insert 7 first, .insert 3 second, .release 3, .evict 0]).index
        [1, 2] 1 0 none ⟨[7], [first], 1⟩ := by
  constructor
  · intro hs hs' h h' hi hi' heq
    have key := (prefixIdentity_longestMatch sampleBlake2b).1 [1, -1] [1, 2] 1 0 0 none
      none hs hs' (by decide +kernel) h h' 1 hi hi'
    exact absurd (key.mp heq).2 (by decide)
  · refine ⟨_, _, rfl, ?_⟩
    exact ((prefixIdentity_longestMatch sampleBlake2b).2 1 _ [1, 2] 0 none (by decide)).1
      _ rfl

end TurboServe.Core
