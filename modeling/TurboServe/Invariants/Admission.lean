import TurboServe.Invariants.ManagerOps

/-!
# Exactly what the pool can serve

`allocate` of the pool fails exactly when nothing is free or retained, so growing a
table succeeds exactly when enough is. Adopting a cached prefix takes its retained
blocks out of what can be served and leaves the rest: with that, the admission test
counts exactly what growing the admitted sequence will need.
-/

namespace TurboServe.Core

variable {D : Type} [DecidableEq D]
variable {m : BlockManager D} {seq : Sequence} {L : List Sequence}
  {held : Multiset BlockId}

/-! ## §1  Growing a table -/

/-- With nothing to serve, `allocate` raises. -/
theorem allocate_fails {a : BlockAllocator (PrefixCache D)} (h : a.numAllocatable = 0) :
    a.allocate = .error (.outOfBlocks a.numInUse a.numBlocks a.retained.card) := by
  obtain ⟨hfree, hret⟩ := Nat.add_eq_zero_iff.mp h
  have hnil : a.free = [] := List.length_eq_zero_iff.mp hfree
  have hempty : a.retained = ∅ := Finset.card_eq_zero.mp hret
  have hsame : a.reclaim 1 = .ok a := by
    unfold BlockAllocator.reclaim
    split
    · rfl
    · rw [if_pos hempty]
  simp only [BlockAllocator.allocate, hnil, if_true, hsame, bind, Except.bind]

theorem growTable_fails (n : ℕ) (table : List BlockId) (h : PoolInv m.allocator held)
    (hshort : m.allocator.numAllocatable < n) :
    ∃ inUse total retained, m.growTable table n =
      .error (.outOfBlocks inUse total retained) := by
  induction n generalizing m held table with
  | zero => exact absurd hshort (Nat.not_lt_zero _)
  | succ n ih =>
      rcases Nat.eq_zero_or_pos m.allocator.numAllocatable with hzero | hpos
      · refine ⟨m.allocator.numInUse, m.allocator.numBlocks, m.allocator.retained.card, ?_⟩
        simp only [BlockManager.growTable, allocate_fails hzero, bind, Except.bind]
      · obtain ⟨b, a, hok, hpool, -, -, -, hnum, -⟩ := allocate_spec h hpos
        obtain ⟨inUse, total, retained, hfail⟩ :=
          ih (m := { m with allocator := a }) (table ++ [b]) hpool (by
            show a.numAllocatable < n
            omega)
        refine ⟨inUse, total, retained, ?_⟩
        simp only [BlockManager.growTable, hok, bind, Except.bind]
        exact hfail

/-- `append_slots` succeeds exactly when the blocks it needs can be served, and raises
`OutOfBlocksError` otherwise. -/
theorem appendSlots_iff {n : ℕ} (hpos : 0 < m.blockSize) (h : PoolInv m.allocator held)
    (hstate : (m.state seq.seqId).isSome)
    (hn : seq.numComputedTokens + n ≤ seq.numTokens) :
    ((∃ out, m.appendSlots seq n = .ok out) ↔
        (seq.numComputedTokens + n) ⌈/⌉ m.blockSize ≤
          m.allocator.numAllocatable + seq.blockTable.length) ∧
      ((¬ ∃ out, m.appendSlots seq n = .ok out) → ∃ inUse total retained,
        m.appendSlots seq n = .error (.outOfBlocks inUse total retained)) := by
  have hsome : (m.state seq.seqId).isNone = false := by
    rw [← Option.not_isSome, hstate]
    rfl
  generalize hneed : (seq.numComputedTokens + n) ⌈/⌉ m.blockSize = needed
  by_cases hroom : needed ≤ m.allocator.numAllocatable + seq.blockTable.length
  · obtain ⟨m', fresh, hgrow, hlen, -, -, -, -, -, -, hbs, -, -⟩ :=
      growTable_spec (needed - seq.blockTable.length) seq.blockTable h (by omega)
    have hcovers : seq.numComputedTokens + n ≤
        (seq.blockTable ++ fresh).length * m.blockSize := by
      refine (le_ceilDiv_mul hpos).trans (Nat.mul_le_mul_right _ ?_)
      rw [hneed, List.length_append]
      omega
    have hslots : m'.slotMapping { seq with blockTable := seq.blockTable ++ fresh }
        seq.numComputedTokens n = .ok _ :=
      slotMapping_ok (hbs ▸ hpos) (hbs ▸ hcovers)
    have hok : ∃ out, m.appendSlots seq n = .ok out := by
      simp only [BlockManager.appendSlots, hsome, Bool.false_eq_true, if_false,
        if_neg (not_lt.mpr hn), hneed, hgrow, bind, Except.bind, hslots]
      exact ⟨_, rfl⟩
    exact ⟨⟨fun _ => hroom, fun _ => hok⟩, fun hno => absurd hok hno⟩
  · obtain ⟨inUse, total, retained, hfail⟩ :=
      growTable_fails (needed - seq.blockTable.length) seq.blockTable h (by omega)
    have herr : m.appendSlots seq n = .error (.outOfBlocks inUse total retained) := by
      simp only [BlockManager.appendSlots, hsome, Bool.false_eq_true, if_false,
        if_neg (not_lt.mpr hn), hneed, hfail, bind, Except.bind]
    refine ⟨⟨?_, fun hle => absurd hle hroom⟩, fun _ => ⟨_, _, _, herr⟩⟩
    rintro ⟨out, hok⟩
    rw [herr] at hok
    cases hok

/-- What growing a sequence takes out of the pool: the blocks of its new table. -/
theorem appendSlots_allocatable {n : ℕ} {slots : List Slot} {m' : BlockManager D}
    {seq' : Sequence} (h : PoolInv m.allocator held)
    (hok : m.appendSlots seq n = .ok (slots, m', seq')) :
    m'.allocator.numAllocatable + (seq'.blockTable.length - seq.blockTable.length) =
      m.allocator.numAllocatable := by
  unfold BlockManager.appendSlots at hok
  split at hok
  · cases hok
  · simp only at hok
    split at hok
    · cases hok
    · generalize hneed : (seq.numComputedTokens + n) ⌈/⌉ m.blockSize -
          seq.blockTable.length = k at hok
      have hroom : k ≤ m.allocator.numAllocatable := by
        by_contra hshort
        obtain ⟨inUse, total, retained, hfail⟩ :=
          growTable_fails k seq.blockTable h (not_le.mp hshort)
        rw [hfail] at hok
        cases hok
      obtain ⟨m₁, fresh, hgrow, hlen, -, -, -, -, -, -, -, hnum, -⟩ :=
        growTable_spec k seq.blockTable h hroom
      rw [hgrow] at hok
      simp only [bind, Except.bind] at hok
      split at hok
      · cases hok
      · cases hok
        rw [List.length_append, hlen, Nat.add_sub_cancel_left]
        exact hnum

/-! ## §2  Adopting a cached prefix -/

omit [DecidableEq D] in
/-- Blocks of a duplicate-free list come out of what can be served exactly when nobody
holds them yet. -/
theorem numAllocatable_adopt {a a' : BlockAllocator (PrefixCache D)}
    (h : PoolInv a held) {bs : List BlockId} (h' : PoolInv a' (↑bs + held))
    (hshape : SameShape a a') (hnd : bs.Nodup)
    (hidx : ∀ b ∈ bs, (a.indexed b).isSome) :
    a'.numAllocatable + bs.countP a.isRetained = a.numAllocatable := by
  have htotal := h.numAllocatable_add
  have htotal' := h'.numAllocatable_add
  rw [hshape.numBlocks_eq] at htotal'
  -- a hit is retained or held, never both
  have hret : ∀ b ∈ bs, (a.isRetained b = true ↔ b ∉ held) := by
    intro b hb
    obtain ⟨d, hd⟩ := Option.isSome_iff_exists.mp (hidx b hb)
    rw [BlockAllocator.isRetained, decide_eq_true_eq]
    constructor
    · exact h.retained_held b
    · intro hnot
      rcases h.indexed_cases hd with hret | hheld
      · exact hret
      · exact absurd hheld hnot
  have hcount : bs.countP a.isRetained = (bs.toFinset \ held.toFinset).card := by
    have heq : bs.filter a.isRetained = bs.filter fun b => decide (b ∉ held.toFinset) := by
      apply List.filter_congr
      intro b hb
      rw [Bool.eq_iff_iff, decide_eq_true_eq, Multiset.mem_toFinset]
      exact hret b hb
    rw [List.countP_eq_length_filter, heq,
      ← List.toFinset_card_of_nodup (hnd.filter _)]
    congr 1
    ext b
    simp [Finset.mem_sdiff]
  have hunion : ((↑bs + held : Multiset BlockId)).toFinset =
      bs.toFinset ∪ held.toFinset := by
    rw [Multiset.toFinset_add]
    rfl
  rw [hunion, ← Finset.sdiff_union_self_eq_union,
    Finset.card_union_of_disjoint Finset.sdiff_disjoint, ← hcount] at htotal'
  omega

/-- What `allocate` leaves of an idle sequence and of the pool. -/
structure Taken [BlockDigest D] (m : BlockManager D) (seq : Sequence) (L : List Sequence)
    (m' : BlockManager D) (seq' : Sequence) : Prop where
  blockSize_eq : m'.blockSize = m.blockSize
  state : (m'.state seq'.seqId).isSome
  pool : PoolInv m'.allocator (↑seq'.blockTable + heldBlocks L)
  tokens_eq : seq'.numTokens = seq.numTokens
  computed_eq : seq'.numComputedTokens = seq'.blockTable.length * m.blockSize
  computed_lt : seq'.numComputedTokens < seq.numTokens
  canAllocate_iff : m.canAllocate seq = true ↔
    seq.numBlocksNeeded m.blockSize ≤ m'.allocator.numAllocatable + seq'.blockTable.length

omit [DecidableEq D] in
theorem hits_lt_needed {k : ℕ} (hpos : 0 < m.blockSize)
    (h : k * m.blockSize < seq.numTokens) : k < seq.numBlocksNeeded m.blockSize := by
  by_contra hle
  rw [not_lt] at hle
  have hall : seq.numTokens ≤ seq.numTokens ⌈/⌉ m.blockSize * m.blockSize :=
    le_ceilDiv_mul hpos
  have := hall.trans (Nat.mul_le_mul_right m.blockSize hle)
  omega

omit [DecidableEq D] in
theorem allocate_taken [BlockDigest D] [CollisionFree D] (h : ManagerInv m L)
    (hempty : seq.blockTable = []) :
    ∃ n m' seq', m.allocate seq = .ok (n, m', seq') ∧ Taken m seq L m' seq' := by
  rcases Option.eq_none_or_eq_some m.allocator.recycler with hr | ⟨c, hr⟩
  · refine ⟨0, { m with state := Function.update m.state seq.seqId (some ⟨[], 0⟩) },
      { seq with numComputedTokens := 0, numCachedPromptTokens := 0 }, ?_,
      { blockSize_eq := rfl, state := ?_, pool := ?_, tokens_eq := rfl
        computed_eq := ?_, computed_lt := seq.numTokens_pos, canAllocate_iff := ?_ }⟩
    · simp [BlockManager.allocate, BlockManager.prefixCache, hempty, hr]
    · simp
    · simpa [hempty] using h.pool
    · simp [hempty]
    · simp [BlockManager.canAllocate, BlockManager.prefixCache, hr, hempty]
  · have hc := h.pool.cache c hr
    have hcbs : c.blockSize = m.blockSize := hc.blockSize_eq.trans h.blockSize_eq
    generalize hhit : c.match seq.tokenIds seq.loraId (some (m.maxHitBlocks seq)) = hit
    have hindexed : ∀ k b, hit.blockIds[k]? = some b → m.allocator.indexed b =
        some (chainHash D seq.tokenIds m.blockSize seq.loraId (k + 1)) := by
      intro k b hk
      rw [indexed_of_recycler hr, hc.inverse, ← hcbs]
      exact PrefixCache.match_indexed (hhit ▸ hk)
    have hsome : ∀ b ∈ hit.blockIds, (m.allocator.indexed b).isSome := by
      intro b hb
      obtain ⟨k, hk⟩ := List.mem_iff_getElem?.mp hb
      rw [hindexed k b hk]
      rfl
    have hlen : hit.blockIds.length ≤ (seq.numTokens - 1) / m.blockSize := by
      rw [← hhit]
      exact PrefixCache.numBlocks_match_le _ _ _ _
    have htok : hit.numTokens = hit.blockIds.length * m.blockSize := by
      rw [PrefixMatch.numTokens, ← hhit, PrefixCache.match_blockSize, hcbs]
    have hlt : hit.numTokens < seq.numTokens := htok ▸ hits_lt seq hlen
    generalize hc' : c.recordMatch seq.tokenIds (some (m.maxHitBlocks seq)) hit = c'
    have hpool₁ : PoolInv (m.setCache c').allocator (heldBlocks L) := by
      refine { h.pool with retained_none := by simp [BlockManager.setCache], cache := ?_ }
      intro c₀ hc₀
      obtain rfl : c' = c₀ := Option.some.inj hc₀
      rw [← hc']
      exact { hc with }
    have hidx₁ : ∀ x, (m.setCache c').allocator.indexed x = m.allocator.indexed x := by
      intro x
      rw [indexed_of_recycler hr, ← hc']
      rfl
    obtain ⟨m₂, htake, hpool₂, hshape₂, -, hbs₂, -, -⟩ :=
      takeHits_spec hit.blockIds hpool₁ fun b hb => (hidx₁ b).symm ▸ hsome b hb
    have hnum : m₂.allocator.numAllocatable + hit.blockIds.countP m.allocator.isRetained =
        m.allocator.numAllocatable := by
      refine numAllocatable_adopt h.pool hpool₂ ⟨hshape₂.1, hshape₂.2, ?_⟩
        (nodup_of_indexed hindexed) hsome
      rw [hshape₂.3, hr]
      rfl
    refine ⟨hit.numTokens, { m₂ with
        state := Function.update m₂.state seq.seqId (some ⟨hit.hashes, hit.numBlocks⟩) },
      { seq with
        blockTable := hit.blockIds
        numComputedTokens := hit.numTokens
        numCachedPromptTokens := min hit.numTokens seq.numPromptTokens }, ?_,
      { blockSize_eq := hbs₂, state := by simp, pool := hpool₂, tokens_eq := rfl
        computed_eq := htok, computed_lt := hlt, canAllocate_iff := ?_ }⟩
    · simp only [BlockManager.allocate, BlockManager.prefixCache, hempty, hr, hhit, hc',
        htake, bind, Except.bind, ne_eq, not_true_eq_false, if_false]
    · simp only [BlockManager.canAllocate, BlockManager.prefixCache, hr, hhit,
        decide_eq_true_eq, PrefixMatch.numBlocks]
      have hneed : hit.blockIds.length < seq.numBlocksNeeded m.blockSize :=
        hits_lt_needed h.blockSize_pos (htok ▸ hlt)
      omega

/-- **The admission test is exact**, in every state the manager's invariant allows. -/
theorem ManagerInv.canAllocate_iff [BlockDigest D] [CollisionFree D] (h : ManagerInv m L)
    (hempty : seq.blockTable = []) :
    m.canAllocate seq = true ↔ ∃ n m₁ seq₁, m.allocate seq = .ok (n, m₁, seq₁) ∧
      ∃ out, m₁.appendSlots seq₁ seq₁.numUncomputedTokens = .ok out := by
  obtain ⟨n, m₁, seq₁, hok, htaken⟩ := allocate_taken h hempty
  have hall : seq₁.numComputedTokens + seq₁.numUncomputedTokens = seq.numTokens := by
    have hlt := htaken.computed_lt
    have heq := htaken.tokens_eq
    unfold Sequence.numUncomputedTokens
    omega
  have hgrow := (appendSlots_iff (n := seq₁.numUncomputedTokens)
    (htaken.blockSize_eq ▸ h.blockSize_pos) htaken.pool htaken.state
    (by rw [hall, htaken.tokens_eq])).1
  rw [hall, htaken.blockSize_eq] at hgrow
  rw [htaken.canAllocate_iff]
  constructor
  · intro hroom
    exact ⟨n, m₁, seq₁, hok, hgrow.mpr hroom⟩
  · rintro ⟨n', m', seq', hok', hout⟩
    rw [hok] at hok'
    cases hok'
    exact hgrow.mp hout

end TurboServe.Core
