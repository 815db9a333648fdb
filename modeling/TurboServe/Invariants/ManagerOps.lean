import TurboServe.Invariants.Manager

/-!
# Release, adoption and growth

One specification for each operation of the block manager that moves blocks
between the pool and a sequence. Each succeeds under `ManagerInv` and the test
the scheduler makes before it (`can_allocate`, `can_append`), and leaves
`ManagerInv` true of the sequences that hold blocks afterwards.
-/

namespace TurboServe.Core

variable {D : Type} [BlockDigest D]
variable {m : BlockManager D} {seq : Sequence} {rest : List Sequence}

/-! ## §1  Release -/

variable [DecidableEq D] in
/-- `free` publishes, gives every reference back and forgets the sequence. -/
theorem free_spec (h : ManagerInv m (seq :: rest)) :
    ∃ m', m.free seq = .ok (m', { seq with blockTable := [] }) ∧
      ManagerInv m' rest ∧ Frame m m' seq.seqId ∧
      (∀ x e, m'.allocator.indexed x = some e →
        m.allocator.indexed x = some e ∨ Published m seq x e) := by
  obtain ⟨k, m₁, hpub, hinv₁, hframe₁, -, hrefs₁, -, hgain⟩ := publish_spec h
  have hpool : PoolInv m₁.allocator (↑seq.blockTable + heldBlocks rest) :=
    heldBlocks_cons seq rest ▸ hinv₁.pool
  obtain ⟨a, hdec, hpool', hshape, hidx⟩ := decrefMany_spec _ hpool
  have hframe : Frame m₁ { m₁ with
      allocator := a, state := Function.update m₁.state seq.seqId none } seq.seqId :=
    ⟨rfl, hshape, fun j hj => by simp [hj]⟩
  refine ⟨_, ?_, ?_, hframe₁.trans hframe, ?_⟩
  · simp only [BlockManager.free, hpub, bind, Except.bind, hdec]
  · refine ManagerInv.exchange (some seq) none hinv₁ hframe
      (by simp) (by simp) hinv₁.head_not_mem hpool' (by simp) (by simp) ?_
    exact fun b _ _ hb => ⟨Multiset.notMem_zero b, (hidx b).trans hb⟩
  · exact fun x e hx => hgain x e ((hidx x).symm.trans hx)

variable [DecidableEq D] in
/-- A sequence that holds nothing has nothing to give back. -/
theorem free_idle {L : List Sequence} (h : ManagerInv m L)
    (hid : seq.seqId ∉ L.map (·.seqId)) (hempty : seq.blockTable = []) :
    m.free seq = .ok (m, seq) := by
  have hstate : m.state seq.seqId = none := h.absent _ hid
  have hupd : Function.update m.state seq.seqId none = m.state := by
    rw [← hstate]
    exact Function.update_eq_self _ _
  have hseq : { seq with blockTable := [] } = seq := by
    cases seq
    simp_all
  have hpub : m.publishComputedBlocks seq = .ok (0, m) := by
    unfold BlockManager.publishComputedBlocks
    rw [hstate]
    split <;> simp_all
  simp only [BlockManager.free, hpub, hempty, bind, Except.bind,
    BlockAllocator.decrefMany, hupd, hseq]

/-! ## §2  Adoption -/

omit [BlockDigest D] in
/-- The adoption loop takes one reference per hit; what it costs the pool is at
most the hits that were retained when it started. -/
theorem takeHits_spec (bs : List BlockId) {held : Multiset BlockId}
    (h : PoolInv m.allocator held) (hidx : ∀ b ∈ bs, (m.allocator.indexed b).isSome) :
    ∃ m', m.takeHits bs = .ok m' ∧ PoolInv m'.allocator (↑bs + held) ∧
      SameShape m.allocator m'.allocator ∧ m'.state = m.state ∧
      m'.blockSize = m.blockSize ∧
      (∀ x, m'.allocator.indexed x = m.allocator.indexed x) ∧
      m.allocator.numAllocatable ≤
        m'.allocator.numAllocatable + bs.countP m.allocator.isRetained := by
  induction bs generalizing m held with
  | nil =>
      refine ⟨m, rfl, ?_, .refl _, rfl, rfl, fun _ => rfl, le_rfl⟩
      simpa using h
  | cons b bs ih =>
      have hb := hidx b List.mem_cons_self
      obtain ⟨c, hr⟩ : ∃ c, m.allocator.recycler = some c := by
        rcases Option.eq_none_or_eq_some m.allocator.recycler with hr | hr
        · simp [BlockAllocator.indexed, hr] at hb
        · exact hr
      rw [indexed_of_recycler hr] at hb
      obtain ⟨a, hok, ha, hpool, hshape, hsub, hnum⟩ := hit_spec h hr hb
      have hidx₁ : ∀ x, ({ a with recycler := some (c.acquire b) } :
          BlockAllocator (PrefixCache D)).indexed x = m.allocator.indexed x := by
        intro x
        rw [indexed_of_recycler hr]
        rfl
      obtain ⟨m', htake, hpool', hshape', hstate, hbs, hidx', hnum'⟩ :=
        ih (m := ({ m with allocator := a } : BlockManager D).setCache (c.acquire b))
          hpool fun x hx => by
            rw [BlockManager.setCache, hidx₁ x]
            exact hidx x (List.mem_cons_of_mem _ hx)
      have hcount : bs.countP
          ({ a with recycler := some (c.acquire b) } :
            BlockAllocator (PrefixCache D)).isRetained ≤
          bs.countP m.allocator.isRetained := by
        refine List.countP_mono_left fun x _ hx => ?_
        simp only [BlockAllocator.isRetained, decide_eq_true_eq] at hx ⊢
        exact hsub hx
      refine ⟨m', ?_, ?_, hshape.trans hshape', hstate, hbs,
        fun x => (hidx' x).trans (hidx₁ x), ?_⟩
      · simp only [BlockManager.takeHits, hok, bind, Except.bind, ha]
        exact htake
      · have hsum : (↑(b :: bs) : Multiset BlockId) + held = ↑bs + (b ::ₘ held) := by
          rw [← Multiset.cons_coe, Multiset.cons_add, Multiset.add_cons]
        rwa [hsum]
      · rw [List.countP_cons]
        have hle := hnum'
        simp only [BlockManager.setCache] at hle
        have heq : ({ a with recycler := some (c.acquire b) } :
          BlockAllocator (PrefixCache D)).numAllocatable = a.numAllocatable := rfl
        rw [heq] at hle
        omega

/-- The prefix `allocate` adopts. -/
structure Adopted (m : BlockManager D) (seq : Sequence) (n : ℕ) (seq' : Sequence) :
    Prop where
  seq_eq : seq' = { seq with
    blockTable := seq'.blockTable, numComputedTokens := n,
    numCachedPromptTokens := seq'.numCachedPromptTokens }
  computed_eq : n = seq'.blockTable.length * m.blockSize
  computed_lt : n < seq.numTokens
  uncached : m.allocator.recycler = none → seq'.blockTable = []
  indexed : ∀ k b, seq'.blockTable[k]? = some b → m.allocator.indexed b =
    some (chainHash D seq.tokenIds m.blockSize seq.loraId (k + 1))

/-- A hit leaves at least one token to compute. -/
theorem hits_lt {k bs : ℕ} (seq : Sequence)
    (hk : k ≤ (seq.numTokens - 1) / bs) : k * bs < seq.numTokens := by
  have h₁ : k * bs ≤ seq.numTokens - 1 :=
    (Nat.mul_le_mul_right bs hk).trans (Nat.div_mul_le_self _ _)
  have h₂ := seq.numTokens_pos
  omega

/-- Blocks indexed along one chain are pairwise different. -/
theorem nodup_of_indexed [CollisionFree D]
    {table : List BlockId} {a : BlockAllocator (PrefixCache D)} {toks : List TokenId}
    {bs : ℕ} {lora : ℤ}
    (h : ∀ k b, table[k]? = some b →
      a.indexed b = some (chainHash D toks bs lora (k + 1))) : table.Nodup := by
  rw [List.nodup_iff_injective_get]
  intro i j hij
  have hi := h i _ (List.getElem?_eq_getElem i.2)
  have hj := h j _ (List.getElem?_eq_getElem j.2)
  have heq : table[(i : ℕ)] = table[(j : ℕ)] := hij
  rw [heq] at hi
  have := chainHash_length_inj (Option.some.inj (hi.symm.trans hj))
  exact Fin.ext (Nat.succ.inj this)

/-- Tokens a prefix hit would cover, were the sequence admitted now. -/
def BlockManager.cachedTokens (m : BlockManager D) (seq : Sequence) : ℕ :=
  match m.prefixCache with
  | none => 0
  | some c => (c.match seq.tokenIds seq.loraId (some (m.maxHitBlocks seq))).numTokens

theorem allocate_tokens {n : ℕ} {m' : BlockManager D} {seq' : Sequence}
    (h : m.allocate seq = .ok (n, m', seq')) : n = m.cachedTokens seq := by
  unfold BlockManager.allocate at h
  split at h
  · cases h
  · split at h
    · next hnone =>
        cases h
        rw [BlockManager.cachedTokens, hnone]
    · next c hsome =>
        rw [BlockManager.cachedTokens, hsome]
        simp only [bind, Except.bind] at h
        split at h
        · cases h
        · cases h
          rfl

/-- `allocate` adopts the cached prefix of an idle sequence. What `can_allocate`
promised is still there afterwards. -/
theorem allocate_seq_spec (h : ManagerInv m rest)
    (hid : seq.seqId ∉ rest.map (·.seqId)) (hempty : seq.blockTable = []) :
    ∃ n m' seq', m.allocate seq = .ok (n, m', seq') ∧
      ManagerInv m' (seq' :: rest) ∧ Frame m m' seq.seqId ∧ Adopted m seq n seq' ∧
      (∃ st, Holds m' seq' st ∧ st.numPublished = seq'.blockTable.length) ∧
      (∀ x, m'.allocator.indexed x = m.allocator.indexed x) ∧
      (m.canAllocate seq = true →
        seq.numBlocksNeeded m.blockSize ≤
          m'.allocator.numAllocatable + seq'.blockTable.length) := by
  rcases Option.eq_none_or_eq_some m.allocator.recycler with hr | ⟨c, hr⟩
  · -- no prefix cache: the sequence starts with an empty table
    have hholds : Holds { m with
        state := Function.update m.state seq.seqId (some ⟨[], 0⟩) }
        { seq with numComputedTokens := 0, numCachedPromptTokens := 0 } ⟨[], 0⟩ :=
      { state_eq := by simp
        hashes_eq := rfl
        published_le := by simp
        published_le_table := Nat.zero_le _
        computed_le := Nat.zero_le _
        covered := Nat.zero_le _
        priv := by simp [hempty]
        table_nodup := fun _ => by simp [hempty] }
    have hframe : Frame m { m with
        state := Function.update m.state seq.seqId (some ⟨[], 0⟩) } seq.seqId :=
      ⟨rfl, .refl _, fun j hj => by simp [hj]⟩
    refine ⟨0, _, { seq with numComputedTokens := 0, numCachedPromptTokens := 0 },
      ?_, ?_, hframe, ?_, ⟨_, hholds, by simp [hempty]⟩, fun _ => rfl, ?_⟩
    · simp [BlockManager.allocate, BlockManager.prefixCache, hempty, hr]
    · refine ManagerInv.exchange none (some _) h hframe (by simp)
        (by simp) hid ?_ ?_ (by simp) ?_
      · simpa [hempty, heldBlocks] using h.pool
      · intro s hs
        obtain rfl := Option.mem_some_iff.mp hs
        exact ⟨_, hholds⟩
      · exact fun b _ _ hb => ⟨by simp [hempty], hb⟩
    · exact
        { seq_eq := rfl, computed_eq := by simp [hempty]
          computed_lt := seq.numTokens_pos, uncached := fun _ => hempty
          indexed := by simp [hempty] }
    · simp [BlockManager.canAllocate, BlockManager.prefixCache, hr, hempty]
  · -- with a prefix cache: the hits are pinned and become the table
    have hc := h.pool.cache c hr
    have hcbs : c.blockSize = m.blockSize := hc.blockSize_eq.trans h.blockSize_eq
    generalize hhit : c.match seq.tokenIds seq.loraId (some (m.maxHitBlocks seq)) = hit
    have hindexed : ∀ k b, hit.blockIds[k]? = some b → m.allocator.indexed b =
        some (chainHash D seq.tokenIds m.blockSize seq.loraId (k + 1)) := by
      intro k b hk
      rw [indexed_of_recycler hr, hc.inverse, ← hcbs]
      exact PrefixCache.match_indexed (hhit ▸ hk)
    have hsome : ∀ b ∈ hit.blockIds, (m.allocator.indexed b).isSome := by
      intro b hb
      obtain ⟨k, hk⟩ := List.mem_iff_getElem?.mp hb
      rw [hindexed k b hk]
      rfl
    have hlen : hit.blockIds.length ≤ (seq.numTokens - 1) / m.blockSize := by
      rw [← hhit]
      exact PrefixCache.numBlocks_match_le _ _ _ _
    have htok : hit.numTokens = hit.blockIds.length * m.blockSize := by
      rw [PrefixMatch.numTokens, ← hhit, PrefixCache.match_blockSize, hcbs]
    have hlt : hit.numTokens < seq.numTokens := htok ▸ hits_lt seq hlen
    generalize hc' : c.recordMatch seq.tokenIds (some (m.maxHitBlocks seq)) hit = c'
    have hpool₁ : PoolInv (m.setCache c').allocator (heldBlocks rest) := by
      refine { h.pool with retained_none := by simp [BlockManager.setCache], cache := ?_ }
      intro c₀ hc₀
      obtain rfl : c' = c₀ := Option.some.inj hc₀
      rw [← hc']
      exact { hc with }
    have hidx₁ : ∀ x, (m.setCache c').allocator.indexed x = m.allocator.indexed x := by
      intro x
      rw [indexed_of_recycler hr, ← hc']
      rfl
    obtain ⟨m₂, htake, hpool₂, hshape₂, hstate₂, hbs₂, hidx₂, hnum₂⟩ :=
      takeHits_spec hit.blockIds hpool₁ fun b hb => (hidx₁ b).symm ▸ hsome b hb
    have hframe : Frame m { m₂ with
        state := Function.update m₂.state seq.seqId
          (some ⟨hit.hashes, hit.numBlocks⟩) } seq.seqId := by
      refine ⟨hbs₂, ⟨hshape₂.1, hshape₂.2, ?_⟩, fun j hj => by
        simp [hj, hstate₂, BlockManager.setCache]⟩
      rw [hshape₂.3, hr]
      rfl
    have hholds : Holds { m₂ with
        state := Function.update m₂.state seq.seqId
          (some ⟨hit.hashes, hit.numBlocks⟩) }
        { seq with
          blockTable := hit.blockIds
          numComputedTokens := hit.numTokens
          numCachedPromptTokens := min hit.numTokens seq.numPromptTokens }
        ⟨hit.hashes, hit.numBlocks⟩ :=
      { state_eq := by simp
        hashes_eq := by
          show hit.hashes = _
          rw [show ({ m₂ with state := _ } : BlockManager D).blockSize = m.blockSize
            from hbs₂, ← hcbs, ← hhit]
          exact PrefixCache.match_hashes _ _ _ _
        published_le := by
          show hit.blockIds.length * m₂.blockSize ≤ hit.numTokens
          rw [hbs₂, htok]
          rfl
        published_le_table := le_rfl
        computed_le := hlt.le
        covered := by
          show hit.numTokens ≤ hit.blockIds.length * m₂.blockSize
          rw [hbs₂, htok]
          rfl
        priv := by
          intro k b hk hb
          have := (List.getElem?_eq_some_iff.mp hb).1
          exact absurd hk (Nat.not_le_of_lt this)
        table_nodup := fun _ => nodup_of_indexed hindexed }
    refine ⟨hit.numTokens, _, _, ?_, ?_, hframe, ?_, ⟨_, hholds, rfl⟩,
      fun x => (hidx₂ x).trans (hidx₁ x), ?_⟩
    · simp only [BlockManager.allocate, BlockManager.prefixCache, hempty, hr, hhit, hc',
        htake, bind, Except.bind, ne_eq, not_true_eq_false, if_false]
    · refine ManagerInv.exchange none (some _) h hframe (by simp)
        (by simp) hid ?_ ?_ (by simp) ?_
      · simpa [heldBlocks] using hpool₂
      · intro s hs
        obtain rfl := Option.mem_some_iff.mp hs
        exact ⟨_, hholds⟩
      · intro b _ _ hb
        refine ⟨fun hmem => ?_, (hidx₂ b).trans ((hidx₁ b).trans hb)⟩
        have := hsome b (by simpa [heldBlocks] using hmem)
        simp [hb] at this
    · exact
        { seq_eq := rfl, computed_eq := htok, computed_lt := hlt
          uncached := by simp [hr], indexed := hindexed }
    · intro hcan
      simp only [BlockManager.canAllocate, BlockManager.prefixCache, hr, hhit,
        decide_eq_true_eq, PrefixMatch.numBlocks] at hcan
      have hnum : m.allocator.numAllocatable ≤ m₂.allocator.numAllocatable +
          hit.blockIds.countP m.allocator.isRetained := hnum₂
      show seq.numBlocksNeeded m.blockSize ≤
        m₂.allocator.numAllocatable + hit.blockIds.length
      omega

/-! ## §3  Growth -/

/-- The KV slot of position `p`: `block_table[p // bs] * bs + p % bs`. -/
def slotAt (blockSize : ℕ) (table : List BlockId) (p : ℕ) : Slot :=
  table[p / blockSize]?.getD 0 * blockSize + p % blockSize

theorem mapM_ok {α β : Type} {f : α → Except Fault β} {g : α → β} (xs : List α)
    (h : ∀ x ∈ xs, f x = .ok (g x)) : xs.mapM f = .ok (xs.map g) := by
  induction xs with
  | nil => rfl
  | cons x xs ih =>
      rw [List.mapM_cons, h x List.mem_cons_self,
        ih fun y hy => h y (List.mem_cons_of_mem _ hy)]
      rfl

omit [BlockDigest D] in
theorem slotMapping_ok {start n : ℕ} (hpos : 0 < m.blockSize)
    (h : start + n ≤ seq.blockTable.length * m.blockSize) :
    m.slotMapping seq start n =
      .ok ((List.range' start n).map (slotAt m.blockSize seq.blockTable)) := by
  refine mapM_ok _ fun p hp => ?_
  have hlt : p / m.blockSize < seq.blockTable.length := by
    rw [Nat.div_lt_iff_lt_mul hpos]
    have := List.mem_range'_1.mp hp
    omega
  simp only [slotAt, List.getElem?_eq_getElem hlt, Option.getD_some]

omit [BlockDigest D] in
variable [DecidableEq D] in
/-- `n` rounds of allocation: `n` different blocks that were nobody's. -/
theorem growTable_spec (n : ℕ) {held : Multiset BlockId} (table : List BlockId)
    (h : PoolInv m.allocator held) (hroom : n ≤ m.allocator.numAllocatable) :
    ∃ m' fresh, m.growTable table n = .ok (m', table ++ fresh) ∧
      fresh.length = n ∧ fresh.Nodup ∧ (∀ b ∈ fresh, b ∉ held) ∧
      (∀ b ∈ fresh, m'.allocator.indexed b = none) ∧
      PoolInv m'.allocator (↑fresh + held) ∧ SameShape m.allocator m'.allocator ∧
      m'.state = m.state ∧ m'.blockSize = m.blockSize ∧
      m'.allocator.numAllocatable + n = m.allocator.numAllocatable ∧
      (∀ x d, m'.allocator.indexed x = some d → m.allocator.indexed x = some d) := by
  induction n generalizing m held table with
  | zero =>
      refine ⟨m, [], by simp [BlockManager.growTable], rfl, List.nodup_nil, by simp,
        by simp, ?_, .refl _, rfl, rfl, rfl, fun _ _ => id⟩
      simpa using h
  | succ n ih =>
      obtain ⟨b, a, hok, hpool, hshape, hb, hbidx, hnum, hidx⟩ :=
        allocate_spec h (Nat.lt_of_lt_of_le (Nat.succ_pos n) hroom)
      obtain ⟨m', fresh, hgrow, hlen, hnd, hnot, hnone, hpool', hshape', hstate, hbs,
        hnum', hidx'⟩ := ih (m := { m with allocator := a }) (table ++ [b]) hpool (by
          show n ≤ a.numAllocatable
          omega)
      have hbfresh : b ∉ fresh := fun hbf =>
        hnot b hbf (Multiset.mem_cons_self b held)
      refine ⟨m', b :: fresh, ?_, by simp [hlen], List.nodup_cons.mpr ⟨hbfresh, hnd⟩,
        ?_, ?_, ?_, hshape.trans hshape', hstate, hbs, ?_,
        fun x d hx => hidx x d (hidx' x d hx)⟩
      · simp only [BlockManager.growTable, hok, bind, Except.bind]
        rw [hgrow, List.append_assoc]
        rfl
      · intro x hx
        rcases List.mem_cons.mp hx with rfl | hx
        · exact hb
        · exact fun hxh => hnot x hx (Multiset.mem_cons_of_mem hxh)
      · intro x hx
        rcases List.mem_cons.mp hx with rfl | hx
        · cases hxi : m'.allocator.indexed x with
          | none => rfl
          | some d =>
              have := hidx' x d hxi
              rw [hbidx] at this
              cases this
        · exact hnone x hx
      · have hsum : (↑(b :: fresh) : Multiset BlockId) + held =
            ↑fresh + (b ::ₘ held) := by
          rw [← Multiset.cons_coe, Multiset.cons_add, Multiset.add_cons]
        rwa [hsum]
      · have : m'.allocator.numAllocatable + n = a.numAllocatable := hnum'
        omega

/-- What growing a sequence by `n` tokens does, slots and blocks. -/
structure Grown (m m' : BlockManager D) (seq : Sequence) (n : ℕ)
    (slots : List Slot) (seq' : Sequence) : Prop where
  seq_eq : seq' = { seq with blockTable := seq'.blockTable }
  extends_table : ∃ fresh, seq'.blockTable = seq.blockTable ++ fresh
  covers : seq.numComputedTokens + n ≤ seq'.blockTable.length * m.blockSize
  slots_eq : slots = (List.range' seq.numComputedTokens n).map
    (slotAt m.blockSize seq'.blockTable)
  state_eq : m'.state = m.state
  indexed_of : ∀ x d, m'.allocator.indexed x = some d → m.allocator.indexed x = some d
  length_eq : seq'.blockTable.length =
    max seq.blockTable.length ((seq.numComputedTokens + n) ⌈/⌉ m.blockSize)

/-- Tokens and table already agree once the table has the blocks it needs. -/
theorem le_ceilDiv_mul {k bs : ℕ} (hpos : 0 < bs) : k ≤ k ⌈/⌉ bs * bs := by
  have := le_smul_ceilDiv (b := k) hpos
  rwa [smul_eq_mul, Nat.mul_comm] at this

/-- The sequence with its progress advanced by `n`. -/
abbrev advanced (seq : Sequence) (n : ℕ) : Sequence :=
  { seq with numComputedTokens := seq.numComputedTokens + n }

/-- `fresh` blocks were taken out of the pool in which `held` are referenced. -/
structure TookBlocks (m m' : BlockManager D) (held : Multiset BlockId)
    (fresh : List BlockId) : Prop where
  nodup : fresh.Nodup
  not_held : ∀ b ∈ fresh, b ∉ held
  unindexed : ∀ b ∈ fresh, m'.allocator.indexed b = none
  pool : PoolInv m'.allocator (↑fresh + held)
  shape : SameShape m.allocator m'.allocator
  state_eq : m'.state = m.state
  blockSize_eq : m'.blockSize = m.blockSize
  indexed_of : ∀ x d, m'.allocator.indexed x = some d → m.allocator.indexed x = some d

namespace TookBlocks

variable {m' : BlockManager D} {fresh : List BlockId}

omit [BlockDigest D] in
theorem unindexed_of {held : Multiset BlockId} (ht : TookBlocks m m' held fresh)
    {x : BlockId} (hx : m.allocator.indexed x = none) : m'.allocator.indexed x = none := by
  cases hx' : m'.allocator.indexed x with
  | none => rfl
  | some d =>
      rw [ht.indexed_of x d hx'] at hx
      cases hx

/-- Blocks appended to a table are private to its sequence. -/
theorem holds (ht : TookBlocks m m' (heldBlocks (seq :: rest)) fresh)
    (h : ManagerInv m (seq :: rest)) {st : SeqBlocks D} (hst : Holds m seq st) :
    Holds m' { seq with blockTable := seq.blockTable ++ fresh } st where
  state_eq := by rw [ht.state_eq]; exact hst.state_eq
  hashes_eq := by rw [ht.blockSize_eq]; exact hst.hashes_eq
  published_le := by rw [ht.blockSize_eq]; exact hst.published_le
  published_le_table := by
    have := hst.published_le_table
    simp only [List.length_append]
    omega
  computed_le := hst.computed_le
  covered := by
    rw [ht.blockSize_eq]
    refine hst.covered.trans (Nat.mul_le_mul_right _ ?_)
    simp only [List.length_append]
    omega
  priv := by
    intro k b hk hb
    rcases Nat.lt_or_ge k seq.blockTable.length with hlt | hge
    · -- an old private block: still counted once
      have hb' : seq.blockTable[k]? = some b := by
        rwa [List.getElem?_append_left hlt] at hb
      obtain ⟨hrefs, hbidx⟩ := hst.priv k b hk hb'
      have hheld : b ∈ heldBlocks (seq :: rest) :=
        mem_heldBlocks.mpr ⟨seq, List.mem_cons_self, List.mem_of_getElem? hb'⟩
      have hz : Multiset.count b (↑fresh : Multiset BlockId) = 0 :=
        Multiset.count_eq_zero.mpr fun hbf =>
          ht.not_held b (Multiset.mem_coe.mp hbf) hheld
      refine ⟨?_, ht.unindexed_of hbidx⟩
      rw [ht.pool.refs_eq, Multiset.count_add, hz, Nat.zero_add, ← h.pool.refs_eq,
        hrefs]
    · -- a fresh block: counted once, among the fresh ones
      have hbf : b ∈ fresh := by
        rw [List.getElem?_append_right hge] at hb
        exact List.mem_of_getElem? hb
      refine ⟨?_, ht.unindexed b hbf⟩
      rw [ht.pool.refs_eq, Multiset.count_add,
        Multiset.count_eq_zero.mpr (ht.not_held b hbf), Multiset.coe_count,
        List.count_eq_one_of_mem ht.nodup hbf]
  table_nodup := fun hcf => by
    refine List.Nodup.append (hst.table_nodup hcf) ht.nodup fun b hb hbf => ?_
    exact ht.not_held b hbf (mem_heldBlocks.mpr ⟨seq, List.mem_cons_self, hb⟩)

theorem managerInv (ht : TookBlocks m m' (heldBlocks (seq :: rest)) fresh)
    (h : ManagerInv m (seq :: rest)) :
    ManagerInv m' ({ seq with blockTable := seq.blockTable ++ fresh } :: rest) := by
  have hframe : Frame m m' seq.seqId :=
    ⟨ht.blockSize_eq, ht.shape, fun j _ => congrFun ht.state_eq j⟩
  obtain ⟨st, hst⟩ := h.holds seq List.mem_cons_self
  have hpool : PoolInv m'.allocator
      (heldBlocks ({ seq with blockTable := seq.blockTable ++ fresh } :: rest)) := by
    have heq : (↑fresh + heldBlocks (seq :: rest) : Multiset BlockId) =
        heldBlocks ({ seq with blockTable := seq.blockTable ++ fresh } :: rest) := by
      rw [heldBlocks_cons, heldBlocks_cons, ← Multiset.coe_add, ← add_assoc,
        add_comm (↑fresh : Multiset BlockId)]
    rw [← heq]
    exact ht.pool
  refine ManagerInv.exchange (some seq) (some _) h hframe (by simp)
    (by simp) h.head_not_mem hpool ?_ (by simp) ?_
  · intro s hs
    obtain rfl := Option.mem_some_iff.mp hs
    exact ⟨st, ht.holds h hst⟩
  · intro b hb hrefs hbidx
    refine ⟨fun hmem => ?_, ht.unindexed_of hbidx⟩
    have hold : b ∉ seq.blockTable := by
      have := (ManagerInv.count_of_private (some seq) h hrefs hb).2
      simpa [heldBlocks] using this
    have hbf : b ∈ fresh := by
      have : b ∈ seq.blockTable ++ fresh := by simpa [heldBlocks] using hmem
      exact (List.mem_append.mp this).resolve_left hold
    exact ht.not_held b hbf (by rw [heldBlocks_cons]; exact Multiset.mem_add.mpr (Or.inr hb))

end TookBlocks

/-- Progress within the tokens and the blocks the sequence has. -/
theorem Holds.advance {n : ℕ} {st : SeqBlocks D} (hst : Holds m seq st)
    (hn : seq.numComputedTokens + n ≤ seq.numTokens)
    (hcov : seq.numComputedTokens + n ≤ seq.blockTable.length * m.blockSize) :
    Holds m (advanced seq n) st :=
  { hst with
    published_le := hst.published_le.trans (Nat.le_add_right _ _)
    computed_le := hn
    covered := hcov }

theorem ManagerInv.advance {n : ℕ} (h : ManagerInv m (seq :: rest))
    (hn : seq.numComputedTokens + n ≤ seq.numTokens)
    (hcov : seq.numComputedTokens + n ≤ seq.blockTable.length * m.blockSize) :
    ManagerInv m (advanced seq n :: rest) where
  blockSize_pos := h.blockSize_pos
  blockSize_eq := h.blockSize_eq
  pool := h.pool
  ids_nodup := h.ids_nodup
  holds s hs := by
    rcases List.mem_cons.mp hs with rfl | hs
    · obtain ⟨st, hst⟩ := h.holds seq List.mem_cons_self
      exact ⟨st, hst.advance hn hcov⟩
    · exact h.holds s (List.mem_cons_of_mem _ hs)
  absent := h.absent

variable [DecidableEq D] in
/-- `append_slots` succeeds when the blocks `can_append` counts are there, and
every block it takes is private to the sequence. -/
theorem appendSlots_spec {n : ℕ} (h : ManagerInv m (seq :: rest))
    (hn : seq.numComputedTokens + n ≤ seq.numTokens)
    (hroom : (seq.numComputedTokens + n) ⌈/⌉ m.blockSize ≤
      m.allocator.numAllocatable + seq.blockTable.length) :
    ∃ slots m' seq', m.appendSlots seq n = .ok (slots, m', seq') ∧
      Grown m m' seq n slots seq' ∧ Frame m m' seq.seqId ∧
      ManagerInv m' (advanced seq' n :: rest) ∧
      (∀ st, Holds m seq st → Holds m' (advanced seq' n) st) := by
  have hpos := h.blockSize_pos
  obtain ⟨st₀, hst₀⟩ := h.holds seq List.mem_cons_self
  generalize hneed : (seq.numComputedTokens + n) ⌈/⌉ m.blockSize = needed at hroom
  obtain ⟨m', fresh, hgrow, hlen, hnd, hnot, hnone, hpool, hshape, hstate, hbs, -,
    hidx⟩ := growTable_spec (needed - seq.blockTable.length) seq.blockTable h.pool
      (by omega)
  have htook : TookBlocks m m' (heldBlocks (seq :: rest)) fresh :=
    ⟨hnd, hnot, hnone, hpool, hshape, hstate, hbs, hidx⟩
  have hcovers : seq.numComputedTokens + n ≤
      (seq.blockTable ++ fresh).length * m.blockSize := by
    refine (le_ceilDiv_mul hpos).trans (Nat.mul_le_mul_right _ ?_)
    rw [hneed, List.length_append]
    omega
  have hframe : Frame m m' seq.seqId := ⟨hbs, hshape, fun j _ => congrFun hstate j⟩
  refine ⟨_, m', { seq with blockTable := seq.blockTable ++ fresh }, ?_,
    { seq_eq := rfl, extends_table := ⟨fresh, rfl⟩, covers := hcovers, slots_eq := rfl
      state_eq := hstate, indexed_of := hidx, length_eq := ?_ }, hframe,
    (htook.managerInv h).advance hn (hbs ▸ hcovers),
    fun st hst => (htook.holds h hst).advance hn (hbs ▸ hcovers)⟩
  · have hsome : (m.state seq.seqId).isNone = false := by simp [hst₀.state_eq]
    have hslots : m'.slotMapping { seq with blockTable := seq.blockTable ++ fresh }
        seq.numComputedTokens n = .ok _ :=
      slotMapping_ok (hbs ▸ hpos) (hbs ▸ hcovers)
    simp only [BlockManager.appendSlots, hsome, Bool.false_eq_true, if_false,
      if_neg (not_lt.mpr hn), hneed, hgrow, bind, Except.bind, hslots, hbs]
  · rw [List.length_append, hlen, hneed]
    omega

omit [BlockDigest D] in
/-- `can_append` is exact: the tokens exist and the missing blocks are there. -/
theorem canAppend_iff {n : ℕ} :
    m.canAppend seq n = true ↔ seq.numComputedTokens + n ≤ seq.numTokens ∧
      (seq.numComputedTokens + n) ⌈/⌉ m.blockSize ≤
        m.allocator.numAllocatable + seq.blockTable.length := by
  unfold BlockManager.canAppend
  simp only [gt_iff_lt]
  split
  · next hlt => simp [Nat.not_le_of_lt hlt]
  · next hlt =>
      rw [decide_eq_true_eq]
      constructor
      · exact fun h => ⟨not_lt.mp hlt, by omega⟩
      · exact fun h => by omega

/-- With nobody holding blocks, everything that fits the pool can be admitted. -/
theorem canAllocate_of_no_holder (h : ManagerInv m [])
    (hfits : seq.numBlocksNeeded m.blockSize ≤ m.allocator.numBlocks) :
    m.canAllocate seq = true := by
  have hall : m.allocator.numAllocatable = m.allocator.numBlocks := by
    simpa using h.pool.numAllocatable_add
  unfold BlockManager.canAllocate
  cases m.prefixCache with
  | none => simpa [hall] using hfits
  | some c =>
      have hcount := List.countP_le_length (p := m.allocator.isRetained)
        (l := (c.match seq.tokenIds seq.loraId (some (m.maxHitBlocks seq))).blockIds)
      simp only [hall, decide_eq_true_eq, PrefixMatch.numBlocks]
      omega

/-- A sole holder that fits the pool can always grow. -/
theorem canAppend_of_sole_holder {n : ℕ} (h : ManagerInv m [seq])
    (hn : seq.numComputedTokens + n ≤ seq.numTokens)
    (hfits : (seq.numComputedTokens + n) ⌈/⌉ m.blockSize ≤ m.allocator.numBlocks) :
    m.canAppend seq n = true := by
  refine canAppend_iff.mpr ⟨hn, ?_⟩
  have hall := h.pool.numAllocatable_add
  have hcard : (heldBlocks [seq]).toFinset.card ≤ seq.blockTable.length := by
    simpa [heldBlocks] using List.toFinset_card_le seq.blockTable
  omega

/-- A holder's table and the room left are blocks of the pool. -/
theorem ManagerInv.room_le [hcf : CollisionFree D] (h : ManagerInv m (seq :: rest)) :
    m.allocator.numAllocatable + seq.blockTable.length ≤ m.allocator.numBlocks := by
  have hall := h.pool.numAllocatable_add
  obtain ⟨st, hst⟩ := h.holds seq List.mem_cons_self
  have hcard : seq.blockTable.length ≤ (heldBlocks (seq :: rest)).toFinset.card := by
    rw [← List.toFinset_card_of_nodup (hst.table_nodup hcf)]
    refine Finset.card_le_card fun b hb => ?_
    rw [Multiset.mem_toFinset, heldBlocks_cons]
    exact Multiset.mem_add.mpr (Or.inl (Multiset.mem_coe.mpr (List.mem_toFinset.mp hb)))
  omega

/-- Growth the pool grants is growth it can hold. -/
theorem fits_of_canAppend [CollisionFree D] {n : ℕ} (h : ManagerInv m (seq :: rest))
    (hcan : m.canAppend seq n = true) :
    (seq.numComputedTokens + n) ⌈/⌉ m.blockSize ≤ m.allocator.numBlocks :=
  (canAppend_iff.mp hcan).2.trans h.room_le

/-- An idle sequence the pool admits is one it can hold. -/
theorem fits_of_canAllocate [CollisionFree D] (h : ManagerInv m rest)
    (hid : seq.seqId ∉ rest.map (·.seqId)) (hempty : seq.blockTable = [])
    (hcan : m.canAllocate seq = true) :
    seq.numBlocksNeeded m.blockSize ≤ m.allocator.numBlocks := by
  obtain ⟨n, m', seq', -, hinv, hframe, -, -, -, hroom⟩ := allocate_seq_spec h hid hempty
  have hle := (hroom hcan).trans hinv.room_le
  rwa [hframe.shape.numBlocks_eq] at hle

/-- An index that only lost entries covers no more of a sequence. -/
theorem cachedTokens_mono {m' : BlockManager D} {rest' : List Sequence}
    {seq' : Sequence} (h : ManagerInv m rest) (h' : ManagerInv m' rest')
    (hbs : m'.blockSize = m.blockSize) (hshape : SameShape m.allocator m'.allocator)
    (hidx : ∀ x e, m'.allocator.indexed x = some e → m.allocator.indexed x = some e)
    (htoks : seq'.tokenIds = seq.tokenIds) (hlora : seq'.loraId = seq.loraId) :
    m'.cachedTokens seq' ≤ m.cachedTokens seq := by
  have hnum : seq'.numTokens = seq.numTokens := by
    rw [← Sequence.length_tokenIds, htoks, Sequence.length_tokenIds]
  unfold BlockManager.cachedTokens BlockManager.prefixCache
  cases hr' : m'.allocator.recycler with
  | none => exact Nat.zero_le _
  | some c' =>
      obtain ⟨c, hr⟩ := Option.isSome_iff_exists.mp
        (hshape.recycler_eq.symm.trans (by rw [hr']; rfl))
      have hc := h.pool.cache c hr
      have hc' := h'.pool.cache c' hr'
      have hcbs : c'.blockSize = c.blockSize :=
        hc'.blockSize_eq.trans (hshape.blockSize_eq.trans hc.blockSize_eq.symm)
      have hsub : ∀ d b, c'.byHash d = some b → c.byHash d = some b := by
        intro d b hd
        rw [← hc.inverse, ← indexed_of_recycler hr]
        apply hidx
        rw [indexed_of_recycler hr', hc'.inverse]
        exact hd
      simp only [hr, PrefixMatch.numTokens, PrefixCache.match, List.length_map,
        PrefixCache.numLookups, BlockManager.maxHitBlocks, htoks, hlora, hnum, hbs, hcbs]
      exact Nat.mul_le_mul_right _
        (PrefixCache.length_matchFrom_mono c _ _ hcbs hsub _ _ _)

/-! ## §5  Tokens, identities and the empty pool -/

/-- Generated tokens are past everything published. -/
theorem ManagerInv.append_tokens (h : ManagerInv m (seq :: rest)) (toks : List TokenId) :
    ManagerInv m ({ seq with outputTokenIds := seq.outputTokenIds ++ toks } :: rest) := by
  refine { h with pool := h.pool, ids_nodup := h.ids_nodup, holds := ?_, absent := h.absent }
  intro s hs
  rcases List.mem_cons.mp hs with rfl | hs
  · obtain ⟨st, hst⟩ := h.holds seq List.mem_cons_self
    refine ⟨st, { hst with hashes_eq := ?_, computed_le := ?_ }⟩
    · rw [hst.hashes_eq]
      refine List.map_congr_left fun k hk => ?_
      have hk' : (k + 1) * m.blockSize ≤ seq.tokenIds.length := by
        rw [Sequence.length_tokenIds]
        exact ((Nat.mul_le_mul_right _ (List.mem_range.mp hk)).trans
          hst.published_le).trans hst.computed_le
      have happ : ({ seq with outputTokenIds := seq.outputTokenIds ++ toks } :
          Sequence).tokenIds = seq.tokenIds ++ toks := by
        simp [Sequence.tokenIds]
      rw [happ, chainHash_append _ hk']
    · refine hst.computed_le.trans ?_
      simp [Sequence.numTokens]
  · exact h.holds s (List.mem_cons_of_mem _ hs)

theorem ManagerInv.append_token {tok : TokenId} (h : ManagerInv m (seq :: rest)) :
    ManagerInv m ({ seq with outputTokenIds := seq.outputTokenIds ++ [tok] } :: rest) :=
  h.append_tokens [tok]

/-- Tokens and progress past everything published can be taken back. -/
theorem ManagerInv.take_back (n : ℕ) (toks : List TokenId)
    (h : ManagerInv m ({ seq with
      outputTokenIds := seq.outputTokenIds ++ toks, numComputedTokens := n } :: rest))
    (hn : seq.numComputedTokens ≤ n) (hle : seq.numComputedTokens ≤ seq.numTokens)
    (hpub : ∀ st, m.state seq.seqId = some st →
      st.numPublished * m.blockSize ≤ seq.numComputedTokens) :
    ManagerInv m (seq :: rest) := by
  refine { h with pool := h.pool, ids_nodup := h.ids_nodup, holds := ?_, absent := h.absent }
  intro s hs
  rcases List.mem_cons.mp hs with rfl | hs
  · obtain ⟨st, hst⟩ := h.holds _ List.mem_cons_self
    have hpublished := hpub st hst.state_eq
    refine ⟨st, { hst with
      hashes_eq := ?_, published_le := hpublished, computed_le := hle
      covered := hn.trans hst.covered }⟩
    rw [hst.hashes_eq]
    apply List.map_congr_left
    intro k hk
    have hk' : (k + 1) * m.blockSize ≤ s.tokenIds.length := by
      rw [Sequence.length_tokenIds]
      exact ((Nat.mul_le_mul_right _ (List.mem_range.mp hk)).trans hpublished).trans hle
    have happ : chainHash D (s.tokenIds ++ toks) m.blockSize s.loraId (k + 1) =
        chainHash D s.tokenIds m.blockSize s.loraId (k + 1) := chainHash_append s.loraId hk'
    rw [← happ]
    simp [Sequence.tokenIds]
  · exact h.holds s (List.mem_cons_of_mem _ hs)

/-- Fields the manager never reads may change freely. -/
theorem ManagerInv.head_congr {seq' : Sequence} (h : ManagerInv m (seq :: rest))
    (hid : seq'.seqId = seq.seqId) (htable : seq'.blockTable = seq.blockTable)
    (hcomp : seq'.numComputedTokens = seq.numComputedTokens)
    (hprompt : seq'.promptTokenIds = seq.promptTokenIds)
    (houtput : seq'.outputTokenIds = seq.outputTokenIds)
    (hlora : seq'.loraId = seq.loraId) : ManagerInv m (seq' :: rest) := by
  have htoks : seq'.tokenIds = seq.tokenIds := by
    simp [Sequence.tokenIds, hprompt, houtput]
  have hnum : seq'.numTokens = seq.numTokens := by
    simp [Sequence.numTokens, hprompt, houtput]
  refine
    { h with
      pool := by rw [heldBlocks_cons, htable, ← heldBlocks_cons]; exact h.pool
      ids_nodup := by rw [List.map_cons, hid, ← List.map_cons]; exact h.ids_nodup
      holds := ?_
      absent := fun i hi => h.absent i (by rwa [List.map_cons, hid, ← List.map_cons] at hi) }
  intro s hs
  rcases List.mem_cons.mp hs with rfl | hs
  · obtain ⟨st, hst⟩ := h.holds seq List.mem_cons_self
    exact ⟨st,
      { state_eq := by rw [hid]; exact hst.state_eq
        hashes_eq := by rw [htoks, hlora]; exact hst.hashes_eq
        published_le := by rw [hcomp]; exact hst.published_le
        published_le_table := by rw [htable]; exact hst.published_le_table
        computed_le := by rw [hcomp, hnum]; exact hst.computed_le
        covered := by rw [hcomp, htable]; exact hst.covered
        priv := by rw [htable]; exact hst.priv
        table_nodup := by rw [htable]; exact hst.table_nodup }⟩
  · exact h.holds s (List.mem_cons_of_mem _ hs)

theorem create_managerInv {numBlocks blockSize : ℕ} (hpos : 0 < blockSize)
    (caching : Bool) :
    ManagerInv (BlockManager.create D numBlocks blockSize caching) [] where
  blockSize_pos := hpos
  blockSize_eq := rfl
  pool := by
    refine PoolInv.of_empty (fun _ => rfl) rfl rfl fun c hc => ?_
    cases caching with
    | false => cases hc
    | true =>
        obtain rfl : PrefixCache.new blockSize = c := Option.some.inj hc
        exact ⟨rfl, rfl, fun _ => rfl, fun _ => rfl⟩
  ids_nodup := List.nodup_nil
  holds := by simp
  absent _ _ := rfl

theorem reset_managerInv {L : List Sequence} (h : ManagerInv m L) :
    ManagerInv m.reset [] where
  blockSize_pos := h.blockSize_pos
  blockSize_eq := h.blockSize_eq
  pool := by
    refine PoolInv.of_empty (fun _ => rfl) rfl rfl fun c hc => ?_
    obtain ⟨c₀, hc₀, rfl⟩ := Option.map_eq_some_iff.mp hc
    exact ⟨(h.pool.cache c₀ hc₀).blockSize_eq, rfl, fun _ => rfl, fun _ => rfl⟩
  ids_nodup := List.nodup_nil
  holds := by simp
  absent _ _ := rfl

omit [BlockDigest D] in
theorem reset_indexed (b : BlockId) : m.reset.allocator.indexed b = none := by
  rcases Option.eq_none_or_eq_some m.allocator.recycler with hr | ⟨c, hr⟩ <;>
    simp [BlockManager.reset, BlockAllocator.indexed, hr, PrefixCache.reset]

end TurboServe.Core
