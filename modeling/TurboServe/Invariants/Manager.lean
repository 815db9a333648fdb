import TurboServe.Core.BlockManager
import TurboServe.Invariants.Pool
import TurboServe.Invariants.Index

/-!
# The block manager's invariant

`ManagerInv m L` says what the manager and the pool know when exactly the
sequences of `L` hold blocks. Beyond the pool invariant it has one idea: the
blocks of a table from `num_published` on are *private*, with reference count
one and under no digest. Everything written, published or freed later rests on
that.

Operations on one holder are stated with that holder at the head of the list;
`ManagerInv` does not depend on the order.
-/

namespace TurboServe.Core

variable {D : Type} [BlockDigest D]

/-! ## §1  The invariant -/

/-- The references the block tables of `L` stand for. -/
def heldBlocks (L : List Sequence) : Multiset BlockId := ↑(L.flatMap (·.blockTable))

/-- What the manager knows of one sequence that holds blocks. -/
structure Holds (m : BlockManager D) (seq : Sequence) (st : SeqBlocks D) : Prop where
  state_eq : m.state seq.seqId = some st
  hashes_eq : st.hashes = (List.range st.numPublished).map fun k =>
    chainHash D seq.tokenIds m.blockSize seq.loraId (k + 1)
  published_le : st.numPublished * m.blockSize ≤ seq.numComputedTokens
  published_le_table : st.numPublished ≤ seq.blockTable.length
  computed_le : seq.numComputedTokens ≤ seq.numTokens
  covered : seq.numComputedTokens ≤ seq.blockTable.length * m.blockSize
  priv : ∀ k b, st.numPublished ≤ k → seq.blockTable[k]? = some b →
    m.allocator.refs b = 1 ∧ m.allocator.indexed b = none
  table_nodup : CollisionFree D → seq.blockTable.Nodup

structure ManagerInv (m : BlockManager D) (L : List Sequence) : Prop where
  blockSize_pos : 0 < m.blockSize
  blockSize_eq : m.allocator.blockSize = m.blockSize
  pool : PoolInv m.allocator (heldBlocks L)
  ids_nodup : (L.map (·.seqId)).Nodup
  holds : ∀ seq ∈ L, ∃ st, Holds m seq st
  absent : ∀ i, i ∉ L.map (·.seqId) → m.state i = none

/-- What an operation on sequence `i` leaves alone. -/
structure Frame (m m' : BlockManager D) (i : SeqId) : Prop where
  blockSize_eq : m'.blockSize = m.blockSize
  shape : SameShape m.allocator m'.allocator
  state_eq : ∀ j, j ≠ i → m'.state j = m.state j

@[simp] theorem heldBlocks_nil : heldBlocks [] = 0 := rfl

@[simp] theorem heldBlocks_cons (seq : Sequence) (L : List Sequence) :
    heldBlocks (seq :: L) = ↑seq.blockTable + heldBlocks L := by
  simp [heldBlocks]

theorem mem_heldBlocks {L : List Sequence} {b : BlockId} :
    b ∈ heldBlocks L ↔ ∃ seq ∈ L, b ∈ seq.blockTable := by
  simp [heldBlocks, List.mem_flatMap]

theorem heldBlocks_perm {L L' : List Sequence} (h : L.Perm L') :
    heldBlocks L = heldBlocks L' :=
  Multiset.coe_eq_coe.mpr (h.flatMap_right _)

namespace Frame

variable {m m' m'' : BlockManager D} {i : SeqId}

omit [BlockDigest D] in
theorem refl (m : BlockManager D) (i : SeqId) : Frame m m i :=
  ⟨rfl, .refl _, fun _ _ => rfl⟩

omit [BlockDigest D] in
theorem trans (h : Frame m m' i) (h' : Frame m' m'' i) : Frame m m'' i :=
  ⟨h'.blockSize_eq.trans h.blockSize_eq, h.shape.trans h'.shape,
    fun j hj => (h'.state_eq j hj).trans (h.state_eq j hj)⟩

end Frame

theorem Holds.transfer {m m' : BlockManager D} {seq : Sequence} {st : SeqBlocks D}
    (h : Holds m seq st) (hbs : m'.blockSize = m.blockSize)
    (hstate : m'.state seq.seqId = m.state seq.seqId)
    (hpriv : ∀ b ∈ seq.blockTable, m.allocator.refs b = 1 →
      m.allocator.indexed b = none →
      m'.allocator.refs b = 1 ∧ m'.allocator.indexed b = none) :
    Holds m' seq st where
  state_eq := hstate.trans h.state_eq
  hashes_eq := by rw [hbs]; exact h.hashes_eq
  published_le := by rw [hbs]; exact h.published_le
  published_le_table := h.published_le_table
  computed_le := h.computed_le
  covered := by rw [hbs]; exact h.covered
  priv k b hk hb := by
    obtain ⟨hrefs, hidx⟩ := h.priv k b hk hb
    exact hpriv b (List.mem_of_getElem? hb) hrefs hidx
  table_nodup := h.table_nodup

theorem ManagerInv.perm {m : BlockManager D} {L L' : List Sequence}
    (h : ManagerInv m L) (hp : L.Perm L') : ManagerInv m L' where
  blockSize_pos := h.blockSize_pos
  blockSize_eq := h.blockSize_eq
  pool := heldBlocks_perm hp ▸ h.pool
  ids_nodup := (hp.map _).nodup_iff.mp h.ids_nodup
  holds seq hseq := h.holds seq (hp.mem_iff.mpr hseq)
  absent i hi := h.absent i fun hi' => hi ((hp.map _).mem_iff.mp hi')

/-! ## §2  Exchanging one holder

Each operation of the manager adds, replaces or removes one holder. What the
other holders know survives as long as the operation keeps its hands off their
private blocks. -/

namespace ManagerInv

variable {m m' : BlockManager D} {i : SeqId} {old new : Option Sequence}
  {rest : List Sequence}

theorem rest_ne (_ : ManagerInv m (old.toList ++ rest))
    (hi : i ∉ rest.map (·.seqId)) {s : Sequence} (hs : s ∈ rest) : s.seqId ≠ i :=
  fun heq => hi (heq ▸ List.mem_map_of_mem hs)

variable (old) in
/-- A private block of one of the `rest` is counted there and nowhere else. -/
theorem count_of_private (h : ManagerInv m (old.toList ++ rest)) {b : BlockId}
    (hrefs : m.allocator.refs b = 1) (hb : b ∈ heldBlocks rest) :
    (heldBlocks rest).count b = 1 ∧ b ∉ heldBlocks old.toList := by
  have hcount := h.pool.refs_eq b
  have hsplit : heldBlocks (old.toList ++ rest) =
      heldBlocks old.toList + heldBlocks rest := by simp [heldBlocks]
  rw [hrefs, hsplit, Multiset.count_add] at hcount
  have hpos := Multiset.one_le_count_iff_mem.mpr hb
  exact ⟨by omega, Multiset.count_eq_zero.mp (by omega)⟩

variable (old new) in
theorem exchange (h : ManagerInv m (old.toList ++ rest)) (hframe : Frame m m' i)
    (hold : ∀ s ∈ old, s.seqId = i) (hnew : ∀ s ∈ new, s.seqId = i)
    (hi : i ∉ rest.map (·.seqId))
    (hpool : PoolInv m'.allocator (heldBlocks (new.toList ++ rest)))
    (hholds : ∀ s ∈ new, ∃ st, Holds m' s st)
    (hnone : new = none → m'.state i = none)
    (hpriv : ∀ b ∈ heldBlocks rest, m.allocator.refs b = 1 →
      m.allocator.indexed b = none →
      b ∉ heldBlocks new.toList ∧ m'.allocator.indexed b = none) :
    ManagerInv m' (new.toList ++ rest) where
  blockSize_pos := hframe.blockSize_eq ▸ h.blockSize_pos
  blockSize_eq := by
    rw [hframe.shape.blockSize_eq, hframe.blockSize_eq, h.blockSize_eq]
  pool := hpool
  ids_nodup := by
    have hrest : (rest.map (·.seqId)).Nodup := by
      have := h.ids_nodup
      rw [List.map_append] at this
      exact this.of_append_right
    cases new with
    | none => exact hrest
    | some s =>
        rw [Option.toList_some, List.singleton_append, List.map_cons,
          List.nodup_cons, hnew s rfl]
        exact ⟨hi, hrest⟩
  holds s hs := by
    rcases List.mem_append.mp hs with hs | hs
    · exact hholds s (Option.mem_toList.mp hs)
    · obtain ⟨st, hst⟩ := h.holds s (List.mem_append_right _ hs)
      refine ⟨st, hst.transfer hframe.blockSize_eq
        (hframe.state_eq _ (h.rest_ne hi hs)) ?_⟩
      intro b hb hrefs hidx
      have hheld : b ∈ heldBlocks rest := mem_heldBlocks.mpr ⟨s, hs, hb⟩
      obtain ⟨hnot, hidx'⟩ := hpriv b hheld hrefs hidx
      refine ⟨?_, hidx'⟩
      have hsplit : heldBlocks (new.toList ++ rest) =
          heldBlocks new.toList + heldBlocks rest := by simp [heldBlocks]
      rw [hpool.refs_eq, hsplit, Multiset.count_add,
        Multiset.count_eq_zero.mpr hnot, Nat.zero_add]
      exact (h.count_of_private old hrefs hheld).1
  absent j hj := by
    rw [List.map_append, List.mem_append, not_or] at hj
    by_cases hji : j = i
    · subst hji
      cases new with
      | none => exact hnone rfl
      | some s => exact absurd (by simp [hnew s rfl]) hj.1
    · rw [hframe.state_eq j hji]
      refine h.absent j ?_
      rw [List.map_append, List.mem_append, not_or]
      refine ⟨fun hmem => ?_, hj.2⟩
      obtain ⟨s, hs, hsj⟩ := List.mem_map.mp hmem
      exact hji (hsj.symm.trans (hold s (Option.mem_toList.mp hs)))

/-- The head of the list has an identity of its own. -/
theorem head_not_mem {seq : Sequence} (h : ManagerInv m (seq :: rest)) :
    seq.seqId ∉ rest.map (·.seqId) := by
  have hnd := h.ids_nodup
  rw [List.map_cons, List.nodup_cons] at hnd
  exact hnd.1

end ManagerInv

/-! ## §3  Publication -/

section Publish

variable {m : BlockManager D} {seq : Sequence} {rest : List Sequence}
  {st : SeqBlocks D}

omit [BlockDigest D] in
theorem indexed_of_recycler {a : BlockAllocator (PrefixCache D)} {c : PrefixCache D}
    (hr : a.recycler = some c) (b : BlockId) : a.indexed b = c.byBlock b := by
  simp [BlockAllocator.indexed, hr]

/-- An element at two positions of a list is counted twice. -/
theorem two_le_count_of_getElem? {l : List BlockId} {b : BlockId} {i j : ℕ}
    (hij : i < j) (hi : l[i]? = some b) (hj : l[j]? = some b) : 2 ≤ l.count b := by
  obtain ⟨hi', hbi⟩ := List.getElem?_eq_some_iff.mp hi
  obtain ⟨hj', hbj⟩ := List.getElem?_eq_some_iff.mp hj
  rw [← List.duplicate_iff_two_le_count]
  exact List.duplicate_iff_exists_distinct_get.mpr
    ⟨⟨i, hi'⟩, ⟨j, hj'⟩, hij, hbi.symm, hbj.symm⟩

/-- The parent digest `publish` reads off the end of the sequence's chain. -/
theorem Holds.parent_eq (h : Holds m seq st) :
    st.hashes.getLast?.getD BlockDigest.rootHash =
      chainHash D seq.tokenIds m.blockSize seq.loraId st.numPublished := by
  rw [h.hashes_eq]
  cases st.numPublished with
  | zero => rfl
  | succ n => simp [List.range_succ]

theorem Holds.length_hashes (h : Holds m seq st) :
    st.hashes.length = st.numPublished := by
  rw [h.hashes_eq]
  simp

/-- One round of the inner loop: the next digest of the sequence's own chain. -/
theorem Holds.extendHashes_ok (h : Holds m seq st)
    (hfull : (st.numPublished + 1) * m.blockSize ≤ seq.numTokens) :
    BlockManager.extendHashes seq m.blockSize st.hashes
        (st.numPublished + 1 - st.hashes.length) =
      .ok (st.hashes ++ [chainHash D seq.tokenIds m.blockSize seq.loraId
        (st.numPublished + 1)]) := by
  rw [h.length_hashes, Nat.add_sub_cancel_left]
  simp only [BlockManager.extendHashes, h.length_hashes, h.parent_eq,
    Sequence.blockTokens_ok hfull, bind, Except.bind]
  rfl

/-- What publication adds to the index: full computed blocks of this sequence,
each under its own chain digest. -/
def Published (m : BlockManager D) (seq : Sequence) (b : BlockId) (d : D) : Prop :=
  ∃ k, (k + 1) * m.blockSize ≤ seq.numComputedTokens ∧
    seq.blockTable[k]? = some b ∧
    d = chainHash D seq.tokenIds m.blockSize seq.loraId (k + 1)

/-- The manager with a new cache and new bookkeeping for one sequence. -/
def BlockManager.record (m : BlockManager D) (c : PrefixCache D) (i : SeqId)
    (st : SeqBlocks D) : BlockManager D :=
  { m.setCache c with state := Function.update m.state i (some st) }

/-- The bookkeeping after one more block has been published. -/
def nextPublished (m : BlockManager D) (seq : Sequence) (st : SeqBlocks D) :
    SeqBlocks D where
  hashes := st.hashes ++
    [chainHash D seq.tokenIds m.blockSize seq.loraId (st.numPublished + 1)]
  numPublished := st.numPublished + 1

@[simp] theorem numPublished_nextPublished :
    (nextPublished m seq st).numPublished = st.numPublished + 1 := rfl

omit [BlockDigest D] in
theorem record_record (c c' : PrefixCache D) (i : SeqId) (st st' : SeqBlocks D) :
    (m.record c i st).record c' i st' = m.record c' i st' := by
  simp [BlockManager.record, BlockManager.setCache]

variable [DecidableEq D]

/-- Publishing the first private block. -/
theorem publish_one (h : ManagerInv m (seq :: rest)) {c : PrefixCache D}
    (hr : m.allocator.recycler = some c) (hst : Holds m seq st)
    (hfull : (st.numPublished + 1) * m.blockSize ≤ seq.numComputedTokens)
    {b : BlockId} (hb : seq.blockTable[st.numPublished]? = some b) :
    ∃ r, c.insert b (chainHash D seq.tokenIds m.blockSize seq.loraId
          (st.numPublished + 1)) = .ok r ∧
      ManagerInv (m.record r.2 seq.seqId (nextPublished m seq st)) (seq :: rest) ∧
      Frame m (m.record r.2 seq.seqId (nextPublished m seq st)) seq.seqId ∧
      Holds (m.record r.2 seq.seqId (nextPublished m seq st)) seq
        (nextPublished m seq st) ∧
      (∀ x e, r.2.byBlock x = some e →
        m.allocator.indexed x = some e ∨ Published m seq x e) := by
  obtain ⟨hrefs, hidx⟩ := hst.priv _ b le_rfl hb
  rw [indexed_of_recycler hr] at hidx
  have hbt : b ∈ seq.blockTable := List.mem_of_getElem? hb
  have hheld : b ∈ heldBlocks (seq :: rest) :=
    mem_heldBlocks.mpr ⟨seq, List.mem_cons_self, hbt⟩
  obtain ⟨r, hok, hpool, hshape, hgain⟩ := insert_spec h.pool hr hheld hidx
    (chainHash D seq.tokenIds m.blockSize seq.loraId (st.numPublished + 1))
  have hframe : Frame m (m.record r.2 seq.seqId (nextPublished m seq st)) seq.seqId :=
    ⟨rfl, hshape, fun j hj => by simp [BlockManager.record, hj]⟩
  -- only `b` can have gained an entry
  have hother : ∀ x, x ≠ b → m.allocator.indexed x = none →
      r.2.byBlock x = none := by
    intro x hx hnone
    rw [indexed_of_recycler hr] at hnone
    cases hbx : r.2.byBlock x with
    | none => rfl
    | some e =>
        rcases hgain x e hbx with hold | ⟨hxb, -⟩
        · rw [hnone] at hold
          cases hold
        · exact absurd hxb hx
  have hholds : Holds (m.record r.2 seq.seqId (nextPublished m seq st)) seq
      (nextPublished m seq st) :=
    { state_eq := by simp [BlockManager.record]
      hashes_eq := by
        rw [nextPublished, List.range_succ, List.map_append, hst.hashes_eq]
        rfl
      published_le := hfull
      published_le_table := (List.getElem?_eq_some_iff.mp hb).1
      computed_le := hst.computed_le
      covered := hst.covered
      priv := by
        intro k x hk hx
        obtain ⟨hxrefs, hxidx⟩ := hst.priv k x (Nat.le_of_succ_le hk) hx
        refine ⟨hxrefs, hother x ?_ hxidx⟩
        -- `b` is private, so it occurs once in the table, before position `k`
        rintro rfl
        have hcount := h.pool.refs_eq x
        rw [hxrefs, heldBlocks_cons, Multiset.count_add, Multiset.coe_count] at hcount
        have htwo : 2 ≤ seq.blockTable.count x := two_le_count_of_getElem? hk hb hx
        omega
      table_nodup := hst.table_nodup }
  refine ⟨r, hok, ?_, hframe, hholds, ?_⟩
  · refine ManagerInv.exchange (some seq) (some seq) h hframe
      (by simp) (by simp) h.head_not_mem hpool ?_ (by simp) ?_
    · intro s hs
      obtain rfl := Option.mem_some_iff.mp hs
      exact ⟨_, hholds⟩
    · intro x hx hxrefs hxidx
      have hnot : x ∉ heldBlocks [seq] :=
        (ManagerInv.count_of_private (some seq) h hxrefs hx).2
      refine ⟨hnot, hother x ?_ hxidx⟩
      rintro rfl
      exact hnot (mem_heldBlocks.mpr ⟨seq, List.mem_singleton.mpr rfl, hbt⟩)
  · intro x e hx
    rcases hgain x e hx with hold | ⟨rfl, rfl⟩
    · exact Or.inl (by rwa [indexed_of_recycler hr])
    · exact Or.inr ⟨st.numPublished, hfull, hb, rfl⟩

/-- The outer loop publishes every block it is asked to. -/
theorem publishLoop_spec (n : ℕ) (h : ManagerInv m (seq :: rest)) {c : PrefixCache D}
    (hr : m.allocator.recycler = some c) (hst : Holds m seq st)
    (hfull : (st.numPublished + n) * m.blockSize ≤ seq.numComputedTokens)
    (htable : st.numPublished + n ≤ seq.blockTable.length) (k : ℕ) :
    ∃ out, BlockManager.publishLoop seq m.blockSize c st k n = .ok out ∧
      out.2.2.numPublished = st.numPublished + n ∧
      ManagerInv (m.record out.2.1 seq.seqId out.2.2) (seq :: rest) ∧
      Frame m (m.record out.2.1 seq.seqId out.2.2) seq.seqId ∧
      Holds (m.record out.2.1 seq.seqId out.2.2) seq out.2.2 ∧
      (∀ x e, out.2.1.byBlock x = some e →
        m.allocator.indexed x = some e ∨ Published m seq x e) := by
  induction n generalizing m c st k with
  | zero =>
      have hself : m.record c seq.seqId st = m := by
        have hstate : Function.update m.state seq.seqId (some st) = m.state := by
          rw [← hst.state_eq]
          exact Function.update_eq_self _ _
        simp only [BlockManager.record, BlockManager.setCache, hstate, ← hr]
      refine ⟨(k, c, st), rfl, rfl, ?_, ?_, ?_, ?_⟩
      · exact hself.symm ▸ h
      · exact hself.symm ▸ Frame.refl m _
      · exact hself.symm ▸ hst
      · exact fun x e hx => Or.inl (by rwa [indexed_of_recycler hr])
  | succ n ih =>
      have hpub : st.numPublished < seq.blockTable.length := by omega
      have hfull₁ : (st.numPublished + 1) * m.blockSize ≤ seq.numComputedTokens :=
        (Nat.mul_le_mul_right _ (by omega)).trans hfull
      obtain ⟨b, hb⟩ : ∃ b, seq.blockTable[st.numPublished]? = some b :=
        ⟨_, List.getElem?_eq_getElem hpub⟩
      obtain ⟨r, hins, hinv₁, hframe₁, hst₁, hgain₁⟩ := publish_one h hr hst hfull₁ hb
      have hext := hst.extendHashes_ok (hfull₁.trans hst.computed_le)
      obtain ⟨out, hout, hnum, hinv, hframe, hst', hgain⟩ :=
        ih hinv₁ rfl hst₁
          (by
            show (st.numPublished + 1 + n) * m.blockSize ≤ _
            rwa [Nat.add_right_comm, Nat.add_assoc])
          (by
            show st.numPublished + 1 + n ≤ _
            omega)
          (if r.1 then k + 1 else k)
      rw [record_record] at hinv hframe hst'
      have hlen : (st.hashes ++ [chainHash D seq.tokenIds m.blockSize seq.loraId
          (st.numPublished + 1)])[st.numPublished]? =
          some (chainHash D seq.tokenIds m.blockSize seq.loraId
            (st.numPublished + 1)) := by
        rw [List.getElem?_append_right hst.length_hashes.le, hst.length_hashes,
          Nat.sub_self]
        rfl
      refine ⟨out, ?_, ?_, hinv, hframe₁.trans hframe, hst', ?_⟩
      · simp only [BlockManager.publishLoop, hext, bind, Except.bind, hb, hlen, hins]
        exact hout
      · rw [hnum, numPublished_nextPublished]
        omega
      · intro x e hx
        rcases hgain x e hx with hold | hnew
        · exact hgain₁ x e hold
        · exact Or.inr hnew

/-- `publish_computed_blocks` never fails, leaves the references alone, and
only adds entries for full computed blocks of the sequence. -/
theorem publish_spec (h : ManagerInv m (seq :: rest)) :
    ∃ k m', m.publishComputedBlocks seq = .ok (k, m') ∧
      ManagerInv m' (seq :: rest) ∧ Frame m m' seq.seqId ∧
      (∃ st st', Holds m seq st ∧ Holds m' seq st' ∧
        (m.allocator.recycler.isSome → st'.numPublished = max st.numPublished
          (min (seq.numComputedTokens / m.blockSize) seq.blockTable.length)) ∧
        (m.allocator.recycler = none → st' = st)) ∧
      m'.allocator.refs = m.allocator.refs ∧
      m'.allocator.numAllocatable = m.allocator.numAllocatable ∧
      (∀ x e, m'.allocator.indexed x = some e →
        m.allocator.indexed x = some e ∨ Published m seq x e) := by
  obtain ⟨st, hst⟩ := h.holds seq List.mem_cons_self
  rcases Option.eq_none_or_eq_some m.allocator.recycler with hr | ⟨c, hr⟩
  · refine ⟨0, m, ?_, h, .refl m _, ⟨st, st, hst, hst, by simp [hr], by simp⟩, rfl, rfl,
      fun _ _ => Or.inl⟩
    simp [BlockManager.publishComputedBlocks, BlockManager.prefixCache, hr]
  · have hpos := h.blockSize_pos
    have hdiv := Nat.div_mul_le_self seq.numComputedTokens m.blockSize
    generalize hfull :
      min (seq.numComputedTokens / m.blockSize) seq.blockTable.length = full
    have hlast : (st.numPublished + (full - st.numPublished)) * m.blockSize ≤
        seq.numComputedTokens := by
      rcases Nat.le_total full st.numPublished with hle | hle
      · rw [Nat.sub_eq_zero_of_le hle]
        exact hst.published_le
      · rw [Nat.add_sub_of_le hle]
        exact (Nat.mul_le_mul_right _ (hfull ▸ Nat.min_le_left _ _)).trans hdiv
    have htable : st.numPublished + (full - st.numPublished) ≤
        seq.blockTable.length := by
      have := hst.published_le_table
      omega
    obtain ⟨out, hout, hnum, hinv, hframe, hst', hgain⟩ :=
      publishLoop_spec (full - st.numPublished) h hr hst hlast htable 0
    refine ⟨out.1, m.record out.2.1 seq.seqId out.2.2, ?_, hinv, hframe,
      ⟨st, out.2.2, hst, hst', fun _ => by omega, by simp [hr]⟩, rfl, rfl, hgain⟩
    simp only [BlockManager.publishComputedBlocks, BlockManager.prefixCache, hr,
      hst.state_eq, hfull, hout, bind, Except.bind]
    rfl

end Publish

end TurboServe.Core
