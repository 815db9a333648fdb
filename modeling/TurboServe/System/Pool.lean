import TurboServe.Lib.Transition
import TurboServe.Invariants.Admission

/-!
# Runs of the block manager

The block manager with the sequences that hold its blocks, as a transition system: any
sequence may be given its cached prefix, take blocks one at a time (as `append_slots`
does, which may run out half way), be computed within what it holds, grow by a token,
be rolled back to what is published, publish, or give everything back. `ManagerInv` is
an invariant of it.
-/

namespace TurboServe.Core

variable {D : Type} [BlockDigest D] [DecidableEq D]

/-! ## §1  Operations -/

/-- `seq'` is `seq` without some of its last tokens and some of its last progress, but
with all that is published. -/
structure RolledBack (m : BlockManager D) (seq seq' : Sequence) : Prop where
  seq_eq : seq' = { seq with
    outputTokenIds := seq'.outputTokenIds, numComputedTokens := seq'.numComputedTokens }
  output_prefix : seq'.outputTokenIds <+: seq.outputTokenIds
  computed_le : seq'.numComputedTokens ≤ seq.numComputedTokens
  computed_tokens : seq'.numComputedTokens ≤ seq'.numTokens
  published_le : ∀ st, m.state seq.seqId = some st →
    st.numPublished * m.blockSize ≤ seq'.numComputedTokens

/-- One step of the manager and the sequences holding its blocks. -/
inductive PoolStep : BlockManager D × List Sequence → BlockManager D × List Sequence →
    Prop where
  | allocate {m m' : BlockManager D} {L : List Sequence} {seq seq' : Sequence} {n : ℕ}
      (hnew : seq.seqId ∉ L.map (·.seqId)) (hempty : seq.blockTable = [])
      (hok : m.allocate seq = .ok (n, m', seq')) : PoolStep (m, L) (m', seq' :: L)
  | take {m : BlockManager D} {L : List Sequence} {seq : Sequence} {b : BlockId}
      {a : BlockAllocator (PrefixCache D)} (hok : m.allocator.allocate = .ok (b, a)) :
      PoolStep (m, seq :: L) ({ m with allocator := a },
        { seq with blockTable := seq.blockTable ++ [b] } :: L)
  | advance {m : BlockManager D} {L : List Sequence} {seq : Sequence} (n : ℕ)
      (hn : seq.numComputedTokens + n ≤ seq.numTokens)
      (hcov : seq.numComputedTokens + n ≤ seq.blockTable.length * m.blockSize) :
      PoolStep (m, seq :: L) (m, advanced seq n :: L)
  | appendToken {m : BlockManager D} {L : List Sequence} {seq : Sequence} (tok : TokenId) :
      PoolStep (m, seq :: L)
        (m, { seq with outputTokenIds := seq.outputTokenIds ++ [tok] } :: L)
  | rollback {m : BlockManager D} {L : List Sequence} {seq seq' : Sequence}
      (h : RolledBack m seq seq') : PoolStep (m, seq :: L) (m, seq' :: L)
  | publish {m m' : BlockManager D} {L : List Sequence} {seq : Sequence} {k : ℕ}
      (hok : m.publishComputedBlocks seq = .ok (k, m')) :
      PoolStep (m, seq :: L) (m', seq :: L)
  | free {m m' : BlockManager D} {L : List Sequence} {seq seq' : Sequence}
      (hok : m.free seq = .ok (m', seq')) : PoolStep (m, seq :: L) (m', L)
  | reset {m : BlockManager D} {L : List Sequence} : PoolStep (m, L) (m.reset, [])
  | reorder {m : BlockManager D} {L L' : List Sequence} (h : L.Perm L') :
      PoolStep (m, L) (m, L')

/-- The block manager under its interface, from an empty pool. -/
def pooling (D : Type) [BlockDigest D] [DecidableEq D] :
    Lib.TransitionSystem (BlockManager D × List Sequence) where
  init x := ∃ numBlocks blockSize caching, 0 < blockSize ∧
    x = (BlockManager.create D numBlocks blockSize caching, [])
  step := PoolStep

/-- A manager some run leads to, `L` being the sequences that hold its blocks. -/
abbrev PoolReachable (m : BlockManager D) (L : List Sequence) : Prop :=
  (pooling D).Reachable (m, L)

/-! ## §2  The invariant along a run -/

theorem ManagerInv.take {m : BlockManager D} {L : List Sequence} {seq : Sequence}
    {b : BlockId} {a : BlockAllocator (PrefixCache D)} (h : ManagerInv m (seq :: L))
    (hok : m.allocator.allocate = .ok (b, a)) :
    ManagerInv { m with allocator := a }
      ({ seq with blockTable := seq.blockTable ++ [b] } :: L) := by
  have hpos : 0 < m.allocator.numAllocatable := by
    by_contra hzero
    rw [allocate_fails (Nat.eq_zero_of_not_pos hzero)] at hok
    cases hok
  obtain ⟨b', a', hok', hpool, hshape, hnew, hidx, -, hsub⟩ := allocate_spec h.pool hpos
  rw [hok] at hok'
  cases hok'
  have htook : TookBlocks m { m with allocator := a } (heldBlocks (seq :: L)) [b] :=
    { nodup := List.nodup_singleton b
      not_held := fun x hx => by rw [List.mem_singleton.mp hx]; exact hnew
      unindexed := fun x hx => by rw [List.mem_singleton.mp hx]; exact hidx
      pool := hpool
      shape := hshape
      state_eq := rfl
      blockSize_eq := rfl
      indexed_of := hsub }
  exact htook.managerInv h

omit [DecidableEq D] in
/-- Published blocks cover tokens a rollback keeps, so their digests stay. -/
theorem ManagerInv.rollback {m : BlockManager D} {L : List Sequence}
    {seq seq' : Sequence} (h : ManagerInv m (seq :: L)) (hr : RolledBack m seq seq') :
    ManagerInv m (seq' :: L) := by
  have hseq := hr.seq_eq
  have hid : seq'.seqId = seq.seqId := by rw [hseq]
  have htable : seq'.blockTable = seq.blockTable := by rw [hseq]
  have hlora : seq'.loraId = seq.loraId := by rw [hseq]
  have hprompt : seq'.promptTokenIds = seq.promptTokenIds := by rw [hseq]
  have htoks : seq'.tokenIds <+: seq.tokenIds := by
    unfold Sequence.tokenIds
    rw [hprompt]
    exact (List.prefix_append_right_inj _).mpr hr.output_prefix
  refine
    { h with
      pool := by rw [heldBlocks_cons, htable, ← heldBlocks_cons]; exact h.pool
      ids_nodup := by rw [List.map_cons, hid, ← List.map_cons]; exact h.ids_nodup
      holds := ?_
      absent := fun i hi => h.absent i (by rwa [List.map_cons, hid, ← List.map_cons] at hi) }
  intro s hs
  rcases List.mem_cons.mp hs with rfl | hs
  · obtain ⟨st, hst⟩ := h.holds seq List.mem_cons_self
    have hpub := hr.published_le st hst.state_eq
    refine ⟨st,
      { state_eq := by rw [hid]; exact hst.state_eq
        hashes_eq := ?_
        published_le := hpub
        published_le_table := by rw [htable]; exact hst.published_le_table
        computed_le := hr.computed_tokens
        covered := by rw [htable]; exact hr.computed_le.trans hst.covered
        priv := by rw [htable]; exact hst.priv
        table_nodup := by rw [htable]; exact hst.table_nodup }⟩
    rw [hst.hashes_eq, hlora]
    apply List.map_congr_left
    intro k hk
    obtain ⟨more, hmore⟩ := htoks
    rw [← hmore]
    apply chainHash_append
    have hle := Nat.mul_le_mul_right m.blockSize (List.mem_range.mp hk)
    rw [Sequence.length_tokenIds]
    exact (hle.trans hpub).trans hr.computed_tokens
  · exact h.holds s (List.mem_cons_of_mem _ hs)

theorem PoolStep.managerInv {x y : BlockManager D × List Sequence} (hs : PoolStep x y)
    (h : ManagerInv x.1 x.2) : ManagerInv y.1 y.2 := by
  cases hs with
  | allocate hnew hempty hok =>
      obtain ⟨n, m', seq', hok', hinv, -⟩ := allocate_seq_spec h hnew hempty
      rw [hok] at hok'
      cases hok'
      exact hinv
  | take hok => exact h.take hok
  | advance n hn hcov => exact h.advance hn hcov
  | appendToken tok => exact h.append_token
  | rollback hr => exact h.rollback hr
  | publish hok =>
      obtain ⟨k, m', hok', hinv, -⟩ := publish_spec h
      rw [hok] at hok'
      cases hok'
      exact hinv
  | free hok =>
      obtain ⟨m', hok', hinv, -⟩ := free_spec h
      rw [hok] at hok'
      cases hok'
      exact hinv
  | reset => exact reset_managerInv h
  | reorder hp => exact h.perm hp

theorem PoolReachable.managerInv {m : BlockManager D} {L : List Sequence}
    (h : PoolReachable m L) : ManagerInv m L := by
  have hinv : (pooling D).Invariant fun x => ManagerInv x.1 x.2 := by
    refine ⟨?_, fun x y _ hx hs => hs.managerInv hx⟩
    rintro x ⟨numBlocks, blockSize, caching, hpos, rfl⟩
    exact create_managerInv hpos caching
  exact hinv.reachable h

end TurboServe.Core
