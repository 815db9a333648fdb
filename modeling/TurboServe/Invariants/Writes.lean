import TurboServe.Invariants.Schedule

/-!
# The slots a batch writes

Every position a batch computes lies in a private block of its own sequence.
From that come both halves of write safety: slots of one batch are distinct,
and a write never reaches a block that anybody else, or the prefix index, can
see.
-/

namespace TurboServe.Core

variable {D W : Type} [BlockDigest D] [VirtualTime W]
variable {s : Scheduler D W} {acc : StepAcc} {item : ScheduledSeq}

theorem mem_positions {p : ℕ} :
    p ∈ item.positions ↔ item.start ≤ p ∧ p < item.contextLen := by
  have := item.le_contextLen
  rw [ScheduledSeq.positions, List.mem_range'_1, ScheduledSeq.start]
  omega

/-! ## §1  Places -/

/-- The slots of an entry are those its sequence's own table gives its positions, past
everything published. -/
structure Placed (s : Scheduler D W) (item : ScheduledSeq) : Prop where
  running : item.seq ∈ s.running
  context_le : item.contextLen ≤ (s.seqs item.seq).numComputedTokens
  slots_eq : item.slotMapping = item.positions.map
    (slotAt s.blockManager.blockSize (s.seqs item.seq).blockTable)
  published : ∃ st, s.blockManager.state item.seq = some st ∧
    st.numPublished * s.blockManager.blockSize ≤ item.start

omit [BlockDigest D] in
theorem EntryOk.placed (hok : EntryOk s item) : Placed s item where
  running := hok.running
  context_le := hok.context_eq.le
  slots_eq := by
    rw [← hok.table_eq]
    exact hok.slots_eq
  published := hok.published

/-- What the manager knows of a scheduled sequence. -/
theorem Placed.holds (h : Inv s) (hok : Placed s item) :
    ∃ st, Holds s.blockManager (s.seqs item.seq) st ∧
      st.numPublished * s.blockManager.blockSize ≤ item.start := by
  obtain ⟨st, hstate, hpub⟩ := hok.published
  obtain ⟨st', hst'⟩ := h.manager.holds _ (List.mem_map_of_mem hok.running)
  have hstate' := hst'.state_eq
  rw [h.id_of_running hok.running, hstate] at hstate'
  obtain rfl := Option.some.inj hstate'
  exact ⟨st, hst', hpub⟩

/-- A running sequence's table covers what it computed, and the slot of a position is
in the block the table names. -/
theorem Inv.slot (h : Inv s) {i : SeqId} (hi : i ∈ s.running) {p : ℕ}
    (hp : p < (s.seqs i).numComputedTokens) :
    ∃ b, (s.seqs i).blockTable[p / s.blockManager.blockSize]? = some b ∧
      slotAt s.blockManager.blockSize (s.seqs i).blockTable p =
        b * s.blockManager.blockSize + p % s.blockManager.blockSize := by
  obtain ⟨st, hst⟩ := h.manager.holds _ (List.mem_map_of_mem hi)
  have hcov := hst.covered
  have hlt : p / s.blockManager.blockSize < (s.seqs i).blockTable.length := by
    rw [Nat.div_lt_iff_lt_mul h.manager.blockSize_pos]
    omega
  refine ⟨_, List.getElem?_eq_getElem hlt, ?_⟩
  rw [slotAt, List.getElem?_eq_getElem hlt, Option.getD_some]

theorem EntryOk.slot (h : Inv s) (hok : EntryOk s item) {p : ℕ}
    (hp : p < item.contextLen) :
    ∃ b, item.blockTable[p / s.blockManager.blockSize]? = some b ∧
      slotAt s.blockManager.blockSize item.blockTable p =
        b * s.blockManager.blockSize + p % s.blockManager.blockSize := by
  rw [hok.table_eq]
  exact h.slot hok.running (hok.context_eq ▸ hp)

/-- The block of a written position is private. -/
theorem Placed.written (h : Inv s) (hok : Placed s item) {p : ℕ} (hp : item.start ≤ p)
    {b : BlockId}
    (hb : (s.seqs item.seq).blockTable[p / s.blockManager.blockSize]? = some b) :
    s.blockManager.allocator.refs b = 1 ∧
      s.blockManager.allocator.indexed b = none := by
  obtain ⟨st, hst, hpub⟩ := hok.holds h
  refine hst.priv _ b ?_ hb
  rw [Nat.le_div_iff_mul_le h.manager.blockSize_pos]
  exact hpub.trans hp

theorem EntryOk.written (h : Inv s) (hok : EntryOk s item) {p : ℕ}
    (hp : p ∈ item.positions) {b : BlockId}
    (hb : item.blockTable[p / s.blockManager.blockSize]? = some b) :
    s.blockManager.allocator.refs b = 1 ∧
      s.blockManager.allocator.indexed b = none :=
  hok.placed.written h (mem_positions.mp hp).1 (hok.table_eq ▸ hb)

/-- A block with one reference is in one place of one running table. -/
theorem Inv.unique_place (h : Inv s) {b : BlockId} {i j : SeqId} {k k' : ℕ}
    (hrefs : s.blockManager.allocator.refs b = 1) (hi : i ∈ s.running)
    (hj : j ∈ s.running) (hk : (s.seqs i).blockTable[k]? = some b)
    (hk' : (s.seqs j).blockTable[k']? = some b) : i = j ∧ k = k' := by
  have hhead := h.manager_head hi
  have hcount := hhead.pool.refs_eq b
  rw [hrefs, heldBlocks_cons, Multiset.count_add, Multiset.coe_count] at hcount
  have hpos : 1 ≤ (s.seqs i).blockTable.count b :=
    List.one_le_count_iff.mpr (List.mem_of_getElem? hk)
  by_cases hij : j = i
  · subst hij
    refine ⟨rfl, ?_⟩
    rcases lt_trichotomy k k' with hlt | heq | hgt
    · have := two_le_count_of_getElem? hlt hk hk'
      omega
    · exact heq
    · have := two_le_count_of_getElem? hgt hk' hk
      omega
  · have hmem : b ∈ heldBlocks ((s.running.erase i).map s.seqs) :=
      mem_heldBlocks.mpr ⟨s.seqs j,
        List.mem_map_of_mem (h.running_nodup.mem_erase_iff.mpr ⟨hij, hj⟩),
        List.mem_of_getElem? hk'⟩
    have := Multiset.one_le_count_iff_mem.mpr hmem
    omega

/-- Equal slots name the same block at the same offset. -/
theorem slot_inj {bs b b' o o' : ℕ} (ho : o < bs) (ho' : o' < bs)
    (h : b * bs + o = b' * bs + o') : b = b' ∧ o = o' := by
  have hpos : 0 < bs := Nat.lt_of_le_of_lt (Nat.zero_le o) ho
  have hdiv : ∀ x y, y < bs → (x * bs + y) / bs = x := by
    intro x y hy
    rw [Nat.add_comm, Nat.add_mul_div_right _ _ hpos, Nat.div_eq_of_lt hy, Nat.zero_add]
  have hb : b = b' := by rw [← hdiv b o ho, h, hdiv b' o' ho']
  subst hb
  exact ⟨rfl, Nat.add_left_cancel h⟩

/-! ## §2  No slot is written twice -/

/-- A written slot is written for one position of one sequence. -/
theorem Placed.inj (h : Inv s) (hok : Placed s item) {p p' : ℕ} (hp : p ∈ item.positions)
    {j : SeqId} (hj : j ∈ s.running) (hp' : p' < (s.seqs j).numComputedTokens)
    (heq : slotAt s.blockManager.blockSize (s.seqs item.seq).blockTable p =
      slotAt s.blockManager.blockSize (s.seqs j).blockTable p') :
    item.seq = j ∧ p = p' := by
  have hpos := h.manager.blockSize_pos
  obtain ⟨hstart, hcontext⟩ := mem_positions.mp hp
  obtain ⟨b, hb, hslot⟩ := h.slot hok.running (hcontext.trans_le hok.context_le)
  obtain ⟨b', hb', hslot'⟩ := h.slot hj hp'
  rw [hslot, hslot'] at heq
  obtain ⟨rfl, hoff⟩ := slot_inj (Nat.mod_lt _ hpos) (Nat.mod_lt _ hpos) heq
  obtain ⟨hseq, hk⟩ := h.unique_place (hok.written h hstart hb).1 hok.running hj hb hb'
  refine ⟨hseq, ?_⟩
  rw [← Nat.div_add_mod p s.blockManager.blockSize, hk, hoff, Nat.div_add_mod]

theorem written_inj (h : Inv s) {item' : ScheduledSeq} (hok : EntryOk s item)
    (hok' : EntryOk s item') {p p' : ℕ} (hp : p ∈ item.positions)
    (hp' : p' < item'.contextLen)
    (heq : slotAt s.blockManager.blockSize item.blockTable p =
      slotAt s.blockManager.blockSize item'.blockTable p') :
    item.seq = item'.seq ∧ p = p' := by
  rw [hok.table_eq, hok'.table_eq] at heq
  exact hok.placed.inj h hp hok'.running (hok'.context_eq ▸ hp') heq

/-- No slot is written twice by entries of different sequences. -/
theorem placed_nodup (h : Inv s) {items : List ScheduledSeq}
    (hitems : ∀ item ∈ items, Placed s item) (hnd : (items.map (·.seq)).Nodup) :
    (items.flatMap (·.slotMapping)).Nodup := by
  have hseqs : items.Pairwise fun x y => x.seq ≠ y.seq := List.pairwise_map.mp hnd
  rw [List.nodup_flatMap]
  constructor
  · intro x hx
    have hok := hitems x hx
    rw [hok.slots_eq]
    refine List.Nodup.map_on (fun p hp p' hp' heq => ?_) List.nodup_range'
    have hlt := (mem_positions.mp hp').2.trans_le hok.context_le
    exact (hok.inj h hp hok.running hlt heq).2
  · refine hseqs.imp_of_mem fun {x y} hx hy hne => ?_
    have hokx := hitems x hx
    have hoky := hitems y hy
    intro slot hsx hsy
    simp only at hsx hsy
    rw [hokx.slots_eq] at hsx
    rw [hoky.slots_eq] at hsy
    obtain ⟨p, hp, rfl⟩ := List.mem_map.mp hsx
    obtain ⟨p', hp', heq⟩ := List.mem_map.mp hsy
    have hlt := (mem_positions.mp hp').2.trans_le hoky.context_le
    exact hne (hokx.inj h hp hoky.running hlt heq.symm).1

/-- No slot is written twice by one batch. -/
theorem StepInv.slots_nodup (h : StepInv s acc) :
    (acc.entries.flatMap (·.slotMapping)).Nodup :=
  placed_nodup h.inv (fun x hx => (h.entries x hx).placed)
    (h.ids.nodup_iff.mpr h.nodup)

/-! ## §3  Which slots are written -/

omit [BlockDigest D] in
theorem mem_slots {items : List ScheduledSeq} (hitems : ∀ item ∈ items, Placed s item)
    {slot : Slot} : slot ∈ items.flatMap (·.slotMapping) ↔
      ∃ item ∈ items, ∃ p ∈ item.positions,
        slot = slotAt s.blockManager.blockSize (s.seqs item.seq).blockTable p := by
  rw [List.mem_flatMap]
  constructor
  · rintro ⟨item, hitem, hslot⟩
    rw [(hitems item hitem).slots_eq] at hslot
    obtain ⟨p, hp, rfl⟩ := List.mem_map.mp hslot
    exact ⟨item, hitem, p, hp, rfl⟩
  · rintro ⟨item, hitem, p, hp, rfl⟩
    refine ⟨item, hitem, ?_⟩
    rw [(hitems item hitem).slots_eq]
    exact List.mem_map_of_mem hp

/-- The slot of a computed position that no entry computes is not written. -/
theorem not_mem_slots (h : Inv s) {items : List ScheduledSeq}
    (hitems : ∀ item ∈ items, Placed s item) {i : SeqId} (hi : i ∈ s.running) {p : ℕ}
    (hp : p < (s.seqs i).numComputedTokens)
    (hnot : ∀ item ∈ items, item.seq = i → p ∉ item.positions) :
    slotAt s.blockManager.blockSize (s.seqs i).blockTable p ∉
      items.flatMap (·.slotMapping) := by
  rw [mem_slots hitems]
  rintro ⟨item, hitem, q, hq, heq⟩
  obtain ⟨hseq, rfl⟩ := (hitems item hitem).inj h hq hi hp heq.symm
  exact hnot item hitem hseq hq

/-- No slot of an indexed block is written. -/
theorem indexed_not_mem_slots (h : Inv s) {items : List ScheduledSeq}
    (hitems : ∀ item ∈ items, Placed s item) {b : BlockId} {d : D}
    (hb : s.blockManager.allocator.indexed b = some d) {o : ℕ}
    (ho : o < s.blockManager.blockSize) :
    b * s.blockManager.blockSize + o ∉ items.flatMap (·.slotMapping) := by
  rw [mem_slots hitems]
  rintro ⟨item, hitem, p, hp, heq⟩
  have hok := hitems item hitem
  obtain ⟨hstart, hcontext⟩ := mem_positions.mp hp
  obtain ⟨b', hb', hslot⟩ := h.slot hok.running (hcontext.trans_le hok.context_le)
  rw [hslot] at heq
  obtain ⟨rfl, -⟩ := slot_inj ho (Nat.mod_lt _ h.manager.blockSize_pos) heq
  have hnone := (hok.written h hstart hb').2
  rw [hb] at hnone
  cases hnone

end TurboServe.Core
