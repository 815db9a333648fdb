import TurboServe.Lib.Memory
import TurboServe.Invariants.Writes
import TurboServe.System.Runs

/-!
# What the KV pool holds

The KV pool as a memory from slots to the token prefix and adapter whose KV was
last written there. `schedule()` only plans the writes of its batch; the forward
pass makes them. `Contents` is stated of the memory *with* the planned writes,
so that it holds between the two as well: a sequence retired before its last
step ran publishes blocks that are still to be written.
-/

namespace TurboServe.Core

/-! ## §1  Values and writes -/

/-- The tokens up to and including a position, and the adapter. -/
abbrev Kv : Type := List TokenId × ℤ

/-- The KV of position `p` of a sequence. -/
def kvAt (seq : Sequence) (p : ℕ) : Kv := (seq.tokenIds.take (p + 1), seq.loraId)

/-- The writes of one batch entry: one value for each of its new tokens. -/
def entryWrites (seqs : SeqId → Sequence) (item : ScheduledSeq) : List (Slot × Kv) :=
  (item.slotMapping.zip item.positions).map fun w => (w.1, kvAt (seqs item.seq) w.2)

/-- The writes of a batch, in batch order. -/
def batchWrites (seqs : SeqId → Sequence) (items : List ScheduledSeq) :
    List (Slot × Kv) :=
  items.flatMap (entryWrites seqs)

theorem length_positions (item : ScheduledSeq) :
    item.positions.length = item.numNewTokens := by
  simp [ScheduledSeq.positions]

theorem map_fst_entryWrites (seqs : SeqId → Sequence) (item : ScheduledSeq) :
    (entryWrites seqs item).map Prod.fst = item.slotMapping := by
  rw [entryWrites, List.map_map]
  show (item.slotMapping.zip item.positions).map Prod.fst = _
  rw [List.map_fst_zip]
  rw [length_positions, item.length_slotMapping]

theorem map_fst_batchWrites (seqs : SeqId → Sequence) (items : List ScheduledSeq) :
    (batchWrites seqs items).map Prod.fst = items.flatMap (·.slotMapping) := by
  rw [batchWrites, List.map_flatMap]
  exact List.flatMap_congr fun item _ => map_fst_entryWrites seqs item

theorem mem_zip_self {l : List ℕ} {p : ℕ} (hp : p ∈ l) : (p, p) ∈ l.zip l := by
  induction l with
  | nil => cases hp
  | cons a l ih =>
      rw [List.zip_cons_cons]
      rcases List.mem_cons.mp hp with rfl | hp
      · exact List.mem_cons_self
      · exact List.mem_cons_of_mem _ (ih hp)

/-- The writes depend on the tokens at the new positions and on the adapter. -/
theorem entryWrites_congr {seqs seqs' : SeqId → Sequence} {item : ScheduledSeq}
    (h : ∀ p < item.contextLen, kvAt (seqs' item.seq) p = kvAt (seqs item.seq) p) :
    entryWrites seqs' item = entryWrites seqs item := by
  refine List.map_congr_left fun w hw => ?_
  have hp : w.2 ∈ item.positions := (List.of_mem_zip hw).2
  rw [h w.2 (mem_positions.mp hp).2]

theorem batchWrites_congr {seqs seqs' : SeqId → Sequence} {items : List ScheduledSeq}
    (h : ∀ item ∈ items, ∀ p < item.contextLen,
      kvAt (seqs' item.seq) p = kvAt (seqs item.seq) p) :
    batchWrites seqs' items = batchWrites seqs items :=
  List.flatMap_congr fun item hitem => entryWrites_congr (h item hitem)

/-- Tokens generated later do not change the KV of earlier positions. -/
theorem kvAt_prefix {seq seq' : Sequence} {p : ℕ} (hp : p < seq.numTokens)
    (hpre : seq.tokenIds <+: seq'.tokenIds) (hlora : seq'.loraId = seq.loraId) :
    kvAt seq' p = kvAt seq p := by
  obtain ⟨more, hmore⟩ := hpre
  have hlen : p + 1 ≤ seq.tokenIds.length := by
    rw [Sequence.length_tokenIds]
    exact hp
  rw [kvAt, kvAt, hlora, ← hmore, List.take_append_of_le_length hlen]

/-! ## §2  Contents -/

variable {D W : Type} [BlockDigest D] [VirtualTime W]

/-- Block `b` holds block `k` of the token list `toks`, computed under `lora`. -/
def Stores (mem : Slot → Option Kv) (blockSize : ℕ) (b : BlockId) (toks : List TokenId)
    (lora : ℤ) (k : ℕ) : Prop :=
  ∀ o < blockSize,
    mem (b * blockSize + o) = some (toks.take (k * blockSize + o + 1), lora)

/-- The first `n` positions of a sequence are in the blocks of its table. -/
def Reads (mem : Slot → Option Kv) (blockSize : ℕ) (table : List BlockId)
    (seq : Sequence) (n : ℕ) : Prop :=
  ∀ p < n, ∃ b, table[p / blockSize]? = some b ∧
    mem (b * blockSize + p % blockSize) = some (kvAt seq p)

/-- Every entry of the prefix index points at a block holding what its digest
names. -/
def IndexSound (mem : Slot → Option Kv) (m : BlockManager D) : Prop :=
  ∀ b d, m.allocator.indexed b = some d → ∃ toks lora k,
    d = chainHash D toks m.blockSize lora (k + 1) ∧
      (k + 1) * m.blockSize ≤ toks.length ∧ Stores mem m.blockSize b toks lora k

/-- What the memory owes the scheduler. -/
structure Contents (s : Scheduler D W) (mem : Slot → Option Kv) : Prop where
  running : ∀ i ∈ s.running, Reads mem s.blockManager.blockSize (s.seqs i).blockTable
    (s.seqs i) (s.seqs i).numComputedTokens
  index : IndexSound mem s.blockManager

theorem Reads.stores {mem : Slot → Option Kv} {bs n : ℕ} {table : List BlockId}
    {seq : Sequence} (hpos : 0 < bs) (h : Reads mem bs table seq n) {k : ℕ} {b : BlockId}
    (hk : (k + 1) * bs ≤ n) (hb : table[k]? = some b) :
    Stores mem bs b seq.tokenIds seq.loraId k := by
  intro o ho
  have hlt : k * bs + o < n := by
    rw [Nat.succ_mul] at hk
    omega
  have hdiv : (k * bs + o) / bs = k := by
    rw [Nat.add_comm, Nat.add_mul_div_right _ _ hpos, Nat.div_eq_of_lt ho, Nat.zero_add]
  have hmod : (k * bs + o) % bs = o := by
    rw [Nat.add_comm, Nat.add_mul_mod_self_right, Nat.mod_eq_of_lt ho]
  obtain ⟨b', hb', hmem⟩ := h _ hlt
  rw [hdiv, hb] at hb'
  obtain rfl := Option.some.inj hb'
  rw [hmod] at hmem
  exact hmem

/-- A memory that holds more owes no less. -/
theorem Contents.mono {s : Scheduler D W} {mem mem' : Slot → Option Kv}
    (h : Contents s mem) (hle : ∀ slot v, mem slot = some v → mem' slot = some v) :
    Contents s mem' where
  running i hi p hp := by
    obtain ⟨b, hb, hmem⟩ := h.running i hi p hp
    exact ⟨b, hb, hle _ _ hmem⟩
  index b d hb := by
    obtain ⟨toks, lora, k, hd, hlen, hst⟩ := h.index b d hb
    exact ⟨toks, lora, k, hd, hlen, fun o ho => hle _ _ (hst o ho)⟩

/-- Publishing a computed block keeps the index sound. -/
theorem IndexSound.publish {mem : Slot → Option Kv} {m m' : BlockManager D}
    (h : IndexSound mem m) (hpos : 0 < m.blockSize) (hbs : m'.blockSize = m.blockSize)
    {P : Sequence → Prop}
    (hread : ∀ seq, P seq → seq.numComputedTokens ≤ seq.numTokens ∧
      Reads mem m.blockSize seq.blockTable seq seq.numComputedTokens)
    (hidx : ∀ x e, m'.allocator.indexed x = some e → m.allocator.indexed x = some e ∨
      ∃ seq, P seq ∧ Published m seq x e) : IndexSound mem m' := by
  intro x e hx
  rw [hbs]
  rcases hidx x e hx with hold | ⟨seq, hseq, k, hk, hb, rfl⟩
  · exact h x e hold
  · obtain ⟨hle, hr⟩ := hread seq hseq
    refine ⟨seq.tokenIds, seq.loraId, k, rfl, ?_, hr.stores hpos hk hb⟩
    rw [Sequence.length_tokenIds]
    exact hk.trans hle

/-- A digest found in a sound index names the caller's own tokens. -/
theorem IndexSound.own_tokens [CollisionFree D] {mem : Slot → Option Kv}
    {m : BlockManager D} (h : IndexSound mem m) {seq : Sequence} {b : BlockId} {k : ℕ}
    (hk : (k + 1) * m.blockSize ≤ seq.numTokens)
    (hb : m.allocator.indexed b =
      some (chainHash D seq.tokenIds m.blockSize seq.loraId (k + 1))) :
    Stores mem m.blockSize b seq.tokenIds seq.loraId k := by
  obtain ⟨toks, lora, k', hd, hlen, hst⟩ := h b _ hb
  obtain ⟨hkk, htake, hlora⟩ := chainHash_inj (by rw [Sequence.length_tokenIds]; exact hk)
    hlen hd
  obtain rfl : k = k' := Nat.succ.inj hkk
  obtain rfl := hlora (Nat.succ_pos k)
  intro o ho
  rw [hst o ho]
  have hle : k * m.blockSize + o + 1 ≤ (k + 1) * m.blockSize := by
    rw [Nat.succ_mul]
    omega
  have hcut : ∀ l : List TokenId, l.take (k * m.blockSize + o + 1) =
      (l.take ((k + 1) * m.blockSize)).take (k * m.blockSize + o + 1) := fun l => by
    rw [List.take_take, min_eq_left hle]
  rw [hcut toks, ← htake, ← hcut]

/-! ## §3  The middle of a step -/

section Step


/-- The memory once the entries assembled so far have been written. -/
def planned (mem : Slot → Option Kv) (s : Scheduler D W) (acc : StepAcc) :
    Slot → Option Kv :=
  Lib.applyWrites mem (batchWrites s.seqs acc.entries)

variable {s : Scheduler D W} {acc : StepAcc} {mem : Slot → Option Kv}

theorem StepInv.writes_nodup (h : StepInv s acc) :
    ((batchWrites s.seqs acc.entries).map Prod.fst).Nodup := by
  rw [map_fst_batchWrites]
  exact h.slots_nodup

/-- The plan with one more entry: its writes on top of the plan so far. -/
theorem planned_emitted {s' : Scheduler D W} {i : SeqId} {n : ℕ} {item : ScheduledSeq}
    (h' : StepInv s' (acc.emitted i n item))
    (hsame : ∀ j p, kvAt (s'.seqs j) p = kvAt (s.seqs j) p) :
    planned mem s' (acc.emitted i n item) =
      Lib.applyWrites (planned mem s acc) (entryWrites s'.seqs item) := by
  have hperm : (batchWrites s'.seqs (acc.emitted i n item).entries).Perm
      (batchWrites s'.seqs acc.entries ++ entryWrites s'.seqs item) := by
    have hp : (acc.emitted i n item).entries.Perm (acc.entries ++ [item]) :=
      (entries_emitted i n item).trans (List.perm_append_singleton item acc.entries).symm
    refine (hp.flatMap_right (entryWrites s'.seqs)).trans (List.Perm.of_eq ?_)
    rw [List.flatMap_append, List.flatMap_singleton]
    rfl
  rw [planned, Lib.applyWrites_perm hperm h'.writes_nodup, Lib.applyWrites_append]
  congr 2
  exact batchWrites_congr fun item _ p _ => hsame item.seq p

/-- A slot outside the new entry's private blocks keeps its plan. -/
theorem planned_of_not_written (m : Slot → Option Kv) (seqs : SeqId → Sequence)
    {item : ScheduledSeq} (h : Inv s) (hok : EntryOk s item) {b o : ℕ}
    (ho : o < s.blockManager.blockSize)
    (hb : ∀ p ∈ item.positions, item.blockTable[p / s.blockManager.blockSize]? = some b →
      p % s.blockManager.blockSize ≠ o) :
    Lib.applyWrites m (entryWrites seqs item) (b * s.blockManager.blockSize + o) =
      m (b * s.blockManager.blockSize + o) := by
  refine Lib.applyWrites_of_not_mem fun hmem => ?_
  rw [map_fst_entryWrites, hok.slots_eq] at hmem
  obtain ⟨p, hp, hslot⟩ := List.mem_map.mp hmem
  obtain ⟨b', hb', hslot'⟩ := hok.slot h (mem_positions.mp hp).2
  rw [hslot'] at hslot
  obtain ⟨rfl, hoff⟩ := slot_inj (Nat.mod_lt _ h.manager.blockSize_pos) ho hslot
  exact hb p hp hb' hoff

theorem written_value (m : Slot → Option Kv) (seqs : SeqId → Sequence)
    {item : ScheduledSeq} (h : Inv s) (hok : EntryOk s item) {p : ℕ}
    (hp : p ∈ item.positions) {b : BlockId}
    (hb : item.blockTable[p / s.blockManager.blockSize]? = some b) :
    Lib.applyWrites m (entryWrites seqs item)
        (b * s.blockManager.blockSize + p % s.blockManager.blockSize) =
      some (kvAt (seqs item.seq) p) := by
  obtain ⟨b', hb', hslot⟩ := hok.slot h (mem_positions.mp hp).2
  obtain rfl := Option.some.inj (hb.symm.trans hb')
  refine Lib.applyWrites_of_mem ?_ ?_
  · rw [map_fst_entryWrites, hok.slots_eq]
    refine List.Nodup.map_on (fun p hp p' hp' heq => ?_) List.nodup_range'
    exact (written_inj h hok hok hp (mem_positions.mp hp').2 heq).2
  · rw [← hslot, entryWrites, hok.slots_eq]
    refine List.mem_map.mpr
      ⟨(slotAt s.blockManager.blockSize item.blockTable p, p), ?_, rfl⟩
    rw [List.zip_map_left]
    exact List.mem_map.mpr ⟨(p, p), mem_zip_self hp, rfl⟩

/-! ## §4  Every small step keeps the contents -/

theorem kvAt_congr {seq seq' : Sequence} (hp : seq'.promptTokenIds = seq.promptTokenIds)
    (ho : seq'.outputTokenIds = seq.outputTokenIds) (hl : seq'.loraId = seq.loraId)
    (p : ℕ) : kvAt seq' p = kvAt seq p := by
  rw [kvAt, kvAt, Sequence.tokenIds, Sequence.tokenIds, hp, ho, hl]

theorem Micro.kvAt_eq {x y : Scheduler D W × StepAcc} (hm : Micro x y) (j : SeqId)
    (p : ℕ) : kvAt (y.1.seqs j) p = kvAt (x.1.seqs j) p := by
  obtain ⟨hp, ho, -, hl, -⟩ := hm.same.2.2.2.2.1 j
  exact kvAt_congr hp ho hl p

/-- Without a new entry the plan stays what it was. -/
theorem planned_same (mem : Slot → Option Kv) {x y : Scheduler D W × StepAcc} (hm : Micro x y)
    (hentries : y.2.entries = x.2.entries) :
    planned mem y.1 y.2 = planned mem x.1 x.2 := by
  rw [planned, planned, hentries]
  exact congrArg _ (batchWrites_congr fun item _ p _ => hm.kvAt_eq item.seq p)

theorem Reads.congr {bs n : ℕ} {table : List BlockId} {seq seq' : Sequence}
    (h : Reads mem bs table seq n) (hkv : ∀ p < n, kvAt seq' p = kvAt seq p) :
    Reads mem bs table seq' n := by
  intro p hp
  obtain ⟨b, hb, hmem⟩ := h p hp
  exact ⟨b, hb, by rw [hmem, hkv p hp]⟩

/-- What a running sequence computed is there to be published. -/
theorem Contents.readable (hc : Contents s mem) (h : Inv s) {i : SeqId}
    (hi : i ∈ s.running) : (s.seqs i).numComputedTokens ≤ (s.seqs i).numTokens ∧
      Reads mem s.blockManager.blockSize (s.seqs i).blockTable (s.seqs i)
        (s.seqs i).numComputedTokens :=
  ⟨h.computed_le hi, hc.running i hi⟩

/-- An adopted prefix holds the KV of the sequence that adopts it. -/
theorem Adopted.reads [CollisionFree D] {m : BlockManager D} {seq seq' : Sequence}
    {n : ℕ} (hpos : 0 < m.blockSize) (ha : Adopted m seq n seq')
    (hsound : IndexSound mem m) : Reads mem m.blockSize seq'.blockTable seq n := by
  intro p hp
  have hlt : p / m.blockSize < seq'.blockTable.length := by
    rw [Nat.div_lt_iff_lt_mul hpos, ← ha.computed_eq]
    exact hp
  obtain ⟨b, hb⟩ : ∃ b, seq'.blockTable[p / m.blockSize]? = some b :=
    ⟨_, List.getElem?_eq_getElem hlt⟩
  have hfull : (p / m.blockSize + 1) * m.blockSize ≤ n :=
    (Nat.mul_le_mul_right _ hlt).trans ha.computed_eq.ge
  have hstores := hsound.own_tokens (hfull.trans ha.computed_lt.le)
    (ha.indexed _ b hb)
  refine ⟨b, hb, (hstores _ (Nat.mod_lt p hpos)).trans ?_⟩
  rw [kvAt, Nat.div_add_mod']

/-- A written block is at one place of one table: nobody else reads it. -/
theorem EntryOk.not_read (h : Inv s) {item : ScheduledSeq} (hok : EntryOk s item)
    {j : SeqId} (hj : j ∈ s.running) {p : ℕ} (hp : j = item.seq → p < item.start)
    {b : BlockId} (hb : (s.seqs j).blockTable[p / s.blockManager.blockSize]? = some b) :
    ∀ q ∈ item.positions, item.blockTable[q / s.blockManager.blockSize]? = some b →
      q % s.blockManager.blockSize ≠ p % s.blockManager.blockSize := by
  intro q hq hqb hmod
  obtain ⟨hseq, hdiv⟩ := h.unique_place (hok.written h hq hqb).1 hok.running hj
    (hok.table_eq ▸ hqb) hb
  have hpq : q = p := by
    rw [← Nat.div_add_mod q s.blockManager.blockSize, hdiv, hmod, Nat.div_add_mod]
  have hstart := (mem_positions.mp hq).1
  have := hp hseq.symm
  omega

theorem grow_contents {i : SeqId} {n : ℕ} {slots : List Slot} {m' : BlockManager D}
    {seq' : Sequence} {item : ScheduledSeq} (hc : Contents s (planned mem s acc))
    (h' : StepInv (s.grown i m' (advanced seq' n)) (acc.emitted i n item))
    (hm : Micro (s, acc) (s.grown i m' (advanced seq' n), acc.emitted i n item))
    (hgrown : Grown s.blockManager m' (s.seqs i) n slots seq')
    (hframe : Frame s.blockManager m' i)
    (hitem : ItemOf (s.seqs i) i n slots seq' item) :
    Contents (s.grown i m' (advanced seq' n))
      (planned mem (s.grown i m' (advanced seq' n)) (acc.emitted i n item)) := by
  have hok : EntryOk (s.grown i m' (advanced seq' n)) item :=
    h'.entries item ((entries_emitted i n item).mem_iff.mpr List.mem_cons_self)
  have hbs : m'.blockSize = s.blockManager.blockSize := hframe.blockSize_eq
  have hself : (s.grown i m' (advanced seq' n)).seqs i = advanced seq' n :=
    Function.update_self _ _ _
  have hother : ∀ j, j ≠ i → (s.grown i m' (advanced seq' n)).seqs j = s.seqs j :=
    fun j hj => Function.update_of_ne hj _ _
  have hstart : item.start = (s.seqs i).numComputedTokens := by
    rw [ScheduledSeq.start, hitem.context_eq, hitem.num_eq, Nat.add_sub_cancel]
  rw [planned_emitted h' hm.kvAt_eq]
  generalize hplan : planned mem s acc = plan at hc
  constructor
  · intro j hj
    have hpos : 0 < m'.blockSize := h'.inv.manager.blockSize_pos
    show Reads _ m'.blockSize _ _ _
    intro p hp
    by_cases hnew : j = i ∧ item.start ≤ p
    · -- a position this step computes
      obtain ⟨rfl, hge⟩ := hnew
      have hpc : p ∈ item.positions := by
        rw [mem_positions, hok.context_eq, hitem.seq_eq]
        exact ⟨hge, hp⟩
      obtain ⟨b, hb, -⟩ := hok.slot h'.inv (mem_positions.mp hpc).2
      refine ⟨b, ?_, ?_⟩
      · have htable := hok.table_eq
        rw [hitem.seq_eq] at htable
        rw [← htable]
        exact hb
      · have hval := written_value plan (s.grown j m' (advanced seq' n)).seqs h'.inv
          hok hpc hb
        rw [hitem.seq_eq] at hval
        exact hval
    · -- a position computed before: its block is not written now
      obtain ⟨b, hb, hmem⟩ : ∃ b,
          ((s.grown i m' (advanced seq' n)).seqs j).blockTable[p / m'.blockSize]? =
            some b ∧ plan (b * m'.blockSize + p % m'.blockSize) =
              some (kvAt (s.seqs j) p) := by
        rw [hbs]
        by_cases hji : j = i
        · subst hji
          have hlt : p < (s.seqs j).numComputedTokens := by
            rw [← hstart]
            exact not_le.mp fun hge => hnew ⟨rfl, hge⟩
          obtain ⟨b, hb, hmem⟩ := hc.running j hj p hlt
          obtain ⟨fresh, hfresh⟩ := hgrown.extends_table
          refine ⟨b, ?_, hmem⟩
          rw [hself]
          show seq'.blockTable[_]? = _
          rw [hfresh, List.getElem?_append_left (List.getElem?_eq_some_iff.mp hb).1, hb]
        · rw [hother j hji] at hp ⊢
          exact hc.running j hj p hp
      refine ⟨b, hb, ?_⟩
      rw [hm.kvAt_eq, ← hmem]
      exact planned_of_not_written plan _ h'.inv hok (Nat.mod_lt p hpos)
        (hok.not_read h'.inv hj (fun hji => not_le.mp fun hge =>
          hnew ⟨hji.trans hitem.seq_eq, hge⟩) hb)
  · -- a written block is under no digest
    intro b d hbd
    obtain ⟨toks, lora, k, hd, hlen, hst⟩ := hc.index b d (hgrown.indexed_of b d hbd)
    refine ⟨toks, lora, k, ?_, ?_, fun o ho => ?_⟩
    · exact hbs ▸ hd
    · exact hbs ▸ hlen
    · have hkeep := planned_of_not_written plan
        (s.grown i m' (advanced seq' n)).seqs h'.inv hok (b := b) ho
        fun q hq hqb => by
          have hnone := (hok.written h'.inv hq hqb).2
          rw [hbd] at hnone
          cases hnone
      refine hkeep.trans ?_
      show plan (b * m'.blockSize + o) = some (toks.take (k * m'.blockSize + o + 1), lora)
      rw [hbs]
      exact hst o (hbs ▸ ho)

/-- Every small step keeps the contents, with the plan of its batch. -/
theorem Micro.contents [CollisionFree D] {x y : Scheduler D W × StepAcc}
    (hm : Micro x y) (h : StepInv x.1 x.2)
    (hc : Contents x.1 (planned mem x.1 x.2)) :
    Contents y.1 (planned mem y.1 y.2) := by
  have h' := hm.stepInv h
  have hplan := planned_same mem hm
  have hkv := hm.kvAt_eq
  cases hm with
  | @preempt s acc v m' hv hnew hframe hmanager hidx =>
      rw [hplan rfl]
      refine ⟨fun j hj => ?_, ?_⟩
      · obtain ⟨hne, hj'⟩ := h.inv.running_nodup.mem_erase_iff.mp hj
        have hsame : (s.sentBack v m').seqs j = s.seqs j := Function.update_of_ne hne _ _
        rw [hsame]
        show Reads _ m'.blockSize _ _ _
        rw [hframe.blockSize_eq]
        exact hc.running j hj'
      · refine hc.index.publish h.inv.manager.blockSize_pos hframe.blockSize_eq
          (P := fun seq => seq = s.seqs v) ?_ fun x e hx =>
            (hidx x e hx).imp_right fun hp => ⟨_, rfl, hp⟩
        rintro seq rfl
        exact hc.readable h.inv hv
  | @enter s acc i rest q' n m' seq' hpop hnow hbudget hcan hmay hadopted hframe hmanager
      hidx =>
      have hentries : (⟨acc.budget, acc.scheduledIds, acc.prefills, acc.decodes,
          acc.preemptedNow, acc.preempted, acc.numCachedTokens + n⟩ : StepAcc).entries =
          acc.entries := rfl
      rw [hplan hentries]
      have hpos := h.inv.manager.blockSize_pos
      refine ⟨fun j hj => ?_, ?_⟩
      · show Reads _ m'.blockSize _ _ _
        rw [hframe.blockSize_eq]
        by_cases hji : j = i
        · subst hji
          have hself : (s.admitted j rest q' m' seq').seqs j =
              { seq' with status := .running } := Function.update_self _ _ _
          have hcomp : seq'.numComputedTokens = n := by rw [hadopted.seq_eq]
          have hsame : ∀ p, kvAt ({ seq' with status := .running }) p =
              kvAt (s.seqs j) p := fun p => by
            rw [← hself]
            exact hkv j p
          rw [hself]
          show Reads _ _ seq'.blockTable _ seq'.numComputedTokens
          rw [hcomp]
          exact (hadopted.reads hpos hc.index).congr fun p _ => hsame p
        · have hsame : (s.admitted i rest q' m' seq').seqs j = s.seqs j :=
            Function.update_of_ne hji _ _
          rw [hsame]
          have hj' : j ∈ s.running := (List.mem_append.mp hj).resolve_right
            fun hmem => hji (List.mem_singleton.mp hmem)
          exact hc.running j hj'
      · exact hc.index.publish hpos hframe.blockSize_eq (P := fun _ => False)
          (fun _ hf => hf.elim) fun x e hx => Or.inl ((hidx x).symm.trans hx)
  | @grow s acc i n slots m' seq' item hi hnew hbudget hn hmay hgrown hframe hmanager
      hitem =>
      exact grow_contents hc h' (.grow i n slots m' seq' item hi hnew hbudget hn hmay
        hgrown hframe hmanager hitem) hgrown hframe hitem
  | @rollback s acc i m' hi hframe hmanager hidx =>
      rw [hplan rfl]
      have hnr := not_running_of_queued h.inv hi
      refine ⟨fun j hj => ?_, ?_⟩
      · have hsame : (s.rolledBack i m').seqs j = s.seqs j :=
          Function.update_of_ne (ne_of_mem_of_not_mem hj hnr) _ _
        rw [hsame]
        show Reads _ m'.blockSize _ _ _
        rw [hframe.blockSize_eq]
        exact hc.running j hj
      · exact hc.index.publish h.inv.manager.blockSize_pos hframe.blockSize_eq
          (P := fun _ => False) (fun _ hf => hf.elim) fun x e hx => Or.inl (hidx x e hx)

/-- A whole step, from what the memory holds before it to what it holds once
the step's writes have been made. -/
theorem StepRun.contents [CollisionFree D] {out : SchedulerOutput} {s' : Scheduler D W}
    (hr : StepRun s out s') (h : Inv s) (hc : Contents s mem) :
    Contents s' (Lib.applyWrites mem (batchWrites s'.seqs out.scheduled)) := by
  cases hr with
  | intro m₀ s₁ acc hpub hrun =>
      have h₀ : StepInv { s with blockManager := m₀ } (StepAcc.init s.config) :=
        StepInv.init (hpub.inv h)
      have hc₀ : Contents { s with blockManager := m₀ }
          (planned mem { s with blockManager := m₀ } (StepAcc.init s.config)) := by
        refine ⟨fun j hj => ?_, ?_⟩
        · show Reads mem m₀.blockSize _ _ _
          rw [hpub.blockSize_eq]
          exact hc.running j hj
        · refine hc.index.publish h.manager.blockSize_pos hpub.blockSize_eq
            (P := fun seq => ∃ i ∈ s.running, seq = s.seqs i) ?_ fun x e hx =>
              (hpub.indexed_of x e hx).imp_right fun ⟨i, hi, hp⟩ => ⟨_, ⟨i, hi, rfl⟩, hp⟩
          rintro seq ⟨i, hi, rfl⟩
          exact hc.readable h hi
      have hend := Micros.induct (P := fun t a => Contents t (planned mem t a))
        (fun x y hm hinv hx => hm.contents hinv hx) hrun h₀ hc₀
      exact ⟨hend.running, hend.index⟩

end Step

end TurboServe.Core
