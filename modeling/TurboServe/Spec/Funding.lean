import TurboServe.Spec.Engine
import TurboServe.Invariants.Admission
import TurboServe.Invariants.Schedule

/-!
# Funding the drafts

What `_fund` keeps of a draft is the longest prefix the pool can serve next to the
blocks the step has reserved, and what it keeps can always be extended by. So the
funding loop never runs out of blocks and never takes them from anybody.
-/

namespace TurboServe.Spec

open TurboServe.Core

/-! ## §1  The longest prefix that fits -/

/-- New blocks that `k` more computed tokens require. -/
def blocksNeeded (blockSize computed tableLen k : ℕ) : ℕ :=
  (computed + k) ⌈/⌉ blockSize - tableLen

/-- Length of the longest prefix, of at most `n` tokens, whose blocks can be served. -/
def longestFit (blockSize computed tableLen : ℕ) (allocatable : ℤ) (n : ℕ) : ℕ :=
  Nat.findGreatest (fun k => (blocksNeeded blockSize computed tableLen k : ℤ) ≤ allocatable)
    n

/-- Blocks a draft of `k` tokens takes. An empty draft takes none, also for a sequence
whose table is short of the tokens it has. -/
def blocksTaken (blockSize computed tableLen k : ℕ) : ℕ :=
  if k = 0 then 0 else blocksNeeded blockSize computed tableLen k

section Lengths

variable {bs c t n : ℕ} {A A' : ℤ}

theorem longestFit_le : longestFit bs c t A n ≤ n := Nat.findGreatest_le n

theorem longestFit_fits (h : longestFit bs c t A n ≠ 0) :
    (blocksNeeded bs c t (longestFit bs c t A n) : ℤ) ≤ A :=
  Nat.findGreatest_of_ne_zero rfl h

theorem longestFit_mono (h : A ≤ A') : longestFit bs c t A n ≤ longestFit bs c t A' n :=
  Nat.findGreatest_mono (fun _ hk => le_trans hk h) le_rfl

/-- The loop finds it. -/
theorem fundLoop_eq : fundLoop bs c t A n =
    if longestFit bs c t A n = 0 then none
    else some (longestFit bs c t A n, blocksNeeded bs c t (longestFit bs c t A n)) := by
  induction n with
  | zero => rfl
  | succ n ih =>
      by_cases hfit : (blocksNeeded bs c t (n + 1) : ℤ) ≤ A
      · have hlongest : longestFit bs c t A (n + 1) = n + 1 := Nat.findGreatest_eq hfit
        rw [hlongest, if_neg n.succ_ne_zero, fundLoop]
        exact if_pos hfit
      · have hlongest : longestFit bs c t A (n + 1) = longestFit bs c t A n :=
          Nat.findGreatest_of_not hfit
        rw [hlongest, ← ih, fundLoop]
        exact if_neg hfit

/-- With less to serve the longest prefix stays the same exactly when it still fits. -/
theorem longestFit_eq_iff (h : A ≤ A') :
    longestFit bs c t A n = longestFit bs c t A' n ↔
      longestFit bs c t A' n = 0 ∨
        (blocksNeeded bs c t (longestFit bs c t A' n) : ℤ) ≤ A := by
  constructor
  · intro heq
    by_cases hzero : longestFit bs c t A' n = 0
    · exact Or.inl hzero
    · right
      rw [← heq] at hzero ⊢
      exact longestFit_fits hzero
  · rintro (hzero | hfits)
    · exact Nat.le_antisymm (longestFit_mono h) (hzero ▸ Nat.zero_le _)
    · exact Nat.le_antisymm (longestFit_mono h) (Nat.le_findGreatest longestFit_le hfits)

end Lengths

/-! ## §2  One draft -/

section Extend

variable {D W : Type} [BlockDigest D] [DecidableEq D] [VirtualTime W]

omit [BlockDigest D] [DecidableEq D] in
theorem fund_eq (m : BlockManager D) (seq : Sequence) (drafts : List TokenId)
    (reserved : ℕ) {k : ℕ} (hk : k = longestFit m.blockSize seq.numComputedTokens
      seq.blockTable.length (m.allocator.numAllocatable - reserved) drafts.length) :
    fund m seq drafts reserved = (drafts.take k, reserved +
      blocksTaken m.blockSize seq.numComputedTokens seq.blockTable.length k) := by
  unfold fund blocksTaken
  simp only [fundLoop_eq, ← hk]
  by_cases hzero : k = 0
  · simp [hzero]
  · simp [hzero]

/-- A sequence and its entry, extended by `drafts`: `seq'` is the sequence after it. -/
structure Widened (blockSize : ℕ) (seq seq' : Sequence) (item : ScheduledSeq)
    (drafts : List TokenId) (record : Verified) : Prop where
  seq_eq : seq' = { seq with
    outputTokenIds := seq.outputTokenIds ++ drafts, blockTable := seq'.blockTable
    numComputedTokens := seq.numComputedTokens + drafts.length }
  extends_table : ∃ fresh, seq'.blockTable = seq.blockTable ++ fresh
  item_eq : record.item = item
  numDrafted_eq : record.numDrafted = drafts.length
  baseComputed_eq : record.baseComputed = seq.numComputedTokens
  baseOutputs_eq : record.baseOutputs = seq.outputTokenIds.length
  verify_seq : record.verifyItem.seq = item.seq
  verify_num : record.verifyItem.numNewTokens = item.numNewTokens + drafts.length
  verify_context : record.verifyItem.contextLen = item.contextLen + drafts.length
  verify_tokens : record.verifyItem.tokenIds = item.tokenIds ++ drafts
  verify_slots : record.verifyItem.slotMapping = item.slotMapping ++
    (List.range' seq.numComputedTokens drafts.length).map (slotAt blockSize seq'.blockTable)

/-- What an extension does to the scheduler. -/
structure Extended (s : Scheduler D W) (item : ScheduledSeq) (drafts : List TokenId)
    (record : Verified) (s' : Scheduler D W) : Prop where
  inv : Inv s'
  same : s' = { s with seqs := s'.seqs, blockManager := s'.blockManager }
  others : ∀ j, j ≠ item.seq → s'.seqs j = s.seqs j
  widened : Widened s.blockManager.blockSize (s.seqs item.seq) (s'.seqs item.seq) item
    drafts record
  allocatable : s'.blockManager.allocator.numAllocatable +
    blocksTaken s.blockManager.blockSize (s.seqs item.seq).numComputedTokens
      (s.seqs item.seq).blockTable.length drafts.length =
    s.blockManager.allocator.numAllocatable
  blockSize_eq : s'.blockManager.blockSize = s.blockManager.blockSize
  state_eq : s'.blockManager.state = s.blockManager.state
  indexed_of : ∀ x d, s'.blockManager.allocator.indexed x = some d →
    s.blockManager.allocator.indexed x = some d

variable {s : Scheduler D W} {item : ScheduledSeq}

/-- A draft whose blocks can be served extends its sequence, and nobody else notices. -/
theorem extend_spec (drafts : List TokenId) (h : Inv s) (hi : item.seq ∈ s.running)
    (hfits : drafts ≠ [] → blocksNeeded s.blockManager.blockSize
      (s.seqs item.seq).numComputedTokens (s.seqs item.seq).blockTable.length
      drafts.length ≤ s.blockManager.allocator.numAllocatable) :
    ∃ record s', extend s item drafts = .ok (record, s') ∧
      Extended s item drafts record s' := by
  by_cases hnil : drafts = []
  · subst hnil
    refine ⟨_, s, by rw [extend, if_pos rfl], ?_⟩
    exact
      { inv := h, same := rfl, others := fun _ _ => rfl
        widened :=
          { seq_eq := by simp, extends_table := ⟨[], by simp⟩, item_eq := rfl
            numDrafted_eq := rfl, baseComputed_eq := rfl, baseOutputs_eq := rfl
            verify_seq := rfl, verify_num := by simp, verify_context := by simp
            verify_tokens := by simp, verify_slots := by simp }
        allocatable := by simp [blocksTaken], blockSize_eq := rfl, state_eq := rfl
        indexed_of := fun _ _ => id }
  · set i := item.seq with hidef
    set seq := s.seqs i with hseq
    set n := drafts.length with hn
    set seq₁ : Sequence := { seq with outputTokenIds := seq.outputTokenIds ++ drafts }
      with hseq₁
    have hpos : n ≠ 0 := by
      rw [hn]
      exact fun h0 => hnil (List.length_eq_zero_iff.mp h0)
    have hhead : ManagerInv s.blockManager (seq₁ :: (s.running.erase i).map s.seqs) :=
      (h.manager_head hi).append_tokens drafts
    have hle : seq.numComputedTokens ≤ seq.numTokens := h.computed_le hi
    have hnum : seq₁.numTokens = seq.numTokens + n := by
      simp [hseq₁, Sequence.numTokens, hn, Nat.add_assoc]
    have hroom : (seq₁.numComputedTokens + n) ⌈/⌉ s.blockManager.blockSize ≤
        s.blockManager.allocator.numAllocatable + seq₁.blockTable.length := by
      have := hfits hnil
      unfold blocksNeeded at this
      have hb : seq₁.blockTable.length = seq.blockTable.length := rfl
      have hc : seq₁.numComputedTokens = seq.numComputedTokens := rfl
      rw [hb, hc]
      omega
    have hcount : seq₁.numComputedTokens + n ≤ seq₁.numTokens := by
      rw [hnum]
      exact Nat.add_le_add_right hle n
    obtain ⟨slots, m', seq', hok, hgrown, hframe, hmanager, -⟩ :=
      appendSlots_spec hhead hcount hroom
    have halloc := appendSlots_allocatable hhead.pool hok
    have hvalue := hgrown.seq_eq
    have hnum' : seq'.numTokens = seq₁.numTokens := by rw [hvalue]; rfl
    have hcomp' : seq'.numComputedTokens = seq₁.numComputedTokens := by rw [hvalue]
    have hadv : seq'.advanceComputed n = .ok (advanced seq' n) :=
      Sequence.advanceComputed_ok (by rw [hnum', hcomp']; exact hcount)
    have hslots : slots.length = n := by
      rw [hgrown.slots_eq, List.length_map, List.length_range']
    obtain ⟨verifyItem, hcreate, hv⟩ : ∃ v, ScheduledSeq.create i (item.numNewTokens + n)
        (item.contextLen + n) (item.tokenIds ++ drafts) (item.slotMapping ++ slots)
        (advanced seq' n).blockTable false false item.numCachedTokens = .ok v ∧
          v.seq = i ∧ v.numNewTokens = item.numNewTokens + n ∧
          v.contextLen = item.contextLen + n ∧ v.tokenIds = item.tokenIds ++ drafts ∧
          v.slotMapping = item.slotMapping ++ slots := by
      have h₁ : 1 ≤ item.numNewTokens + n := by omega
      have h₂ : (item.tokenIds ++ drafts).length = item.numNewTokens + n := by
        rw [List.length_append, item.length_tokenIds]
      have h₃ : (item.slotMapping ++ slots).length = item.numNewTokens + n := by
        rw [List.length_append, item.length_slotMapping, hslots]
      have h₄ : item.numNewTokens + n ≤ item.contextLen + n :=
        Nat.add_le_add_right item.le_contextLen n
      refine ⟨⟨i, _, _, _, _, (advanced seq' n).blockTable, false, false,
        item.numCachedTokens, h₁, h₂, h₃, h₄⟩, ?_, rfl, rfl, rfl, rfl, rfl⟩
      rw [ScheduledSeq.create, dif_pos h₁, dif_pos h₂, dif_pos h₃, dif_pos h₄]
    obtain ⟨hv₁, hv₂, hv₃, hv₄, hv₅⟩ := hv
    set s' : Scheduler D W :=
      { s.setSeq i (advanced seq' n) with blockManager := m' } with hs'
    have hself : s'.seqs i = advanced seq' n := Function.update_self _ _ _
    have hinv : Inv s' := by
      have hinv₁ : Inv (s.setSeq i seq₁) :=
        h.set_value rfl rfl rfl rfl id fun _ => hhead
      have hself₁ : (s.setSeq i seq₁).seqs i = seq₁ := Function.update_self _ _ _
      have hgrow : Inv ((s.setSeq i seq₁).grown i m' (advanced seq' n)) := grown_inv hinv₁ hi
        (by rw [hself₁]; exact hgrown) (by
          have hid : seq₁.seqId = i := h.id_of_running hi
          exact hid ▸ hframe) (by
          have hmap : ((s.setSeq i seq₁).running.erase i).map (s.setSeq i seq₁).seqs =
              (s.running.erase i).map s.seqs := map_update_erase h.running_nodup
          rw [hmap]
          exact hmanager)
      have heq : (s.setSeq i seq₁).grown i m' (advanced seq' n) = s' := by
        simp [Scheduler.grown, Scheduler.setSeq, hs']
      rwa [heq] at hgrow
    have hlen : seq'.blockTable.length = seq.blockTable.length +
        blocksTaken s.blockManager.blockSize seq.numComputedTokens
          seq.blockTable.length n := by
      have hmax := hgrown.length_eq
      have hb : seq₁.blockTable.length = seq.blockTable.length := rfl
      have hc : seq₁.numComputedTokens = seq.numComputedTokens := rfl
      rw [hb, hc] at hmax
      rw [blocksTaken, if_neg hpos, blocksNeeded]
      omega
    refine ⟨⟨item, verifyItem, n, seq.numComputedTokens, seq.outputTokenIds.length⟩, s',
      ?_, ?_⟩
    · rw [extend, if_neg hnil]
      simp only [← hidef, ← hseq, ← hseq₁, ← hn, hok, hadv, hcreate, bind, Except.bind]
      rfl
    · exact
        { inv := hinv, same := rfl
          others := fun j hj => Function.update_of_ne hj _ _
          widened :=
            { seq_eq := by rw [hself, hvalue]
              extends_table := by
                rw [hself]
                exact hgrown.extends_table
              item_eq := rfl, numDrafted_eq := rfl, baseComputed_eq := rfl
              baseOutputs_eq := rfl, verify_seq := hv₁, verify_num := hv₂
              verify_context := hv₃, verify_tokens := hv₄
              verify_slots := by rw [hv₅, hgrown.slots_eq, hself] }
          allocatable := by
            have hb : seq₁.blockTable.length = seq.blockTable.length := rfl
            rw [hb, hlen] at halloc
            show m'.allocator.numAllocatable + blocksTaken s.blockManager.blockSize
              seq.numComputedTokens seq.blockTable.length n =
                s.blockManager.allocator.numAllocatable
            omega
          blockSize_eq := hframe.blockSize_eq
          state_eq := hgrown.state_eq, indexed_of := hgrown.indexed_of }

end Extend

/-! ## §3  The loop -/

/-- What funding reads of one decoding sequence. -/
structure Demand where
  computed : ℕ
  tableLen : ℕ
  draftLen : ℕ

/-- How much of each draft the loop keeps, with `reserved` blocks set aside. -/
def fundedLengths (blockSize : ℕ) : ℕ → ℕ → List Demand → List ℕ
  | _, _, [] => []
  | allocatable, reserved, d :: rest =>
      let k := longestFit blockSize d.computed d.tableLen (allocatable - reserved) d.draftLen
      let taken := blocksTaken blockSize d.computed d.tableLen k
      k :: fundedLengths blockSize (allocatable - taken) (reserved + taken) rest

/-- How much of each draft the pool can hold: in order, the longest prefix that fits in
what the earlier ones left. -/
def exactLengths (blockSize : ℕ) : ℕ → List Demand → List ℕ
  | _, [] => []
  | allocatable, d :: rest =>
      let k := longestFit blockSize d.computed d.tableLen allocatable d.draftLen
      k :: exactLengths blockSize
        (allocatable - blocksTaken blockSize d.computed d.tableLen k) rest

/-- At every draft of which the pool can hold a token, the blocks of what it can hold
and the blocks the earlier drafts took fit together into what can be served then. -/
def Roomy (blockSize : ℕ) : ℕ → ℕ → List Demand → Prop
  | _, _, [] => True
  | allocatable, reserved, d :: rest =>
      let k := longestFit blockSize d.computed d.tableLen allocatable d.draftLen
      let taken := blocksTaken blockSize d.computed d.tableLen k
      (k = 0 ∨ blocksNeeded blockSize d.computed d.tableLen k + reserved ≤ allocatable) ∧
        Roomy blockSize (allocatable - taken) (reserved + taken) rest

/-- The loop keeps all the pool can hold exactly when there is room for the blocks it
counts twice. -/
theorem fundedLengths_eq_iff (blockSize allocatable reserved : ℕ) (ds : List Demand) :
    fundedLengths blockSize allocatable reserved ds = exactLengths blockSize allocatable ds ↔
      Roomy blockSize allocatable reserved ds := by
  induction ds generalizing allocatable reserved with
  | nil => exact iff_of_true rfl trivial
  | cons d rest ih =>
      simp only [fundedLengths, exactLengths, Roomy, List.cons.injEq]
      have hless : (allocatable : ℤ) - reserved ≤ allocatable := by omega
      have hhead := @longestFit_eq_iff blockSize d.computed d.tableLen d.draftLen _ _ hless
      constructor
      · rintro ⟨heq, hrest⟩
        rw [heq] at hrest
        refine ⟨?_, (ih _ _).mp hrest⟩
        rcases hhead.mp heq with hzero | hfits
        · exact Or.inl hzero
        · right
          omega
      · rintro ⟨hroom, hrest⟩
        have heq := hhead.mpr (by
          rcases hroom with hzero | hfits
          · exact Or.inl hzero
          · right
            omega)
        refine ⟨heq, ?_⟩
        rw [heq]
        exact (ih _ _).mpr hrest

section Loop

variable {D W : Type} [BlockDigest D] [DecidableEq D] [VirtualTime W]

def demand (s : Scheduler D W) (e : ScheduledSeq × List TokenId) : Demand :=
  ⟨(s.seqs e.1.seq).numComputedTokens, (s.seqs e.1.seq).blockTable.length, e.2.length⟩

/-- What the funding loop does to the scheduler: every entry is widened by a prefix of
its draft. -/
structure Funded (s : Scheduler D W) (entries : List (ScheduledSeq × List TokenId))
    (records : List Verified) (s' : Scheduler D W) : Prop where
  inv : Inv s'
  same : s' = { s with seqs := s'.seqs, blockManager := s'.blockManager }
  others : ∀ j, j ∉ entries.map (·.1.seq) → s'.seqs j = s.seqs j
  status : ∀ j, (s'.seqs j).status = (s.seqs j).status
  records : List.Forall₂ (fun e record => ∃ kept, kept <+: e.2 ∧
    Widened s.blockManager.blockSize (s.seqs e.1.seq) (s'.seqs e.1.seq) e.1 kept record)
    entries records
  blockSize_eq : s'.blockManager.blockSize = s.blockManager.blockSize
  state_eq : s'.blockManager.state = s.blockManager.state
  indexed_of : ∀ x d, s'.blockManager.allocator.indexed x = some d →
    s.blockManager.allocator.indexed x = some d

/-- By induction on the entries: what `_fund` keeps of a draft can be served, so
`_extend` succeeds, and the entries left read what they would have read before. -/
theorem fundDecodes_spec {s : Scheduler D W} (h : Inv s) (reserved : ℕ)
    (entries : List (ScheduledSeq × List TokenId))
    (hrun : ∀ e ∈ entries, e.1.seq ∈ s.running)
    (hnd : (entries.map (·.1.seq)).Nodup) :
    ∃ records s', fundDecodes s reserved entries = .ok (records, s') ∧
      Funded s entries records s' ∧
      records.map (·.numDrafted) = fundedLengths s.blockManager.blockSize
        s.blockManager.allocator.numAllocatable reserved (entries.map (demand s)) := by
  induction entries generalizing s reserved with
  | nil =>
      refine ⟨[], s, rfl, ?_, rfl⟩
      exact
        { inv := h, same := rfl, others := fun _ _ => rfl
          status := fun _ => rfl, records := .nil
          blockSize_eq := rfl, state_eq := rfl, indexed_of := fun _ _ => id }
  | cons e rest ih =>
      obtain ⟨item, drafts⟩ := e
      rw [List.map_cons, List.nodup_cons] at hnd
      obtain ⟨hnot, hnd⟩ := hnd
      rw [List.forall_mem_cons] at hrun
      obtain ⟨hi, hrun⟩ := hrun
      change item.seq ∉ _ at hnot
      change item.seq ∈ _ at hi
      set seq := s.seqs item.seq with hseq
      set bs := s.blockManager.blockSize with hbs
      set A := s.blockManager.allocator.numAllocatable with hA
      set k := longestFit bs seq.numComputedTokens seq.blockTable.length
        ((A : ℤ) - reserved) drafts.length with hk
      have hfund := fund_eq s.blockManager seq drafts reserved hk
      have hlen : (drafts.take k).length = k := by
        rw [List.length_take, min_eq_left longestFit_le]
      obtain ⟨record, s₁, hok, hext⟩ := extend_spec (drafts.take k) h hi (by
        intro hne
        have hk0 : k ≠ 0 := fun h0 => hne (by rw [h0, List.take_zero])
        have hfits := longestFit_fits (hk ▸ hk0)
        rw [← hk] at hfits
        rw [← hseq, ← hbs, ← hA, hlen]
        omega)
      have hother : ∀ e ∈ rest, s₁.seqs e.1.seq = s.seqs e.1.seq := fun e he =>
        hext.others _ fun heq => hnot (List.mem_map.mpr ⟨e, he, heq⟩)
      have hrunning : s₁.running = s.running := by rw [hext.same]
      obtain ⟨records, s', hok', hfunded, hlengths⟩ :=
        ih hext.inv (reserved + blocksTaken bs seq.numComputedTokens seq.blockTable.length k)
          (by rwa [hrunning]) hnd
      refine ⟨record :: records, s', ?_, ?_, ?_⟩
      · simp only [fundDecodes, ← hseq, hfund, ← hbs, hok, hok', bind, Except.bind]
      · have hfirst : s'.seqs item.seq = s₁.seqs item.seq := hfunded.others _ hnot
        refine
          { inv := hfunded.inv, same := ?_, others := ?_, status := ?_
            records := .cons ?_ ?_
            blockSize_eq := hfunded.blockSize_eq.trans hext.blockSize_eq
            state_eq := hfunded.state_eq.trans hext.state_eq
            indexed_of := fun x d hx => hext.indexed_of x d (hfunded.indexed_of x d hx) }
        · rw [hfunded.same, hext.same]
        · intro j hj
          rw [List.map_cons, List.mem_cons, not_or] at hj
          exact (hfunded.others j hj.2).trans (hext.others j hj.1)
        · intro j
          rw [hfunded.status j]
          by_cases hj : j = item.seq
          · rw [hj, hext.widened.seq_eq]
          · rw [hext.others j hj]
        · refine ⟨drafts.take k, List.take_prefix _ _, ?_⟩
          show Widened bs seq (s'.seqs item.seq) item _ record
          rw [hfirst]
          exact hext.widened
        · have hrest := hfunded.records
          rw [hext.blockSize_eq] at hrest
          refine ((List.forall₂_and_left _ _).mpr ⟨hother, hrest⟩).imp ?_
          rintro e record ⟨heq, hw⟩
          rwa [heq] at hw
      · have hdemand : rest.map (demand s₁) = rest.map (demand s) := by
          apply List.map_congr_left
          intro e he
          rw [demand, demand, hother e he]
        have halloc := hext.allocatable
        rw [← hseq, ← hbs, ← hA, hlen] at halloc
        have hleft : s₁.blockManager.allocator.numAllocatable =
            A - blocksTaken bs seq.numComputedTokens seq.blockTable.length k := by omega
        rw [hdemand, hext.blockSize_eq, hleft] at hlengths
        rw [List.map_cons, hlengths, hext.widened.numDrafted_eq, hlen, List.map_cons]
        rfl

end Loop

end TurboServe.Spec
