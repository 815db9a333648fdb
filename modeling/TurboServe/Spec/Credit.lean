import TurboServe.Spec.World

/-!
# KV credit

What the pool has to hold for the feedback of a speculative step, and why it does. The
argument is about one *planned* memory, in which the accepted positions hold the KV of
the text the sequence will have and the rejected ones hold nothing: it satisfies
everything the feedback relies on, whatever was drafted. The pool itself agrees with it
wherever speculation was on sequences with one uncomputed token.
-/

namespace TurboServe.Spec

open TurboServe.Core

variable {D W : Type} [BlockDigest D] [VirtualTime W]
variable {sample : Scheduler D W → ScheduledSeq → TokenId} {draft : SeqId → List TokenId}
variable {verify : Verifier} {s : Scheduler D W} {out : SchedulerOutput} {e : Executed D W}

/-! ## §1  The entries of the forward pass -/

/-- What both ways of running an entry have in common. -/
structure Grew (s : Scheduler D W) (e : Executed D W) (old item : ScheduledSeq) : Prop where
  seq_eq : item.seq = old.seq
  start_eq : item.start = old.start
  context_le : old.contextLen ≤ item.contextLen
  extends_table : (s.seqs old.seq).blockTable <+: (e.computed.seqs old.seq).blockTable
  context_eq : item.contextLen = (e.computed.seqs old.seq).numComputedTokens
  slots_eq : item.slotMapping = item.positions.map
    (slotAt s.blockManager.blockSize (e.computed.seqs old.seq).blockTable)
  capped : ∀ cap, e.caps old.seq = some cap →
    (s.seqs old.seq).numComputedTokens ≤ cap ∧ cap ≤ item.contextLen

theorem slotAt_extended {bs p : ℕ} {table table' : List BlockId} (h : table <+: table')
    (hp : p / bs < table.length) : slotAt bs table' p = slotAt bs table p := by
  obtain ⟨fresh, rfl⟩ := h
  rw [slotAt, slotAt, List.getElem?_append_left hp]

theorem numAccepted_le {drafts : List TokenId} (v : Verification drafts) :
    v.numAccepted ≤ drafts.length :=
  v.accepted_isPrefix.length_le

theorem Ran.grew {old item : ScheduledSeq} (h : Inv s) (hok : EntryOk s old)
    (hr : Ran sample draft verify s e old item) : Grew s e old item := by
  cases hr with
  | plain huncapped hseq hfed =>
      refine
        { seq_eq := rfl, start_eq := rfl, context_le := le_rfl, extends_table := ?_
          context_eq := ?_, slots_eq := ?_, capped := ?_ }
      · rw [hseq]
      · rw [hseq]
        exact hok.context_eq
      · rw [hseq]
        exact hok.placed.slots_eq
      · intro cap hcap
        rw [huncapped] at hcap
        cases hcap
  | @verified kept record hdecode hone hkept hw hcap hfed =>
      have hcontext := hok.context_eq
      have hle := old.le_contextLen
      have hstart : record.verifyItem.start = old.start := by
        rw [ScheduledSeq.start, ScheduledSeq.start, hw.verify_num, hw.verify_context]
        omega
      have hcomputed : (e.computed.seqs old.seq).numComputedTokens =
          (s.seqs old.seq).numComputedTokens + kept.length := by rw [hw.seq_eq]
      have htable : (s.seqs old.seq).blockTable <+:
          (e.computed.seqs old.seq).blockTable := by
        obtain ⟨fresh, hfresh⟩ := hw.extends_table
        exact ⟨fresh, hfresh.symm⟩
      refine
        { seq_eq := hw.verify_seq, start_eq := hstart, context_le := ?_
          extends_table := htable, context_eq := ?_, slots_eq := ?_, capped := ?_ }
      · rw [hw.verify_context]
        exact Nat.le_add_right _ _
      · rw [hw.verify_context, hcomputed, hcontext]
      · have hpositions : record.verifyItem.positions = old.positions ++
            List.range' (s.seqs old.seq).numComputedTokens kept.length := by
          rw [ScheduledSeq.positions, ScheduledSeq.positions, hstart, hw.verify_num,
            ← List.range'_append_1, ScheduledSeq.start, Nat.sub_add_cancel hle, hcontext]
        rw [hw.verify_slots, hpositions, List.map_append, hok.placed.slots_eq]
        congr 1
        apply List.map_congr_left
        intro p hp
        have hlt : p < (s.seqs old.seq).numComputedTokens := by
          rw [← hcontext]
          exact (mem_positions.mp hp).2
        obtain ⟨b, hb, -⟩ := h.slot hok.running hlt
        exact (slotAt_extended htable (List.getElem?_eq_some_iff.mp hb).1).symm
      · intro cap hcap'
        rw [hcap] at hcap'
        obtain rfl := Option.some.inj hcap'
        refine ⟨Nat.le_add_right _ _, ?_⟩
        rw [hw.verify_context, hcontext]
        exact Nat.add_le_add_left (numAccepted_le _) _

namespace Outcome

variable (ho : Outcome sample draft verify s out e)

include ho

theorem entry {old : ScheduledSeq} (hold : old ∈ out.scheduled) :
    ∃ item ∈ e.batch, Ran sample draft verify s e old item := by
  obtain ⟨olds, hperm, hran⟩ := ho.ran
  exact Lib.related_left hran (hperm.mem_iff.mpr hold)

theorem origin {item : ScheduledSeq} (hitem : item ∈ e.batch) :
    ∃ old ∈ out.scheduled, Ran sample draft verify s e old item := by
  obtain ⟨olds, hperm, hran⟩ := ho.ran
  obtain ⟨old, hold, hr⟩ := Lib.related_right hran hitem
  exact ⟨old, hperm.mem_iff.mp hold, hr⟩

theorem pairs_running (hok : ∀ item ∈ out.scheduled, EntryOk s item) :
    ∀ p ∈ e.pairs, p.1 ∈ e.sched.running := by
  intro p hp
  have hne : tokensFor e.pairs p.1 ≠ [] := tokensFor_ne_nil.mpr (List.mem_map_of_mem hp)
  have hi : p.1 ∈ out.scheduled.map (·.seq) := by
    by_contra hi
    exact hne (ho.idle p.1 hi).2.1
  obtain ⟨item, hitem, hseq⟩ := List.mem_map.mp hi
  have hrun : e.sched.running = s.running := by rw [ho.sched_eq]
  rw [hrun, ← hseq]
  exact (hok item hitem).running

section Batch

variable (h : Inv s) (hok : ∀ item ∈ out.scheduled, EntryOk s item)

include h hok

theorem placed : ∀ item ∈ e.batch, Placed e.computed item := by
  intro item hitem
  obtain ⟨old, hold, hr⟩ := ho.origin hitem
  have hg := hr.grew h (hok old hold)
  refine { running := ?_, context_le := ?_, slots_eq := ?_, published := ?_ }
  · rw [hg.seq_eq, ho.running_eq]
    exact (hok old hold).running
  · rw [hg.seq_eq]
    exact hg.context_eq.le
  · rw [hg.seq_eq, ho.blockSize_eq]
    exact hg.slots_eq
  · rw [hg.seq_eq, ho.state_eq, ho.blockSize_eq, hg.start_eq]
    exact (hok old hold).published

theorem batch_nodup (hnd : (out.scheduled.map (·.seq)).Nodup) :
    (e.batch.map (·.seq)).Nodup := by
  obtain ⟨olds, hperm, hran⟩ := ho.ran
  have hseqs : olds.map (·.seq) = e.batch.map (·.seq) := by
    refine Lib.related_map_eq (Lib.related_mem hran) ?_
    rintro old item ⟨hold, -, hr⟩
    exact (hr.grew h (hok old (hperm.mem_iff.mp hold))).seq_eq.symm
  rw [← hseqs]
  exact (hperm.map _).nodup_iff.mpr hnd

/-- Tables only grow, and so do the computed counts of the forward pass. -/
theorem grows (i : SeqId) :
    (s.seqs i).blockTable <+: (e.computed.seqs i).blockTable ∧
      (s.seqs i).numComputedTokens ≤ (e.computed.seqs i).numComputedTokens := by
  by_cases hi : i ∈ out.scheduled.map (·.seq)
  · obtain ⟨old, hold, rfl⟩ := List.mem_map.mp hi
    obtain ⟨item, -, hr⟩ := ho.entry hold
    have hg := hr.grew h (hok old hold)
    refine ⟨hg.extends_table, ?_⟩
    rw [← hg.context_eq, ← (hok old hold).context_eq]
    exact hg.context_le
  · rw [(ho.idle i hi).2.2]
    exact ⟨List.prefix_refl _, le_rfl⟩

/-- A capped sequence is in the batch, up to its cap. -/
theorem capped {i : SeqId} {cap : ℕ} (hcap : e.caps i = some cap) :
    ∃ item ∈ e.batch, item.seq = i ∧ item.start ≤ (s.seqs i).numComputedTokens ∧
      (s.seqs i).numComputedTokens ≤ cap ∧ cap ≤ item.contextLen := by
  have hi : i ∈ out.scheduled.map (·.seq) := by
    by_contra hi
    rw [(ho.idle i hi).1] at hcap
    cases hcap
  obtain ⟨old, hold, rfl⟩ := List.mem_map.mp hi
  obtain ⟨item, hitem, hr⟩ := ho.entry hold
  have hg := hr.grew h (hok old hold)
  obtain ⟨hle, hcontext⟩ := hg.capped cap hcap
  refine ⟨item, hitem, hg.seq_eq, ?_, hle, hcontext⟩
  rw [hg.start_eq, ← (hok old hold).context_eq]
  exact Nat.sub_le _ _

theorem capsOk : CapsOk e.caps e.sched := by
  intro i cap hcap _
  obtain ⟨item, hitem, rfl, -, hle, hcontext⟩ := ho.capped h hok hcap
  have hplaced := ho.placed h hok item hitem
  have hbm : e.sched.blockManager = e.computed.blockManager := by rw [ho.sched_eq]
  obtain ⟨st, hst, -⟩ := hplaced.holds ho.computed_inv
  rw [ho.seqs_eq, hbm]
  refine ⟨hle, ?_⟩
  calc cap ≤ item.contextLen := hcontext
    _ ≤ (e.computed.seqs item.seq).numComputedTokens := hplaced.context_le
    _ ≤ _ := hst.covered

/-- The feedback returns, and every sequence is fed its own tokens. -/
theorem process_feedback [DecidableEq D] (stops : EngineStops) : ∃ s', process stops e = .ok s' ∧
    Feedback (engineRule stops) e.caps e.sched (tokensFor e.pairs) s' :=
  feedAll_spec (engineToken_feeds stops) e.pairs ho.sched_inv (ho.capsOk h hok)
    (fun p hp => Or.inl (ho.pairs_running hok p hp))
    (Or.inl fun t i tok => engineToken_skips stops t i tok)

/-- How far a sequence's count can get is what the forward pass computed of it. -/
theorem reach_le {i : SeqId} :
    reach e.caps i (s.seqs i) ≤ (e.computed.seqs i).numComputedTokens := by
  unfold reach
  apply max_le (ho.grows h hok i).2
  cases hcap : e.caps i with
  | none => exact Nat.zero_le _
  | some cap =>
      obtain ⟨item, hitem, rfl, -, -, hcontext⟩ := ho.capped h hok hcap
      exact hcontext.trans (ho.placed h hok item hitem).context_le

end Batch

end Outcome

/-! ## §2  The planned memory -/

/-- The text a sequence will have when everything is fed back. -/
def textAfter (e : Executed D W) (i : SeqId) : Sequence :=
  fullText (e.sched.seqs i) (tokensFor e.pairs i)

/-- The memory after the forward pass, had it computed the text to come, without the
rejected slots. -/
def plannedMem (ideal : Slot → Option Kv) (e : Executed D W) : Slot → Option Kv :=
  fun slot =>
    if slot ∈ rejectedSlots e then none
    else Lib.applyWrites ideal
      (valueWrites (fun item p => kvAt (textAfter e item.seq) p) e.batch) slot

namespace Outcome

variable (ho : Outcome sample draft verify s out e) (h : Inv s)
variable (hok : ∀ item ∈ out.scheduled, EntryOk s item)
variable (hnd : (out.scheduled.map (·.seq)).Nodup)

include ho

theorem numTokens_eq (i : SeqId) : (e.sched.seqs i).numTokens = (s.seqs i).numTokens := by
  rw [ho.seqs_eq]
  rfl

theorem kvAt_textAfter {i : SeqId} {p : ℕ} (hp : p < (s.seqs i).numTokens) :
    kvAt (textAfter e i) p = kvAt (s.seqs i) p := by
  rw [textAfter, kvAt_fullText]
  · rw [ho.seqs_eq]
    rfl
  · rw [ho.seqs_eq]
    exact hp

include h hok

/-- A rejected slot is that of a position past the cap. -/
theorem rejected {slot : Slot} (hslot : slot ∈ rejectedSlots e) :
    ∃ item ∈ e.batch, ∃ cap, e.caps item.seq = some cap ∧ ∃ p ∈ item.positions, cap ≤ p ∧
      slot = slotAt e.computed.blockManager.blockSize
        (e.computed.seqs item.seq).blockTable p := by
  obtain ⟨item, hitem, hslot⟩ := List.mem_flatMap.mp hslot
  cases hcap : e.caps item.seq with
  | none =>
      rw [hcap] at hslot
      cases hslot
  | some cap =>
      rw [hcap, (ho.placed h hok item hitem).slots_eq] at hslot
      simp only [← List.map_drop, ScheduledSeq.positions, List.drop_range'] at hslot
      obtain ⟨p, hp, rfl⟩ := List.mem_map.mp hslot
      rw [List.mem_range'_1] at hp
      refine ⟨item, hitem, cap, hcap, p, ?_, ?_, rfl⟩
      · rw [ScheduledSeq.positions, List.mem_range'_1]
        omega
      · omega

theorem rejected_written {slot : Slot} (hslot : slot ∈ rejectedSlots e) :
    slot ∈ e.batch.flatMap (·.slotMapping) := by
  obtain ⟨item, hitem, -, -, p, hp, -, rfl⟩ := ho.rejected h hok hslot
  exact (mem_slots (ho.placed h hok)).mpr ⟨item, hitem, p, hp, rfl⟩

/-- A position within reach is not rejected. -/
theorem not_rejected {i : SeqId} (hi : i ∈ s.running) {p : ℕ}
    (hp : p < reach e.caps i (s.seqs i)) :
    slotAt e.computed.blockManager.blockSize (e.computed.seqs i).blockTable p ∉
      rejectedSlots e := by
  intro hslot
  obtain ⟨item, hitem, cap, hcap, q, hq, hle, heq⟩ := ho.rejected h hok hslot
  have hi' : i ∈ e.computed.running := by
    rw [ho.running_eq]
    exact hi
  obtain ⟨rfl, rfl⟩ := (ho.placed h hok item hitem).inj ho.computed_inv hq hi'
    (hp.trans_le (ho.reach_le h hok)) heq.symm
  obtain ⟨-, -, -, -, hcomputed, -⟩ := ho.capped h hok hcap
  rw [reach, hcap, Option.getD_some, max_eq_right hcomputed] at hp
  omega

include hnd

variable {ideal : Slot → Option Kv}

/-- A position in reach that the forward pass computes. -/
theorem planned_computed {item : ScheduledSeq} (hitem : item ∈ e.batch) {p : ℕ}
    (hp : p ∈ item.positions) (hreach : p < reach e.caps item.seq (s.seqs item.seq)) :
    plannedMem ideal e (slotAt e.computed.blockManager.blockSize
      (e.computed.seqs item.seq).blockTable p) = some (kvAt (textAfter e item.seq) p) := by
  have hplaced := ho.placed h hok
  have hi : item.seq ∈ s.running := ho.running_eq ▸ (hplaced item hitem).running
  rw [plannedMem, if_neg (ho.not_rejected h hok hi hreach)]
  exact valueWrites_of_mem ho.computed_inv hplaced (ho.batch_nodup h hok hnd) hitem hp

/-- What the scheduler's plan holds at a computed position, the planned memory does. -/
theorem planned_old {i : SeqId} (hi : i ∈ s.running) {p : ℕ}
    (hp : p < (s.seqs i).numComputedTokens)
    (hold : Lib.applyWrites ideal (batchWrites s.seqs out.scheduled)
      (slotAt s.blockManager.blockSize (s.seqs i).blockTable p) =
        some (kvAt (s.seqs i) p)) :
    plannedMem ideal e (slotAt e.computed.blockManager.blockSize
      (e.computed.seqs i).blockTable p) = some (kvAt (textAfter e i) p) := by
  have hnum : p < (s.seqs i).numTokens := hp.trans_le (h.computed_le hi)
  have hreach : p < reach e.caps i (s.seqs i) := lt_max_of_lt_left hp
  by_cases hin : ∃ item ∈ e.batch, item.seq = i ∧ p ∈ item.positions
  · obtain ⟨item, hitem, rfl, hpos⟩ := hin
    exact ho.planned_computed h hok hnd hitem hpos hreach
  · -- nobody computes it in this step: it was in the pool before
    have hi' : i ∈ e.computed.running := ho.running_eq ▸ hi
    have hplaced := ho.placed h hok
    have hnot := not_mem_slots ho.computed_inv hplaced hi'
      (hp.trans_le (ho.grows h hok i).2) (fun item hitem hseq hpos =>
        hin ⟨item, hitem, hseq, hpos⟩)
    have hnotOld := not_mem_slots h (fun item hitem => (hok item hitem).placed) hi hp (by
      intro old hold hseq hpos
      obtain ⟨item, hitem, hr⟩ := ho.entry hold
      have hg := hr.grew h (hok old hold)
      rw [mem_positions] at hpos
      refine hin ⟨item, hitem, hg.seq_eq.trans hseq, ?_⟩
      rw [mem_positions, hg.start_eq]
      exact ⟨hpos.1, hpos.2.trans_le hg.context_le⟩)
    obtain ⟨b, hb, -⟩ := h.slot hi hp
    have hslot : slotAt e.computed.blockManager.blockSize (e.computed.seqs i).blockTable p =
        slotAt s.blockManager.blockSize (s.seqs i).blockTable p := by
      rw [ho.blockSize_eq]
      exact slotAt_extended (ho.grows h hok i).1 (List.getElem?_eq_some_iff.mp hb).1
    rw [batchWrites_eq, valueWrites_of_not_mem hnotOld] at hold
    rw [plannedMem, if_neg (ho.not_rejected h hok hi hreach), valueWrites_of_not_mem hnot,
      hslot, hold, ho.kvAt_textAfter hnum]

/-- The planned memory is what the feedback relies on. -/
theorem credited (hc : Contents s
      (Lib.applyWrites ideal (batchWrites s.seqs out.scheduled))) :
    Credited (plannedMem ideal e) (fun i => (e.computed.seqs i).blockTable) e.caps e.sched
      e.pairs where
  table_eq i _ := by rw [ho.seqs_eq]
  own i hi := by
    have hrun : e.sched.running = s.running := by rw [ho.sched_eq]
    have hbm : e.sched.blockManager = e.computed.blockManager := by rw [ho.sched_eq]
    rw [hrun] at hi
    have hreach : reach e.caps i (e.sched.seqs i) = reach e.caps i (s.seqs i) := by
      rw [ho.seqs_eq]
      rfl
    rw [hbm, hreach]
    intro p hp
    have hi' : i ∈ e.computed.running := ho.running_eq ▸ hi
    obtain ⟨b, hb, hslot⟩ := ho.computed_inv.slot hi' (hp.trans_le (ho.reach_le h hok))
    refine ⟨b, hb, ?_⟩
    rw [← hslot]
    by_cases hlt : p < (s.seqs i).numComputedTokens
    · obtain ⟨b', hb', hmem⟩ := hc.running i hi p hlt
      apply ho.planned_old h hok hnd hi hlt
      obtain ⟨b'', hb'', hslot'⟩ := h.slot hi hlt
      rw [hb'] at hb''
      obtain rfl := Option.some.inj hb''
      rw [hslot', hmem]
    · -- an accepted position
      cases hcap : e.caps i with
      | none =>
          rw [reach, hcap, Option.getD_none, Nat.max_zero] at hp
          exact absurd hp hlt
      | some cap =>
          obtain ⟨item, hitem, rfl, hstart, hle, hcontext⟩ := ho.capped h hok hcap
          apply ho.planned_computed h hok hnd hitem ?_ hp
          rw [reach, hcap, Option.getD_some, max_eq_right hle] at hp
          rw [mem_positions]
          exact ⟨hstart.trans (not_lt.mp hlt), hp.trans_le hcontext⟩
  index := by
    have hbm : e.sched.blockManager = e.computed.blockManager := by rw [ho.sched_eq]
    have hplaced := ho.placed h hok
    rw [hbm]
    intro b d hb
    have hbold := ho.indexed_of b d hb
    obtain ⟨toks, lora, k, hd, hlen, hstores⟩ := hc.index b d hbold
    rw [ho.blockSize_eq]
    refine ⟨toks, lora, k, hd, hlen, ?_⟩
    intro o hlt
    have hnot := indexed_not_mem_slots ho.computed_inv hplaced hb
      (by rw [ho.blockSize_eq]; exact hlt)
    have hnotOld := indexed_not_mem_slots h
      (fun item hitem => (hok item hitem).placed) hbold hlt
    have hvalue := hstores o hlt
    rw [batchWrites_eq, valueWrites_of_not_mem hnotOld] at hvalue
    rw [ho.blockSize_eq] at hnot
    rw [plannedMem, if_neg fun hslot => hnot (ho.rejected_written h hok hslot),
      valueWrites_of_not_mem hnot]
    exact hvalue

end Outcome

/-! ## §3  The pool -/

theorem tokenIds_textAfter (ho : Outcome sample draft verify s out e) (i : SeqId) :
    (textAfter e i).tokenIds = (s.seqs i).tokenIds ++ tokensFor e.pairs i := by
  simp [textAfter, fullText, ho.seqs_eq, Sequence.tokenIds]

theorem loraId_textAfter (ho : Outcome sample draft verify s out e) (i : SeqId) :
    (textAfter e i).loraId = (s.seqs i).loraId := by
  simp [textAfter, fullText, ho.seqs_eq]

/-- An entry that feeds the end of `text` computes the KV of `text`. -/
theorem fedAt_eq {seqs : SeqId → Sequence} {item : ScheduledSeq} (text : List TokenId)
    {p : ℕ} (hstart : (seqs item.seq).tokenIds.take item.start = text.take item.start)
    (htoks : item.tokenIds = text.drop item.start) (hp : item.start ≤ p) :
    fedAt seqs item p = (text.take (p + 1), (seqs item.seq).loraId) := by
  have hsplit : p + 1 = item.start + (p + 1 - item.start) := by omega
  rw [fedAt, hstart, htoks, ← List.take_add, ← hsplit]

/-- What a sequence was fed is its text to come, up to its cap, if it had exactly one
uncomputed token. -/
theorem Ran.fedAt_eq {old item : ScheduledSeq}
    (hr : Ran sample draft verify s e old item) (ho : Outcome sample draft verify s out e)
    (h : Inv s) (hok : EntryOk s old) {p : ℕ} (hp : p ∈ item.positions)
    (hone : ∀ cap, e.caps old.seq = some cap → OneUncomputed s old ∧ p < cap) :
    fedAt e.computed.seqs item p = kvAt (textAfter e old.seq) p := by
  rw [kvAt, tokenIds_textAfter ho, loraId_textAfter ho]
  obtain ⟨hstart, hcontext⟩ := mem_positions.mp hp
  have hnum := h.computed_le hok.running
  rw [← hok.context_eq] at hnum
  have hlen := Sequence.length_tokenIds (s.seqs old.seq)
  cases hr with
  | plain huncapped hseq hfed =>
      rw [Spec.fedAt_eq ((s.seqs old.seq).tokenIds.take old.contextLen) ?_ ?_ hstart]
      · rw [hseq, List.take_take, min_eq_left hcontext, List.take_append_of_le_length]
        omega
      · rw [hseq, List.take_take, min_eq_left (by omega)]
      · exact hok.tokens_eq
  | @verified kept record hdecode hnew hkept hw hcap hfed =>
      obtain ⟨hlast, hlt⟩ := hone _ hcap
      have hctx : old.contextLen = (s.seqs old.seq).numTokens := by
        have hle := old.le_contextLen
        have hs : old.start = old.contextLen - old.numNewTokens := rfl
        rw [OneUncomputed] at hlast
        omega
      have hrecord : record.verifyItem.start = old.start := by
        have hle := old.le_contextLen
        rw [ScheduledSeq.start, ScheduledSeq.start, hw.verify_num, hw.verify_context]
        omega
      have hbefore : old.start ≤ (s.seqs old.seq).tokenIds.length := by
        rw [hlen, hlast]
        exact Nat.le_succ _
      have htext : (e.computed.seqs old.seq).tokenIds = (s.seqs old.seq).tokenIds ++ kept := by
        rw [hw.seq_eq]
        simp [Sequence.tokenIds]
      rw [Spec.fedAt_eq ((s.seqs old.seq).tokenIds ++ kept) ?_ ?_ hstart]
      · rw [hfed, hw.verify_seq, Verification.tokens]
        obtain ⟨rest, hrest⟩ := (verify (e.computed.seqs old.seq) kept).accepted_isPrefix
        have hlora : (e.computed.seqs old.seq).loraId = (s.seqs old.seq).loraId := by
          rw [hw.seq_eq]
        have hin : p + 1 ≤ ((s.seqs old.seq).tokenIds ++
            (verify (e.computed.seqs old.seq) kept).acceptedTokens).length := by
          rw [List.length_append, hlen, ← hctx, hok.context_eq]
          exact hlt
        rw [hlora, ← List.append_assoc, List.take_append_of_le_length hin]
        congr 1
        conv_lhs => rw [← hrest, ← List.append_assoc]
        exact List.take_append_of_le_length hin
      · rw [hw.verify_seq, htext]
      · rw [hw.verify_tokens, hok.tokens_eq, hctx, ← hlen, List.take_length, hrecord,
          List.drop_append_of_le_length hbefore]

/-- The entry was speculated on with one uncomputed token, or not at all. -/
def Single (e : Executed D W) (item : ScheduledSeq) : Prop :=
  e.caps item.seq ≠ none → OneUncomputed e.sched item

namespace Outcome

variable (ho : Outcome sample draft verify s out e) (h : Inv s)
variable (hok : ∀ item ∈ out.scheduled, EntryOk s item)
variable (hnd : (out.scheduled.map (·.seq)).Nodup)
variable {ideal kv : Slot → Option Kv} {slot : Slot} {v : Kv}

include h hok

theorem single_iff {old item : ScheduledSeq} (hold : old ∈ out.scheduled)
    (hr : Ran sample draft verify s e old item) : Single e item ↔ Single e old := by
  have hg := hr.grew h (hok old hold)
  rw [Single, Single, OneUncomputed, OneUncomputed, hg.seq_eq, hg.start_eq]

include ho hnd

/-- The pool after the forward pass agrees with the planned memory. -/
theorem agrees (hkv : ∀ slot v, ideal slot = some v → kv slot = some v)
    (hplan : plannedMem ideal e slot = some v)
    (hsingle : ∀ item ∈ e.batch, slot ∈ item.slotMapping → Single e item) :
    Lib.applyWrites kv (valueWrites (fedAt e.computed.seqs) e.batch) slot = some v := by
  have hplaced := ho.placed h hok
  have hbatch := ho.batch_nodup h hok hnd
  unfold plannedMem at hplan
  split at hplan
  · cases hplan
  · next hrej =>
      by_cases hin : slot ∈ e.batch.flatMap (·.slotMapping)
      · obtain ⟨item, hitem, p, hp, rfl⟩ := (mem_slots hplaced).mp hin
        rw [valueWrites_of_mem ho.computed_inv hplaced hbatch hitem hp] at hplan ⊢
        obtain ⟨old, hold, hr⟩ := ho.origin hitem
        have hg := hr.grew h (hok old hold)
        rw [hr.fedAt_eq ho h (hok old hold) hp, ← hplan, hg.seq_eq]
        intro cap hcap
        constructor
        · have hone := (single_iff h hok hold hr).mp
            (hsingle item hitem (by
              rw [(hplaced item hitem).slots_eq]
              exact List.mem_map_of_mem hp)) (by rw [hcap]; simp)
          rw [OneUncomputed, ho.numTokens_eq] at hone
          exact hone
        · -- a position past the cap would be rejected
          by_contra hge
          apply hrej
          rw [rejectedSlots, List.mem_flatMap]
          refine ⟨item, hitem, ?_⟩
          rw [hg.seq_eq, hcap, (hplaced item hitem).slots_eq]
          simp only [← List.map_drop, ScheduledSeq.positions, List.drop_range', hg.seq_eq]
          refine List.mem_map_of_mem (List.mem_range'_1.mpr ?_)
          rw [ScheduledSeq.positions, List.mem_range'_1] at hp
          omega
      · rw [valueWrites_of_not_mem hin] at hplan ⊢
        exact hkv slot v hplan

end Outcome

end TurboServe.Spec
