import TurboServe.System.Runs
import TurboServe.Invariants.Writes

/-!
# Write exclusivity

The slots one batch writes are pairwise distinct, and each lies in a block whose
only holder is the entry writing it and which no digest points at.
-/

namespace TurboServe.Core

variable {D W : Type} [BlockDigest D] [DecidableEq D] [VirtualTime W]

/-- A slot of a batch entry, at the time the batch is about to run. -/
structure PrivateSlot (s : Scheduler D W) (item : ScheduledSeq) (slot : Slot) : Prop where
  refs_one : s.blockManager.allocator.refs (slot / s.blockManager.blockSize) = 1
  held : slot / s.blockManager.blockSize ∈ (s.seqs item.seq).blockTable
  only_holder : ∀ j ∈ s.inFlight,
    slot / s.blockManager.blockSize ∈ (s.seqs j).blockTable → j = item.seq
  unindexed : ∀ c, s.blockManager.prefixCache = some c →
    c.byBlock (slot / s.blockManager.blockSize) = none ∧
      ∀ d, c.byHash d ≠ some (slot / s.blockManager.blockSize)

omit [DecidableEq D] in
theorem EntryOk.privateSlot {s : Scheduler D W} {item : ScheduledSeq} (h : Inv s)
    (hok : EntryOk s item) {slot : Slot} (hslot : slot ∈ item.slotMapping) :
    PrivateSlot s item slot := by
  have hpos := h.manager.blockSize_pos
  rw [hok.slots_eq] at hslot
  obtain ⟨p, hp, rfl⟩ := List.mem_map.mp hslot
  obtain ⟨b, hb, hslot⟩ := hok.slot h (mem_positions.mp hp).2
  have hdiv : slotAt s.blockManager.blockSize item.blockTable p /
      s.blockManager.blockSize = b := by
    rw [hslot, Nat.add_comm, Nat.add_mul_div_right _ _ hpos,
      Nat.div_eq_of_lt (Nat.mod_lt _ hpos), Nat.zero_add]
  obtain ⟨hrefs, hidx⟩ := hok.written h hp hb
  have hbt : (s.seqs item.seq).blockTable[p / s.blockManager.blockSize]? = some b :=
    hok.table_eq ▸ hb
  refine ⟨by rw [hdiv, hrefs], by rw [hdiv]; exact List.mem_of_getElem? hbt, ?_, ?_⟩
  · intro j hj hmem
    rw [hdiv] at hmem
    obtain ⟨k, hk⟩ := List.mem_iff_getElem?.mp hmem
    rcases mem_inFlight.mp hj with hr | hrest
    · exact (h.unique_place hrefs hr hok.running hk hbt).1
    · rw [(h.idle j (List.mem_append.mpr hrest)).1] at hmem
      cases hmem
  · intro c hc
    rw [hdiv]
    rw [indexed_of_recycler hc] at hidx
    refine ⟨hidx, fun d hd => ?_⟩
    rw [((h.manager.pool.cache c hc).inverse b d).mpr hd] at hidx
    cases hidx

/-- Write exclusivity of every batch of every reachable state. -/
theorem writes_exclusive {s s' : Scheduler D W} {out : SchedulerOutput}
    (h : Reachable s) (hs : s.schedule = .ok (out, s')) :
    (out.scheduled.flatMap (·.slotMapping)).Nodup ∧
      ∀ item ∈ out.scheduled, ∀ slot ∈ item.slotMapping, PrivateSlot s' item slot := by
  have hrun := StepRun.of_schedule h.inv hs
  obtain ⟨acc, rfl, hstep⟩ := hrun.stepInv h.inv
  exact ⟨hstep.slots_nodup,
    fun item hitem slot hslot => (hstep.entries item hitem).privateSlot hstep.inv hslot⟩

/-- The third step of the small run writes one slot for each of two sequences. -/
theorem writes_exclusive_small :
    ∃ (s : Scheduler FreeDigest ℚ) (out : SchedulerOutput) (s' : Scheduler FreeDigest ℚ),
      s.schedule = .ok (out, s') ∧ out.scheduled.flatMap (·.slotMapping) = [4, 5] ∧
      ∀ item ∈ out.scheduled, ∀ slot ∈ item.slotMapping, PrivateSlot s' item slot := by
  have h : observe FreeDigest smallConfig 8 smallOps
      (fun _ out _ => out.scheduled.flatMap (·.slotMapping)) = some [4, 5] := by decide
  obtain ⟨s, out, s', hs, hok, hslots⟩ := observe_eq_some h
  exact ⟨s, out, s', hok, hslots, (writes_exclusive hs hok).2⟩

end TurboServe.Core
