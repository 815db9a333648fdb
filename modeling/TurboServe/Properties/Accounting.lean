import TurboServe.System.Runs

/-!
# Block accounting is exact

In every reachable state the pool, the prefix cache and the block tables of the
in-flight sequences agree: no block is leaked, and none has two owners that do
not know of each other.
-/

namespace TurboServe.Core

variable {D W : Type} [BlockDigest D] [DecidableEq D] [VirtualTime W]

/-- How many in-flight sequences have the block in their table. -/
def Scheduler.holders (s : Scheduler D W) (b : BlockId) : ℕ :=
  s.inFlight.countP fun i => decide (b ∈ (s.seqs i).blockTable)

/-- `check_invariants` of the allocator, of the prefix cache and of the block
manager together. -/
structure Accounted (s : Scheduler D W) : Prop where
  /-- free, retained and referenced partition the pool -/
  partition : ∀ b, b < s.blockManager.allocator.numBlocks ↔
    b ∈ s.blockManager.allocator.free ∨ b ∈ s.blockManager.allocator.retained ∨
      0 < s.blockManager.allocator.refs b
  free_once : s.blockManager.allocator.free.Nodup
  free_only : ∀ b ∈ s.blockManager.allocator.free,
    b ∉ s.blockManager.allocator.retained ∧ s.blockManager.allocator.refs b = 0
  retained_only : ∀ b ∈ s.blockManager.allocator.retained,
    s.blockManager.allocator.refs b = 0
  refs_eq : ∀ b, s.blockManager.allocator.refs b = s.holders b
  table_nodup : ∀ i ∈ s.inFlight, (s.seqs i).blockTable.Nodup
  retained_evictable : ∀ c, s.blockManager.prefixCache = some c →
    c.evictable.Nodup ∧
      ∀ b, b ∈ s.blockManager.allocator.retained ↔ b ∈ c.evictable
  retained_none : s.blockManager.prefixCache = none →
    s.blockManager.allocator.retained = ∅
  indexed_not_free : ∀ c, s.blockManager.prefixCache = some c →
    ∀ b d, c.byBlock b = some d → b ∉ s.blockManager.allocator.free
  inverse : ∀ c, s.blockManager.prefixCache = some c →
    ∀ b d, c.byBlock b = some d ↔ c.byHash d = some b
  holders_run : ∀ i ∈ s.inFlight, (s.seqs i).blockTable ≠ [] → i ∈ s.running
  quiet : s.running = [] → ∀ b < s.blockManager.allocator.numBlocks,
    b ∈ s.blockManager.allocator.free ∨ b ∈ s.blockManager.allocator.retained

/-- With tables free of duplicates, a block is counted once per holder. -/
theorem count_heldBlocks {seqs : SeqId → Sequence} {l : List SeqId} (b : BlockId)
    (hnd : ∀ i ∈ l, (seqs i).blockTable.Nodup) :
    (heldBlocks (l.map seqs)).count b =
      l.countP fun i => decide (b ∈ (seqs i).blockTable) := by
  induction l with
  | nil => rfl
  | cons i l ih =>
      have ih' := ih fun j hj => hnd j (List.mem_cons_of_mem _ hj)
      rw [List.map_cons, heldBlocks_cons, Multiset.count_add, ih', List.countP_cons,
        Multiset.coe_count, Nat.add_comm]
      congr 1
      by_cases hb : b ∈ (seqs i).blockTable
      · simp [hb, List.count_eq_one_of_mem (hnd i List.mem_cons_self) hb]
      · simp [hb, List.count_eq_zero_of_not_mem hb]

omit [DecidableEq D] in
/-- Only running sequences count as holders. -/
theorem Inv.holders_eq {s : Scheduler D W} (h : Inv s) (b : BlockId) :
    s.holders b = s.running.countP fun i => decide (b ∈ (s.seqs i).blockTable) := by
  have hidle : (s.preempted ++ s.waiting.toList).countP
      (fun i => decide (b ∈ (s.seqs i).blockTable)) = 0 := by
    rw [List.countP_eq_zero]
    intro i hi
    simp [(h.idle i hi).1]
  rw [Scheduler.holders, Scheduler.inFlight, List.countP_append, hidle, Nat.add_zero]

omit [DecidableEq D] in
theorem Inv.accounted [CollisionFree D] {s : Scheduler D W} (h : Inv s) :
    Accounted s := by
  have hpool := h.manager.pool
  have hnd : ∀ i ∈ s.running, (s.seqs i).blockTable.Nodup := by
    intro i hi
    obtain ⟨st, hst⟩ := h.manager.holds (s.seqs i) (List.mem_map_of_mem hi)
    exact hst.table_nodup inferInstance
  have hrefs_pos : ∀ b, 0 < s.blockManager.allocator.refs b ↔
      b ∈ heldBlocks s.runningSeqs := by
    intro b
    rw [hpool.refs_eq, Multiset.count_pos]
  refine
    { partition := fun b => by rw [hrefs_pos]; exact hpool.lt_iff b
      free_once := hpool.free_nodup
      free_only := fun b hb =>
        ⟨hpool.free_retained b hb, (hpool.refs_zero_iff b).mpr (hpool.free_held b hb)⟩
      retained_only := fun b hb =>
        (hpool.refs_zero_iff b).mpr (hpool.retained_held b hb)
      refs_eq := fun b => by
        rw [hpool.refs_eq, h.holders_eq]
        exact count_heldBlocks b hnd
      table_nodup := ?_
      retained_evictable := fun c hc => ?_
      retained_none := hpool.retained_none
      indexed_not_free := fun c hc b d hb hf => ?_
      inverse := fun c hc => (hpool.cache c hc).inverse
      holders_run := ?_
      quiet := fun hrun b hb => ?_ }
  · intro i hi
    rcases mem_inFlight.mp hi with hr | hrest
    · exact hnd i hr
    · rw [(h.idle i (List.mem_append.mpr hrest)).1]
      exact List.nodup_nil
  · have hcache := hpool.cache c hc
    exact ⟨hcache.evictable_nodup, fun b => (hcache.mem_evictable b).symm⟩
  · rw [(hpool.cache c hc).free_unindexed b hf] at hb
    cases hb
  · intro i hi hne
    rcases mem_inFlight.mp hi with hr | hrest
    · exact hr
    · exact absurd (h.idle i (List.mem_append.mpr hrest)).1 hne
  · rcases (hpool.lt_iff b).mp hb with hf | hr | hheld
    · exact Or.inl hf
    · exact Or.inr hr
    · simp [Scheduler.runningSeqs, hrun] at hheld

/-- Accounting is exact in every reachable state. -/
theorem accounting_exact [CollisionFree D] {s : Scheduler D W} (h : Reachable s) :
    Accounted s :=
  h.inv.accounted

/-- After a step that preempted: two sequences had grown into four blocks. -/
theorem accounting_exact_small :
    ∃ s : Scheduler FreeDigest ℚ, s.preempted = [1] ∧ Accounted s := by
  have h : observe FreeDigest smallConfig 4 (smallOps ++ [.schedule])
      (fun s _ _ => s.preempted) = some [1] := by decide
  obtain ⟨s, out, s', hs, -, hpre⟩ := observe_eq_some h
  exact ⟨s, hpre, accounting_exact hs⟩

end TurboServe.Core
