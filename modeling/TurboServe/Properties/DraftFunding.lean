import TurboServe.Spec.Funding
import TurboServe.System.Runs

/-!
# Draft funding

The funding loop of a speculative step never runs out of blocks, preempts nobody and
keeps a prefix of each draft. It keeps the longest one the pool can hold exactly when
there is room for the blocks of the earlier drafts a second time: they are reserved
although `append_slots` has already taken them out of the pool.
-/

namespace TurboServe.Spec

open TurboServe.Core

variable {D W : Type} [BlockDigest D] [DecidableEq D] [VirtualTime W]

/-- What the batch runs for an entry: its own tokens and a prefix of its draft. -/
def DraftKept (e : ScheduledSeq × List TokenId) (record : Verified) : Prop :=
  record.numDrafted ≤ e.2.length ∧
    record.verifyItem.tokenIds = e.1.tokenIds ++ e.2.take record.numDrafted

/-- For every pool and every list of decoding sequences with their drafts: the loop
returns, queues and statuses stay, every draft keeps a prefix, and the prefixes are the
longest that fit, in order, exactly when the pool is roomy. -/
theorem draft_funding_iff {s : Scheduler D W} (h : Inv s)
    (entries : List (ScheduledSeq × List TokenId))
    (hrun : ∀ e ∈ entries, e.1.seq ∈ s.running)
    (hnd : (entries.map (·.1.seq)).Nodup) :
    ∃ records s', fundDecodes s 0 entries = .ok (records, s') ∧
      s' = { s with seqs := s'.seqs, blockManager := s'.blockManager } ∧
      (∀ j, (s'.seqs j).status = (s.seqs j).status) ∧
      List.Forall₂ DraftKept entries records ∧
      (records.map (·.numDrafted) = exactLengths s.blockManager.blockSize
          s.blockManager.allocator.numAllocatable (entries.map (demand s)) ↔
        Roomy s.blockManager.blockSize s.blockManager.allocator.numAllocatable 0
          (entries.map (demand s))) := by
  obtain ⟨records, s', hok, hfunded, hlengths⟩ := fundDecodes_spec h 0 entries hrun hnd
  refine ⟨records, s', hok, hfunded.same, hfunded.status, ?_, ?_⟩
  · refine hfunded.records.imp ?_
    rintro e record ⟨kept, hkept, hw⟩
    rw [DraftKept, hw.numDrafted_eq, hw.verify_tokens, ← List.prefix_iff_eq_take.mp hkept]
    exact ⟨hkept.length_le, rfl⟩
  · rw [hlengths]
    exact fundedLengths_eq_iff _ _ _ _

/-- Two requests in their first decode step: their next tokens are there. -/
def twoDecoding : List Op :=
  [.addRequest { requestId := "a", promptTokenIds := [1], tenantId := "x" },
    .addRequest { requestId := "b", promptTokenIds := [2], tenantId := "y" },
    .schedule, .appendToken 0 9 none, .appendToken 1 9 none]

/-- What the loop keeps of a draft of one token for each decoding sequence, and what
the pool could hold. -/
def keptAndExact (s : Scheduler D W) (entries : List (ScheduledSeq × List TokenId)) :
    Option (List ℕ) × List ℕ :=
  let kept := match fundDecodes s 0 entries with
    | .ok r => some (r.1.map (·.numDrafted))
    | .error _ => none
  (kept, exactLengths s.blockManager.blockSize s.blockManager.allocator.numAllocatable
    (entries.map (demand s)))

/-- The two requests in a pool of `numBlocks` blocks. -/
theorem twoDecoding_reachable (numBlocks : ℕ) (seen : Option (List ℕ) × List ℕ)
    (hrun : observe FreeDigest smallConfig numBlocks twoDecoding (fun _ out s =>
      let entries := out.scheduled.map fun item => (item, [5])
      (keptAndExact s entries, entries.map (·.1.seq), s.running)) =
        some (seen, [0, 1], [0, 1])) :
    ∃ (s : Scheduler FreeDigest ℚ) (entries : List (ScheduledSeq × List TokenId)),
      Reachable s ∧ (∀ e ∈ entries, e.1.seq ∈ s.running) ∧
        (entries.map (·.1.seq)).Nodup ∧ keptAndExact s entries = seen := by
  obtain ⟨s₀, out, s, h₀, hsch, hobs⟩ := observe_eq_some hrun
  have hreach : Reachable s := .step h₀ ⟨.schedule, rfl, by
    simp only [Op.run, hsch, bind, Except.bind]⟩
  have hids := congrArg (fun x => x.2.1) hobs
  have hrunning := congrArg (fun x => x.2.2) hobs
  simp only at hids hrunning
  refine ⟨s, out.scheduled.map fun item => (item, [5]), hreach, ?_, ?_,
    congrArg Prod.fst hobs⟩
  · intro e he
    rw [hrunning, ← hids]
    exact List.mem_map_of_mem he
  · rw [hids]
    decide

/-- With four blocks left there is room for both drafts, counted twice or not. -/
theorem draft_funding_roomy :
    ∃ (s : Scheduler FreeDigest ℚ) (entries : List (ScheduledSeq × List TokenId)),
      Reachable s ∧ ∃ records s', fundDecodes s 0 entries = .ok (records, s') ∧
        (records.map (·.numDrafted) = [1, 1] ↔
          Roomy s.blockManager.blockSize s.blockManager.allocator.numAllocatable 0
            (entries.map (demand s))) := by
  obtain ⟨s, entries, hs, hmem, hnd, hseen⟩ := twoDecoding_reachable 8
    (some [1, 1], [1, 1]) (by decide +kernel)
  obtain ⟨records, s', hok, -, -, -, hiff⟩ := draft_funding_iff hs.inv entries hmem hnd
  have hexact := congrArg Prod.snd hseen
  simp only [keptAndExact] at hexact
  rw [hexact] at hiff
  exact ⟨s, entries, hs, records, s', hok, hiff⟩

/-- With two blocks left the first draft takes its block, which the loop then reserves
once more, so that nothing is left for the second. -/
theorem draft_funding_strict :
    ∃ (s : Scheduler FreeDigest ℚ) (entries : List (ScheduledSeq × List TokenId)),
      Reachable s ∧ (∀ e ∈ entries, e.1.seq ∈ s.running) ∧
      (entries.map (·.1.seq)).Nodup ∧
      ∃ records s', fundDecodes s 0 entries = .ok (records, s') ∧
        records.map (·.numDrafted) = [1, 0] ∧
        exactLengths s.blockManager.blockSize s.blockManager.allocator.numAllocatable
          (entries.map (demand s)) = [1, 1] := by
  obtain ⟨s, entries, hs, hmem, hnd, hseen⟩ := twoDecoding_reachable 6
    (some [1, 0], [1, 1]) (by decide +kernel)
  have hkept := congrArg Prod.fst hseen
  have hexact := congrArg Prod.snd hseen
  simp only [keptAndExact] at hkept hexact
  refine ⟨s, entries, hs, hmem, hnd, ?_⟩
  cases hf : fundDecodes s 0 entries with
  | error e =>
      rw [hf] at hkept
      cases hkept
  | ok r =>
      rw [hf] at hkept
      exact ⟨r.1, r.2, rfl, Option.some.inj hkept, hexact⟩

end TurboServe.Spec
