import TurboServe.System.World

/-!
# KV content soundness and isolation

Every entry of every batch reads, after that batch's writes, the KV of its own
tokens under its own adapter.
-/

namespace TurboServe.Core

variable {D W : Type} [BlockDigest D] [DecidableEq D] [VirtualTime W]

/-- An entry reads its own KV from `kv`: at each position of its context the
slot its block table names holds that position's value. -/
def ReadsOwn (kv : Slot → Option Kv) (blockSize : ℕ) (seq : Sequence)
    (item : ScheduledSeq) : Prop :=
  ∀ p < item.contextLen, ∃ b, item.blockTable[p / blockSize]? = some b ∧
    kv (b * blockSize + p % blockSize) = some (seq.tokenIds.take (p + 1), seq.loraId)

/-- Content soundness of every batch of every execution, in the memory its
forward pass leaves. -/
theorem kv_sound [CollisionFree D] {w : World D W} {out : SchedulerOutput}
    (h : (execution D W).Reachable w) (hout : w.pending = some out) :
    ∀ item ∈ out.scheduled, ReadsOwn (w.forward out).kv
      w.sched.blockManager.blockSize (w.sched.seqs item.seq) item := by
  intro item hitem
  have hsound := sound_invariant.reachable h
  obtain ⟨-, -, hreads⟩ := hsound.batch out hout item hitem
  rw [World.effective, hout] at hreads
  exact hreads

/-- One request computes its prompt; a second one with the same prompt is
admitted on the blocks the first has published. -/
def sharedPrompt : List (Option Op) :=
  [some (.addRequest { requestId := "a", promptTokenIds := [1, 2, 3], tenantId := "x" }),
    some .schedule, none, some .schedule, none,
    some (.addRequest { requestId := "b", promptTokenIds := [1, 2, 3], tenantId := "y" }),
    some (.appendToken 0 9 none), some .schedule]

/-- The last batch of the shared run: the first request decodes, the second
reads the blocks of the first. -/
theorem kv_sound_shared :
    ∃ (w : World FreeDigest ℚ) (out : SchedulerOutput),
      w.pending = some out ∧
      out.scheduled.map (·.blockTable) = [[0, 1, 4], [0, 1, 2, 3]] ∧
      ∀ item ∈ out.scheduled, ReadsOwn (w.forward out).kv
        w.sched.blockManager.blockSize (w.sched.seqs item.seq) item := by
  have hrun : ∃ w : World FreeDigest ℚ,
      World.events ⟨fresh FreeDigest smallConfig 8, fun _ => none, none⟩ sharedPrompt =
        some w ∧ w.pending.map (fun out => out.scheduled.map (·.blockTable)) =
          some [[0, 1, 4], [0, 1, 2, 3]] := by
    have h : (World.events ⟨fresh FreeDigest smallConfig 8, fun _ => none, none⟩
        sharedPrompt).bind (fun w => w.pending.map fun out =>
          out.scheduled.map (·.blockTable)) = some [[0, 1, 4], [0, 1, 2, 3]] := by
      decide
    obtain ⟨w, hw, hout⟩ := Option.bind_eq_some_iff.mp h
    exact ⟨w, hw, hout⟩
  obtain ⟨w, hw, hout⟩ := hrun
  obtain ⟨out, hpending, htables⟩ := Option.map_eq_some_iff.mp hout
  have hstart : (execution FreeDigest ℚ).Reachable
      ⟨fresh FreeDigest smallConfig 8, fun _ => none, none⟩ := by
    refine .init ⟨?_, fun _ => rfl, rfl⟩
    exact fresh_initial smallConfig 8
  exact ⟨w, out, hpending, htables,
    kv_sound (World.reachable_events hstart sharedPrompt hw) hpending⟩

end TurboServe.Core
