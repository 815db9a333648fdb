import TurboServe.Spec.Feedback
import TurboServe.Spec.Outcome
import TurboServe.System.World

/-!
# The speculative engine and its KV pool

A `SpecWorld` is the scheduler and the KV pool between two steps of the speculative
engine, with two ghosts: the slots that hold the KV of a rejected draft token, and
whether all speculation so far was on sequences with one uncomputed token. Its steps are
the calls of the scheduler's interface and whole engine steps: `schedule()`, the forward
pass with whatever drafts and verdicts, and the feedback.
-/

namespace TurboServe.Spec

open TurboServe.Core

variable {D W : Type} [BlockDigest D] [DecidableEq D] [VirtualTime W]

/-! ## §1  What a forward pass writes -/

/-- The KV computed at position `p` of an entry: that of the sequence's tokens before
the entry, then the tokens the entry feeds. -/
def fedAt (seqs : SeqId → Sequence) (item : ScheduledSeq) (p : ℕ) : Kv :=
  ((seqs item.seq).tokenIds.take item.start ++ item.tokenIds.take (p + 1 - item.start),
    (seqs item.seq).loraId)

/-- The writes of a batch that computes `value item p` at position `p` of `item`. -/
def valueWrites (value : ScheduledSeq → ℕ → Kv) (items : List ScheduledSeq) :
    List (Slot × Kv) :=
  items.flatMap fun item =>
    (item.slotMapping.zip item.positions).map fun w => (w.1, value item w.2)

/-- The slots of draft tokens the verdicts rejected. -/
def rejectedSlots (e : Executed D W) : List Slot :=
  e.batch.flatMap fun item =>
    match e.caps item.seq with
    | none => []
    | some cap => item.slotMapping.drop (cap - item.start)

/-! ## §2  Worlds -/

structure SpecWorld (D W : Type) [VirtualTime W] where
  sched : Scheduler D W
  kv : Slot → Option Kv
  rejected : Slot → Bool
  orderly : Bool

/-- A sequence was scheduled with exactly one uncomputed token. -/
def OneUncomputed (s : Scheduler D W) (item : ScheduledSeq) : Prop :=
  (s.seqs item.seq).numTokens = item.start + 1

instance (s : Scheduler D W) (item : ScheduledSeq) : Decidable (OneUncomputed s item) :=
  inferInstanceAs (Decidable (_ = _))

namespace SpecWorld

/-- The world after an engine step that picked `out`, ran it as `e` and fed back to
`s'`. -/
def after (w : SpecWorld D W) (out : SchedulerOutput) (e : Executed D W)
    (s' : Scheduler D W) : SpecWorld D W where
  sched := s'
  kv := Lib.applyWrites w.kv (valueWrites (fedAt e.computed.seqs) e.batch)
  rejected slot := decide (slot ∈ rejectedSlots e) ||
    (w.rejected slot && decide (slot ∉ e.batch.flatMap (·.slotMapping)))
  orderly := w.orderly && out.scheduled.all fun item =>
    (e.caps item.seq).isNone || decide (OneUncomputed e.sched item)

/-- One step of the engine, with the drafts and the verdicts given. -/
structure EngineStep (maxBatchSize : Option ℕ) (stops : EngineStops)
    (sample : Scheduler D W → ScheduledSeq → TokenId) (draft : SeqId → List TokenId)
    (verify : Verifier) (s : Scheduler D W) (out : SchedulerOutput)
    (s₁ : Scheduler D W) (e : Executed D W) (s' : Scheduler D W) : Prop where
  schedule : s.schedule = .ok (out, s₁)
  execute : execute maxBatchSize sample draft verify s₁ out = .ok e
  process : process stops e = .ok s'

inductive Step (maxBatchSize : Option ℕ) (stops : EngineStops) :
    SpecWorld D W → SpecWorld D W → Prop where
  | call {w : SpecWorld D W} (op : Op) {s' : Scheduler D W} (hop : op ≠ .schedule)
      (hadm : op.admissible w.sched = true) (hrun : op.run w.sched = .ok s') :
      Step maxBatchSize stops w { w with sched := s' }
  | engine {w : SpecWorld D W} (sample : Scheduler D W → ScheduledSeq → TokenId)
      (draft : SeqId → List TokenId) (verify : Verifier) {out : SchedulerOutput}
      {s₁ : Scheduler D W} {e : Executed D W} {s' : Scheduler D W}
      (h : EngineStep maxBatchSize stops sample draft verify w.sched out s₁ e s') :
      Step maxBatchSize stops w (w.after out e s')

/-- Any constructed scheduler over a pool nobody has written to. -/
structure Start (w : SpecWorld D W) : Prop where
  sched : Initial w.sched
  kv : ∀ slot, w.kv slot = none
  rejected : ∀ slot, w.rejected slot = false
  orderly : w.orderly = true

end SpecWorld

/-- Serving with speculation. -/
def speculation (D W : Type) [BlockDigest D] [DecidableEq D] [VirtualTime W]
    (maxBatchSize : Option ℕ) (stops : EngineStops) :
    Lib.TransitionSystem (SpecWorld D W) where
  init := SpecWorld.Start
  step := SpecWorld.Step maxBatchSize stops

/-! ## §3  Reading what was written -/

section Written

variable {s : Scheduler D W} {items : List ScheduledSeq} {mem : Slot → Option Kv}
variable {value : ScheduledSeq → ℕ → Kv}

theorem map_fst_valueWrites (value : ScheduledSeq → ℕ → Kv) (items : List ScheduledSeq) :
    (valueWrites value items).map Prod.fst = items.flatMap (·.slotMapping) := by
  rw [valueWrites, List.map_flatMap]
  apply List.flatMap_congr
  intro item _
  rw [List.map_map]
  show (item.slotMapping.zip item.positions).map Prod.fst = _
  rw [List.map_fst_zip]
  rw [length_positions, item.length_slotMapping]

theorem batchWrites_eq (seqs : SeqId → Sequence) (items : List ScheduledSeq) :
    batchWrites seqs items = valueWrites (fun item p => kvAt (seqs item.seq) p) items := rfl

/-- A slot no entry has is as it was. -/
theorem valueWrites_of_not_mem {slot : Slot}
    (h : slot ∉ items.flatMap (·.slotMapping)) :
    Lib.applyWrites mem (valueWrites value items) slot = mem slot := by
  apply Lib.applyWrites_of_not_mem
  rw [map_fst_valueWrites]
  exact h

omit [DecidableEq D] in
/-- The slot of a position holds what the entry computed there. -/
theorem valueWrites_of_mem (h : Inv s) (hitems : ∀ item ∈ items, Placed s item)
    (hnd : (items.map (·.seq)).Nodup) {item : ScheduledSeq} (hitem : item ∈ items) {p : ℕ}
    (hp : p ∈ item.positions) :
    Lib.applyWrites mem (valueWrites value items)
        (slotAt s.blockManager.blockSize (s.seqs item.seq).blockTable p) =
      some (value item p) := by
  apply Lib.applyWrites_of_mem
  · rw [map_fst_valueWrites]
    exact placed_nodup h hitems hnd
  · rw [valueWrites, List.mem_flatMap]
    refine ⟨item, hitem, List.mem_map.mpr ⟨(_, p), ?_, rfl⟩⟩
    rw [(hitems item hitem).slots_eq, List.zip_map_left]
    exact List.mem_map.mpr ⟨(p, p), mem_zip_self hp, rfl⟩

end Written

end TurboServe.Spec
