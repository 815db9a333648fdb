import TurboServe.Spec.Credit

/-!
# Runs of the speculative engine

Along every run there is a memory that holds all the scheduler relies on and none of the
rejected slots. What the scheduler publishes is part of that memory, so a rejected draft
never gets into the prefix cache, whatever is speculated on. As long as speculation was
on sequences with one uncomputed token, the memory is part of the pool.
-/

namespace TurboServe.Spec

open TurboServe.Core SpecWorld

variable {D W : Type} [BlockDigest D] [DecidableEq D] [VirtualTime W]
variable {sample : Scheduler D W → ScheduledSeq → TokenId} {draft : SeqId → List TokenId}
variable {verify : Verifier} {s : Scheduler D W} {out : SchedulerOutput} {e : Executed D W}

/-! ## §1  One step -/

variable {maxBatchSize : Option ℕ} {stops : EngineStops} {s₀ s' : Scheduler D W}
variable {ideal : Slot → Option Kv}

namespace SpecWorld.EngineStep

variable (hstep : EngineStep maxBatchSize stops sample draft verify s₀ out s e s')
variable (h₀ : Inv s₀)

include hstep h₀

/-- The batch a step works on. -/
theorem batch : Inv s ∧ (∀ item ∈ out.scheduled, EntryOk s item) ∧
    (out.scheduled.map (·.seq)).Nodup := by
  have hrun := StepRun.of_schedule h₀ hstep.schedule
  obtain ⟨acc, rfl, hacc⟩ := hrun.stepInv h₀
  exact ⟨hacc.inv, hacc.entries, hacc.ids.nodup_iff.mpr hacc.nodup⟩

theorem outcome : Outcome sample draft verify s out e := by
  obtain ⟨h, hok, hnd⟩ := hstep.batch h₀
  exact execute_outcome h hok hnd hstep.execute

/-- What the feedback does to every sequence. -/
theorem feedback :
    Feedback (engineRule stops) e.caps e.sched (tokensFor e.pairs) s' := by
  obtain ⟨h, hok, hnd⟩ := hstep.batch h₀
  have ho := hstep.outcome h₀
  obtain ⟨s'', hprocess, hback⟩ := ho.process_feedback h hok stops
  have hsame : (Except.ok s'' : Except Fault (Scheduler D W)) = .ok s' :=
    hprocess.symm.trans hstep.process
  obtain rfl := Except.ok.inj hsame
  exact hback

/-- Over a memory that holds what the scheduler relies on, the feedback ends with one
that does. -/
theorem credited [CollisionFree D] (hc : Contents s₀ ideal) :
    Credited (plannedMem ideal e) (fun i => (e.computed.seqs i).blockTable) e.caps s' [] := by
  obtain ⟨h, hok, hnd⟩ := hstep.batch h₀
  have ho := hstep.outcome h₀
  have hplan := (StepRun.of_schedule h₀ hstep.schedule).contents h₀ hc
  obtain ⟨s'', hprocess, -, hcredited⟩ := process_credited ho.sched_inv (ho.capsOk h hok)
    (ho.pairs_running hok) (ho.credited h hok hnd hplan)
  rw [hstep.process] at hprocess
  obtain rfl := Except.ok.inj hprocess
  exact hcredited

end SpecWorld.EngineStep

/-- An engine step returns when every decode it schedules has one new token. -/
theorem engineStep_returns (h : Inv s₀) (hs : s₀.schedule = .ok (out, s))
    (hone : ∀ item ∈ out.scheduled, item.isPrefill = false → item.numNewTokens = 1)
    (maxBatchSize : Option ℕ) (stops : EngineStops)
    (sample : Scheduler D W → ScheduledSeq → TokenId) (draft : SeqId → List TokenId)
    (verify : Verifier) :
    ∃ e s', EngineStep maxBatchSize stops sample draft verify s₀ out s e s' := by
  obtain ⟨acc, rfl, hacc⟩ := (StepRun.of_schedule h hs).stepInv h
  have hnd := hacc.ids.nodup_iff.mpr hacc.nodup
  obtain ⟨e, hex⟩ := execute_returns maxBatchSize hacc.inv hacc.entries hnd hone sample
    draft verify
  have ho := execute_outcome hacc.inv hacc.entries hnd hex
  obtain ⟨s', hprocess, -⟩ := ho.process_feedback hacc.inv hacc.entries stops
  exact ⟨e, s', hs, hex, hprocess⟩

/-! ## §2  Runs -/

/-- A memory with everything the scheduler relies on: no rejected slot is part of it,
and after orderly speculation it is part of the pool. -/
structure Tracks (w : SpecWorld D W) (ideal : Slot → Option Kv) : Prop where
  contents : Contents w.sched ideal
  rejected : ∀ slot v, ideal slot = some v → w.rejected slot = false
  pool : w.orderly = true → ∀ slot v, ideal slot = some v → w.kv slot = some v

variable {w : SpecWorld D W}

omit [DecidableEq D] in
theorem SpecWorld.Start.tracks (h : w.Start) : Tracks w fun _ => none where
  contents := by
    have hstart : World.Start (⟨w.sched, fun _ => none, none⟩ : World D W) :=
      ⟨h.sched, fun _ => rfl, rfl⟩
    exact hstart.sound.contents
  rejected slot v hv := by cases hv
  pool _ slot v hv := by cases hv

theorem Tracks.call (ht : Tracks w ideal) (h : Inv w.sched) (op : Op)
    (hop : op ≠ .schedule) (hadm : op.admissible w.sched = true)
    (hrun : op.run w.sched = .ok s') : Tracks { w with sched := s' } ideal where
  contents := by
    have hsound : Sound (⟨w.sched, ideal, none⟩ : World D W) :=
      ⟨h, ht.contents, fun out hout => by cases hout⟩
    exact (hsound.call op hop hadm hrun).contents
  rejected := ht.rejected
  pool := ht.pool

theorem Tracks.engine [CollisionFree D] (ht : Tracks w ideal) (h : Inv w.sched)
    (hstep : EngineStep maxBatchSize stops sample draft verify w.sched out s e s') :
    Tracks (w.after out e s') (plannedMem ideal e) where
  contents := (hstep.credited h ht.contents).contents
  rejected slot v hv := by
    unfold plannedMem at hv
    split at hv
    · cases hv
    · next hrej =>
        simp only [SpecWorld.after, hrej, decide_false, Bool.false_or,
          Bool.and_eq_false_iff, decide_eq_false_iff_not, not_not]
        by_cases hin : slot ∈ e.batch.flatMap (·.slotMapping)
        · exact Or.inr hin
        · rw [valueWrites_of_not_mem hin] at hv
          exact Or.inl (ht.rejected slot v hv)
  pool horderly slot v hv := by
    obtain ⟨hs, hok, hnd⟩ := hstep.batch h
    have ho := hstep.outcome h
    rw [SpecWorld.after, Bool.and_eq_true, List.all_eq_true] at horderly
    refine ho.agrees hs hok hnd (ht.pool horderly.1) hv ?_
    intro item hitem _
    obtain ⟨old, hold, hr⟩ := ho.origin hitem
    rw [Outcome.single_iff hs hok hold hr]
    intro hcap
    have hone := horderly.2 old hold
    rw [Bool.or_eq_true, Option.isNone_iff_eq_none] at hone
    exact of_decide_eq_true (hone.resolve_left hcap)

theorem tracked_invariant [CollisionFree D] :
    (speculation D W maxBatchSize stops).Invariant fun w =>
      Inv w.sched ∧ ∃ ideal, Tracks w ideal where
  init _ h := ⟨h.sched.inv, _, h.tracks⟩
  step _ _ _ h hs := by
    obtain ⟨hinv, ideal, ht⟩ := h
    cases hs with
    | call op hop hadm hrun =>
        exact ⟨op.run_inv hinv hadm hrun, ideal, ht.call hinv op hop hadm hrun⟩
    | engine sample draft verify hstep =>
        exact ⟨(hstep.feedback hinv).inv, _, ht.engine hinv hstep⟩

/-- No block of the prefix index has a slot with the KV of a rejected draft token. -/
def NothingRejectedIndexed (w : SpecWorld D W) : Prop :=
  ∀ b d, w.sched.blockManager.allocator.indexed b = some d →
    ∀ o < w.sched.blockManager.blockSize,
      w.rejected (b * w.sched.blockManager.blockSize + o) = false

omit [DecidableEq D] in
theorem Tracks.nothingRejected (ht : Tracks w ideal) : NothingRejectedIndexed w := by
  intro b d hb o ho
  obtain ⟨toks, lora, k, -, -, hstores⟩ := ht.contents.index b d hb
  exact ht.rejected _ _ (hstores o ho)

end TurboServe.Spec
