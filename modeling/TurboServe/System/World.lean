import TurboServe.System.Content

/-!
# The scheduler and the KV pool together

A `World` is the scheduler, the KV pool, and the batch the forward pass still
owes. Its steps are the calls of the public interface, `schedule()` when no
batch is outstanding, and the forward pass of the outstanding batch: aborts and
new tokens may fall between the last two.
-/

namespace TurboServe.Core

variable {D W : Type} [BlockDigest D] [VirtualTime W]

/-! ## §1  Worlds -/

structure World (D W : Type) [VirtualTime W] where
  sched : Scheduler D W
  kv : Slot → Option Kv
  pending : Option SchedulerOutput

namespace World

/-- The forward pass of a batch: every new token's KV lands in its slot. -/
def forward (w : World D W) (out : SchedulerOutput) : World D W :=
  { w with
    kv := Lib.applyWrites w.kv (batchWrites w.sched.seqs out.scheduled)
    pending := none }

/-- The memory as it will be once the outstanding batch has run. -/
def effective (w : World D W) : Slot → Option Kv :=
  match w.pending with
  | none => w.kv
  | some out => (w.forward out).kv

inductive Step [DecidableEq D] : World D W → World D W → Prop where
  | call {w : World D W} (op : Op) {s' : Scheduler D W} (hop : op ≠ .schedule)
      (hadm : op.admissible w.sched = true) (hrun : op.run w.sched = .ok s') :
      Step w { w with sched := s' }
  | schedule {w : World D W} {out : SchedulerOutput} {s' : Scheduler D W}
      (hidle : w.pending = none) (hok : w.sched.schedule = .ok (out, s')) :
      Step w { w with sched := s', pending := some out }
  | forward {w : World D W} {out : SchedulerOutput} (hout : w.pending = some out) :
      Step w (w.forward out)

/-- Any constructed scheduler over a pool nobody has written to. -/
structure Start (w : World D W) : Prop where
  sched : Initial w.sched
  kv : ∀ slot, w.kv slot = none
  pending : w.pending = none

end World

/-- Serving with a KV pool. -/
def execution (D W : Type) [BlockDigest D] [DecidableEq D] [VirtualTime W] :
    Lib.TransitionSystem (World D W) where
  init := World.Start
  step := World.Step

def World.call [DecidableEq D] (w : World D W) (op : Op) : Option (World D W) :=
  if op.admissible w.sched then
    match op.run w.sched with
    | .ok s' => some { w with sched := s' }
    | .error _ => none
  else none

/-- One event of an execution: a call, or the forward pass. -/
def World.next [DecidableEq D] (w : World D W) : Option Op → Option (World D W)
  | none => w.pending.map w.forward
  | some .schedule =>
      match w.pending, w.sched.schedule with
      | none, .ok r => some { w with sched := r.2, pending := some r.1 }
      | _, _ => none
  | some op => w.call op

/-- A given list of events. -/
def World.events [DecidableEq D] (w : World D W) (es : List (Option Op)) : Option (World D W) :=
  es.foldlM World.next w

theorem World.Step.of_call [DecidableEq D] {w w' : World D W} (op : Op) (hop : op ≠ .schedule)
    (h : w.call op = some w') : World.Step w w' := by
  unfold World.call at h
  split at h
  · next hadm =>
      split at h
      · next s' hrun =>
          cases h
          exact .call op hop hadm hrun
      · cases h
  · cases h

theorem World.Step.of_next [DecidableEq D] {w w' : World D W} {e : Option Op}
    (h : w.next e = some w') :
    World.Step w w' := by
  cases e with
  | none =>
      obtain ⟨out, hout, rfl⟩ := Option.map_eq_some_iff.mp h
      exact .forward hout
  | some op =>
      cases op with
      | addRequest r => exact .of_call (.addRequest r) (by simp) h
      | addSequence r output => exact .of_call (.addSequence r output) (by simp) h
      | schedule =>
          simp only [World.next] at h
          split at h
          · next hidle hok =>
              cases h
              exact .schedule hidle hok
          · cases h
      | appendToken i tok eos =>
          exact .of_call (.appendToken i tok eos) (by simp) h
      | abort rid => exact .of_call (.abort rid) (by simp) h
      | finish i reason tok => exact .of_call (.finish i reason tok) (by simp) h
      | reset => exact .of_call .reset (by simp) h

theorem World.reachable_events [DecidableEq D] {w w' : World D W} (h : (execution D W).Reachable w)
    (es : List (Option Op)) (hes : w.events es = some w') :
    (execution D W).Reachable w' :=
  h.foldlM World.Step.of_next hes

/-! ## §2  What the calls leave alone -/

/-- A call between two steps only extends texts, retires running sequences, and
publishes what those had computed. -/
structure Kept (s s' : Scheduler D W) : Prop where
  blockSize_eq : s'.blockManager.blockSize = s.blockManager.blockSize
  counter_le : s.seqCounter ≤ s'.seqCounter
  text : ∀ i < s.seqCounter, (s.seqs i).tokenIds <+: (s'.seqs i).tokenIds ∧
    (s'.seqs i).loraId = (s.seqs i).loraId
  running : ∀ i ∈ s'.running, i ∈ s.running ∧
    (s'.seqs i).blockTable = (s.seqs i).blockTable ∧
    (s'.seqs i).numComputedTokens = (s.seqs i).numComputedTokens
  indexed_of : ∀ x e, s'.blockManager.allocator.indexed x = some e →
    s.blockManager.allocator.indexed x = some e ∨
      ∃ i ∈ s.running, Published s.blockManager (s.seqs i) x e

variable {s s' : Scheduler D W}

/-- A call that stores one sequence and touches neither the running ones nor the
block manager. -/
theorem Kept.of_stored (i : SeqId) (seq : Sequence)
    (hseqs : s'.seqs = Function.update s.seqs i seq)
    (htext : i < s.seqCounter → (s.seqs i).tokenIds <+: seq.tokenIds ∧
      seq.loraId = (s.seqs i).loraId)
    (hrun : s'.running = s.running)
    (hval : i ∈ s.running → seq.blockTable = (s.seqs i).blockTable ∧
      seq.numComputedTokens = (s.seqs i).numComputedTokens)
    (hbm : s'.blockManager = s.blockManager) (hcount : s.seqCounter ≤ s'.seqCounter) :
    Kept s s' where
  blockSize_eq := by rw [hbm]
  counter_le := hcount
  text j hj := by
    rw [hseqs]
    by_cases hji : j = i
    · subst hji
      rw [Function.update_self]
      exact htext hj
    · rw [Function.update_of_ne hji]
      exact ⟨List.prefix_refl _, rfl⟩
  running j hj := by
    rw [hrun] at hj
    refine ⟨hj, ?_⟩
    rw [hseqs]
    by_cases hji : j = i
    · subst hji
      rw [Function.update_self]
      exact hval hj
    · rw [Function.update_of_ne hji]
      exact ⟨rfl, rfl⟩
  indexed_of x e hx := Or.inl (by rwa [hbm] at hx)

theorem Kept.of_retired {i : SeqId} (reason : FinishReason) (tok : Option TokenId)
    (h : Inv s) (hr : Retired s i (finished (s.seqs i) reason tok) s') : Kept s s' where
  blockSize_eq := hr.frame.blockSize_eq
  counter_le := hr.counter_eq.ge
  text j hj := by
    rw [hr.seqs_eq]
    by_cases hji : j = i
    · rw [hji, Function.update_self]
      exact ⟨List.prefix_refl _, rfl⟩
    · rw [Function.update_of_ne hji]
      exact ⟨List.prefix_refl _, rfl⟩
  running j hj := by
    rw [(hr.seqs_of_mem h (mem_inFlight.mpr (Or.inl hj))).2]
    exact ⟨List.mem_of_mem_erase (hr.running_eq ▸ hj), rfl, rfl⟩
  indexed_of x e hx := (hr.indexed_of x e hx).imp_right fun ⟨hi, hp⟩ => ⟨i, hi, hp⟩

theorem Kept.of_added {seq : Sequence} (h : Inv s) (hid : seq.seqId = s.seqCounter)
    (hadd : Scheduler.addSequence { s with seqCounter := s.seqCounter + 1 } seq =
      .ok s') : Kept s s' := by
  obtain ⟨-, -, -, rfl⟩ := addSequence_ok hadd
  have hnot : seq.seqId ∉ s.running := fun hr =>
    h.counter_not_mem (hid ▸ mem_inFlight.mpr (Or.inl hr))
  exact .of_stored seq.seqId { seq with status := .waiting } rfl
          (fun hlt => absurd hlt (by rw [hid]; exact lt_irrefl _)) rfl
    (fun hr => absurd hr hnot) rfl (Nat.le_succ _)

theorem Kept.bumped (s : Scheduler D W) :
    Kept s { s with seqCounter := s.seqCounter + 1 } where
  blockSize_eq := rfl
  counter_le := Nat.le_succ _
  text _ _ := ⟨List.prefix_refl _, rfl⟩
  running _ hi := ⟨hi, rfl, rfl⟩
  indexed_of _ _ := Or.inl

theorem Kept.refl (s : Scheduler D W) : Kept s s where
  blockSize_eq := rfl
  counter_le := le_rfl
  text _ _ := ⟨List.prefix_refl _, rfl⟩
  running _ hi := ⟨hi, rfl, rfl⟩
  indexed_of _ _ := Or.inl

theorem addRequest_kept (h : Inv s) (r : Scheduler.Request) :
    Kept s (s.addRequest r).2 := by
  unfold Scheduler.addRequest
  split
  · exact .refl s
  · simp only
    split
    · exact .bumped s
    · next seq hseq =>
        split
        · exact .bumped s
        · next s'' hadd => exact .of_added h (Sequence.create_fresh hseq).seqId_eq hadd

theorem reset_kept (s : Scheduler D W) : Kept s s.reset where
  blockSize_eq := rfl
  counter_le := le_rfl
  text _ _ := ⟨List.prefix_refl _, rfl⟩
  running _ hi := by cases hi
  indexed_of x e hx := by
    rw [Scheduler.reset, reset_indexed] at hx
    cases hx

theorem appended_kept (s : Scheduler D W) (i : SeqId) (tok : TokenId) :
    Kept s (s.setSeq i (appended (s.seqs i) tok)) := by
  refine .of_stored i (appended (s.seqs i) tok) rfl (fun _ => ⟨?_, rfl⟩) rfl
    (fun _ => ⟨rfl, rfl⟩) rfl le_rfl
  exact ⟨[tok], by simp [Sequence.tokenIds]⟩

/-! ## §3  The invariant -/

/-- The pool holds what the scheduler relies on, and every outstanding entry
will read its own KV. -/
structure Sound (w : World D W) : Prop where
  inv : Inv w.sched
  contents : Contents w.sched w.effective
  batch : ∀ out, w.pending = some out → ∀ item ∈ out.scheduled,
    item.seq < w.sched.seqCounter ∧
      item.contextLen ≤ (w.sched.seqs item.seq).numTokens ∧
      Reads w.effective w.sched.blockManager.blockSize item.blockTable
        (w.sched.seqs item.seq) item.contextLen

variable {w : World D W}

theorem World.Start.sound (h : w.Start) : Sound w where
  inv := h.sched.inv
  contents := by
    obtain ⟨n, caching, hbm, hrun, -⟩ := h.sched.shape
    refine ⟨by simp [hrun], fun b d hb => ?_⟩
    rw [hbm] at hb
    cases caching <;>
      simp [BlockManager.create, BlockAllocator.new, BlockAllocator.indexed,
        PrefixCache.new] at hb
  batch out hout := by
    rw [h.pending] at hout
    cases hout

theorem Kept.kvAt_eq (hk : Kept w.sched s') {i : SeqId} (hi : i < w.sched.seqCounter)
    {p : ℕ} (hp : p < (w.sched.seqs i).numTokens) :
    kvAt (s'.seqs i) p = kvAt (w.sched.seqs i) p :=
  kvAt_prefix hp (hk.text i hi).1 (hk.text i hi).2

theorem Kept.numTokens_le (hk : Kept s s') {i : SeqId} (hi : i < s.seqCounter) :
    (s.seqs i).numTokens ≤ (s'.seqs i).numTokens := by
  rw [← Sequence.length_tokenIds, ← Sequence.length_tokenIds]
  exact (hk.text i hi).1.length_le

/-- A call that keeps texts and blocks keeps the world sound. -/
theorem Sound.kept (h : Sound w) (hk : Kept w.sched s') (hinv : Inv s') :
    Sound { w with sched := s' } := by
  have heff : World.effective { w with sched := s' } = w.effective := by
    unfold World.effective
    cases hout : w.pending with
    | none => rfl
    | some out =>
        refine congrArg (Lib.applyWrites w.kv) ?_
        refine batchWrites_congr fun item hitem p hp => ?_
        obtain ⟨hid, hle, -⟩ := h.batch out hout item hitem
        exact hk.kvAt_eq hid (hp.trans_le hle)
  refine ⟨hinv, ⟨fun i hi => ?_, ?_⟩, fun out hout item hitem => ?_⟩
  · obtain ⟨hi', htable, hcomp⟩ := hk.running i hi
    have hid := h.inv.counter i (mem_inFlight.mpr (Or.inl hi'))
    show Reads _ s'.blockManager.blockSize (s'.seqs i).blockTable _
      (s'.seqs i).numComputedTokens
    rw [heff, hk.blockSize_eq, htable, hcomp]
    refine (h.contents.running i hi').congr fun p hp => ?_
    exact hk.kvAt_eq hid (hp.trans_le (h.inv.computed_le hi'))
  · rw [heff]
    refine h.contents.index.publish h.inv.manager.blockSize_pos hk.blockSize_eq
      (P := fun seq => ∃ i ∈ w.sched.running, seq = w.sched.seqs i) ?_ fun x e hx =>
        (hk.indexed_of x e hx).imp_right fun ⟨i, hi, hp⟩ => ⟨_, ⟨i, hi, rfl⟩, hp⟩
    rintro seq ⟨i, hi, rfl⟩
    exact h.contents.readable h.inv hi
  · obtain ⟨hid, hle, hreads⟩ := h.batch out hout item hitem
    refine ⟨hid.trans_le hk.counter_le, hle.trans (hk.numTokens_le hid), ?_⟩
    rw [heff]
    show Reads _ s'.blockManager.blockSize _ _ _
    rw [hk.blockSize_eq]
    exact hreads.congr fun p hp => hk.kvAt_eq hid (hp.trans_le hle)

/-- Every call keeps the world sound. -/
theorem Sound.call [DecidableEq D] (h : Sound w) (op : Op) (hop : op ≠ .schedule)
    (hadm : op.admissible w.sched = true) (hrun : op.run w.sched = .ok s') :
    Sound { w with sched := s' } := by
  have hinv := op.run_inv h.inv hadm hrun
  cases op with
  | addRequest r =>
      cases hrun
      exact h.kept (addRequest_kept h.inv r) hinv
  | addSequence r output =>
      obtain ⟨seq, hseq, hadd⟩ := bind_ok hrun
      exact h.kept (.of_added h.inv (Sequence.create_fresh hseq).seqId_eq hadd) hinv
  | schedule => exact absurd rfl hop
  | appendToken i tok eos =>
      obtain ⟨r, ha, hr⟩ := bind_ok hrun
      cases hr
      obtain ⟨s'', hok, -, hnone, hsome⟩ :=
        appendToken_spec h.inv (of_decide_eq_true hadm) tok eos
      rw [ha] at hok
      cases hok
      have happ := h.kept (appended_kept w.sched i tok) (appended_inv h.inv i tok)
      rcases Option.eq_none_or_eq_some
        ((appended (w.sched.seqs i) tok).checkStop tok eos) with hstop | ⟨reason, hstop⟩
      · have hs' := hnone hstop
        rw [hs']
        exact happ
      · have hret := hsome reason hstop
        have hself : (w.sched.setSeq i (appended (w.sched.seqs i) tok)).seqs i =
            appended (w.sched.seqs i) tok := Function.update_self _ _ _
        refine happ.kept (.of_retired (i := i) reason
          (if reason = .stop then some tok else none) happ.inv ?_) hinv
        rw [hself]
        exact hret
  | abort rid =>
      obtain ⟨r, ha, hr⟩ := bind_ok hrun
      cases hr
      rcases abort_spec h.inv rid with ⟨-, hok⟩ | ⟨i, s'', -, -, hok, -, hret⟩
      · rw [ha] at hok
        cases hok
        exact h
      · rw [ha] at hok
        cases hok
        exact h.kept (.of_retired _ _ h.inv hret) hinv
  | finish i reason tok =>
      obtain ⟨s'', hok, -, hret⟩ :=
        finish_spec h.inv (of_decide_eq_true hadm) reason tok
      rw [show w.sched.finish i reason tok = .ok s' from hrun] at hok
      cases hok
      exact h.kept (.of_retired _ _ h.inv hret) hinv
  | reset =>
      cases hrun
      exact h.kept (reset_kept w.sched) hinv

theorem Sound.schedule [DecidableEq D] [CollisionFree D] {out : SchedulerOutput} (h : Sound w)
    (hidle : w.pending = none) (hok : w.sched.schedule = .ok (out, s')) :
    Sound { w with sched := s', pending := some out } := by
  have hrun := StepRun.of_schedule h.inv hok
  have hinv := hrun.inv h.inv
  have heff : w.effective = w.kv := by rw [World.effective, hidle]
  have hcontents := hrun.contents h.inv (heff ▸ h.contents)
  refine ⟨hinv, hcontents, fun out' hout item hitem => ?_⟩
  obtain rfl := Option.some.inj hout
  have hentry := hrun.entryOk h.inv hitem
  have hle := hinv.computed_le hentry.running
  refine ⟨hinv.counter _ (mem_inFlight.mpr (Or.inl hentry.running)),
    hentry.context_eq ▸ hle, ?_⟩
  rw [hentry.table_eq, hentry.context_eq]
  exact hcontents.running _ hentry.running

theorem Sound.forward {out : SchedulerOutput} (h : Sound w)
    (hout : w.pending = some out) : Sound (w.forward out) where
  inv := h.inv
  contents := by
    have heff : w.effective = (w.forward out).effective := by
      rw [World.effective, hout]
      rfl
    exact heff ▸ h.contents
  batch _ hnone := by cases hnone

theorem sound_invariant [DecidableEq D] [CollisionFree D] : (execution D W).Invariant Sound where
  init _ h := h.sound
  step _ _ _ h hs := by
    cases hs with
    | call op hop hadm hrun => exact h.call op hop hadm hrun
    | schedule hidle hok => exact h.schedule hidle hok
    | forward hout => exact h.forward hout

end TurboServe.Core
