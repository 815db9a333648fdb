import TurboServe.System.Runs
import TurboServe.Lib.MinBy

/-!
# Preemption and priority

`_pick_victim` never considers the sequence that asks for room. Among the others that
are running and not yet in the batch it takes one of least priority, so the victim's
priority is no higher than the requester's exactly when some other candidate's is not:
a requester below all of them takes blocks from a sequence of higher priority.

`Scheduler.evictions` lists the decisions of one `schedule()` in order, each with the
scheduler it was made in; it follows the recursion of the step and its victims are the
step's `preempted` output.
-/

namespace TurboServe.Core

variable {D W : Type} [BlockDigest D] [DecidableEq D] [VirtualTime W]

/-! ## §1  The preemptions of a step -/

/-- One preemption: `victim` was sent back to the queue while room was made for
`requester`, itself if nobody else was left. -/
structure Eviction (D W : Type) [VirtualTime W] where
  before : Scheduler D W
  acc : StepAcc
  requester : SeqId
  victim : SeqId

namespace Scheduler

/-- The preemptions of `_make_room`. -/
def makeRoomEvictions (s : Scheduler D W) (acc : StepAcc) (i : SeqId) (n : ℕ) :
    ℕ → List (Eviction D W)
  | 0 => []
  | fuel + 1 =>
      if s.blockManager.canAppend (s.seqs i) n then []
      else
        match s.pickVictim acc i with
        | none => [⟨s, acc, i, i⟩]
        | some victim =>
            ⟨s, acc, i, victim⟩ ::
              match s.preempt acc victim with
              | .ok r => makeRoomEvictions r.1 r.2 i n fuel
              | .error _ => []

/-- The preemptions of `_schedule_running`. -/
def runningEvictions (s : Scheduler D W) (acc : StepAcc) :
    List SeqId → List (Eviction D W)
  | [] => []
  | i :: rest =>
      if acc.budget.exhausted then []
      else if (s.seqs i).status ≠ .running then runningEvictions s acc rest
      else
        let n := (s.seqs i).numNewTokensToCompute acc.budget.tokens
        if s.mayRun (s.seqs i) n = false then runningEvictions s acc rest
        else
          s.makeRoomEvictions acc i n (s.running.length + 1) ++
            match s.makeRoom acc i n (s.running.length + 1) with
            | .ok (true, s₁, acc₁) =>
                match s₁.emit acc₁ i n 0 with
                | .ok r => runningEvictions r.1 r.2 rest
                | .error _ => []
            | .ok (false, s₁, acc₁) => runningEvictions s₁ acc₁ rest
            | .error _ => []

/-- The preemptions of `schedule()`, in order. -/
def evictions (s : Scheduler D W) : List (Eviction D W) :=
  match s.publishAll s.running with
  | .ok s₀ => s₀.runningEvictions (StepAcc.init s.config) s₀.running
  | .error _ => []

variable {s : Scheduler D W} {acc : StepAcc}

theorem preempt_preempted {i : SeqId} {r : Scheduler D W × StepAcc}
    (h : s.preempt acc i = .ok r) : r.2.preempted = acc.preempted ++ [i] := by
  obtain ⟨freed, -, h⟩ := bind_ok h
  cases h
  rfl

omit [BlockDigest D] in
theorem emit_preempted {i : SeqId} {n cached : ℕ} {r : Scheduler D W × StepAcc}
    (h : s.emit acc i n cached = .ok r) : r.2.preempted = acc.preempted := by
  obtain ⟨grown, -, h⟩ := bind_ok h
  obtain ⟨toks, -, h⟩ := bind_ok h
  obtain ⟨item, -, h⟩ := bind_ok h
  obtain ⟨seq, -, h⟩ := bind_ok h
  cases h
  rfl

theorem makeRoom_preempted {i : SeqId} {n : ℕ} (fuel : ℕ)
    {r : Bool × Scheduler D W × StepAcc} (h : s.makeRoom acc i n fuel = .ok r) :
    r.2.2.preempted =
      acc.preempted ++ (s.makeRoomEvictions acc i n fuel).map (·.victim) := by
  induction fuel generalizing s acc with
  | zero => cases h
  | succ fuel ih =>
      rw [makeRoom] at h
      rw [makeRoomEvictions]
      split at h
      · next hcan =>
          cases h
          rw [if_pos hcan]
          exact (List.append_nil _).symm
      · next hcan =>
          rw [if_neg hcan]
          revert h
          cases s.pickVictim acc i with
          | none =>
              intro h
              obtain ⟨r', hpre, h⟩ := bind_ok h
              cases h
              exact preempt_preempted hpre
          | some victim =>
              intro h
              obtain ⟨r', hpre, h⟩ := bind_ok h
              simp only [hpre, List.map_cons]
              rw [ih h, preempt_preempted hpre, List.append_assoc]
              rfl

theorem scheduleRunning_preempted (l : List SeqId) {r : Scheduler D W × StepAcc}
    (h : s.scheduleRunning acc l = .ok r) :
    r.2.preempted = acc.preempted ++ (s.runningEvictions acc l).map (·.victim) := by
  induction l generalizing s acc with
  | nil =>
      cases h
      exact (List.append_nil _).symm
  | cons i rest ih =>
      rw [scheduleRunning] at h
      rw [runningEvictions]
      split at h
      · next hb =>
          cases h
          rw [if_pos hb]
          exact (List.append_nil _).symm
      · next hb =>
          rw [if_neg hb]
          split at h
          · next hst =>
              rw [if_pos hst]
              exact ih h
          · next hst =>
              rw [if_neg hst]
              simp only at h ⊢
              split at h
              · next hmay =>
                  rw [if_pos hmay]
                  exact ih h
              · next hmay =>
                  rw [if_neg hmay]
                  obtain ⟨⟨room, s₁, acc₁⟩, hroom, h⟩ := bind_ok h
                  have hmade := makeRoom_preempted _ hroom
                  rw [hroom, List.map_append, ← List.append_assoc, ← hmade]
                  cases room with
                  | true =>
                      obtain ⟨r', hemit, h⟩ := bind_ok h
                      simp only [hemit]
                      rw [ih h, emit_preempted hemit]
                  | false => exact ih h

theorem scheduleAdmissions_preempted (fuel : ℕ) {r : Scheduler D W × StepAcc}
    (h : s.scheduleAdmissions acc fuel = .ok r) : r.2.preempted = acc.preempted := by
  induction fuel generalizing s acc with
  | zero =>
      rw [scheduleAdmissions] at h
      split at h
      · cases h
        rfl
      · cases h
  | succ fuel ih =>
      rw [scheduleAdmissions] at h
      split at h
      · cases h
        rfl
      · obtain ⟨next, -, h⟩ := bind_ok h
        rcases next with _ | ⟨b, i⟩
        · cases h
          rfl
        · simp only at h
          split at h
          · cases h
            rfl
          · split at h
            · cases h
              rfl
            · obtain ⟨got, -, h⟩ := bind_ok h
              split at h
              · obtain ⟨put, -, h⟩ := bind_ok h
                cases h
                rfl
              · obtain ⟨s₂, -, h⟩ := bind_ok h
                obtain ⟨r', hemit, h⟩ := bind_ok h
                rw [ih h, emit_preempted hemit]

/-- The victims are the step's `preempted` output, in order. -/
theorem evictions_victims {out : SchedulerOutput} {s' : Scheduler D W}
    (h : s.schedule = .ok (out, s')) : out.preempted = s.evictions.map (·.victim) := by
  obtain ⟨s₀, hpub, h⟩ := bind_ok h
  obtain ⟨r₁, hrun, h⟩ := bind_ok h
  obtain ⟨r₂, hadm, h⟩ := bind_ok h
  cases h
  show r₂.2.preempted = _
  rw [scheduleAdmissions_preempted _ hadm, scheduleRunning_preempted _ hrun, evictions,
    hpub]
  rfl

/-! ## §2  Who is chosen -/

end Scheduler

/-- What `_make_room` decided by: the victim picked, or nobody and so the requester. -/
def Eviction.Chosen (e : Eviction D W) : Prop :=
  e.before.pickVictim e.acc e.requester = some e.victim ∨
    e.before.pickVictim e.acc e.requester = none ∧ e.victim = e.requester

namespace Scheduler

variable {s : Scheduler D W} {acc : StepAcc}

theorem makeRoomEvictions_chosen {i : SeqId} {n : ℕ} (fuel : ℕ) :
    ∀ e ∈ s.makeRoomEvictions acc i n fuel, e.Chosen := by
  induction fuel generalizing s acc with
  | zero =>
      intro e he
      cases he
  | succ fuel ih =>
      intro e he
      rw [makeRoomEvictions] at he
      split at he
      · cases he
      · split at he
        · next hvic =>
            rw [List.mem_singleton.mp he]
            exact .inr ⟨hvic, rfl⟩
        · next victim hvic =>
            rcases List.mem_cons.mp he with rfl | he
            · exact .inl hvic
            · split at he
              · exact ih e he
              · cases he

theorem runningEvictions_chosen (l : List SeqId) :
    ∀ e ∈ s.runningEvictions acc l, e.Chosen := by
  induction l generalizing s acc with
  | nil =>
      intro e he
      cases he
  | cons i rest ih =>
      intro e he
      rw [runningEvictions] at he
      split at he
      · cases he
      · split at he
        · exact ih e he
        · simp only at he
          split at he
          · exact ih e he
          · rcases List.mem_append.mp he with he | he
            · exact makeRoomEvictions_chosen _ e he
            · split at he
              · split at he
                · exact ih e he
                · cases he
              · exact ih e he
              · cases he

theorem evictions_chosen : ∀ e ∈ s.evictions, e.Chosen := by
  intro e he
  rw [evictions] at he
  split at he
  · exact runningEvictions_chosen _ e he
  · cases he

omit [BlockDigest D] [DecidableEq D] in
theorem victimLt_asymm (i j : SeqId) (h : s.victimLt i j = true) :
    s.victimLt j i = false := by
  rw [victimLt, decide_eq_true_eq] at h
  rw [victimLt, decide_eq_false_iff_not]
  grind

omit [BlockDigest D] [DecidableEq D] in
theorem victimLt_trans (i j k : SeqId) (hij : s.victimLt i j = false)
    (hjk : s.victimLt j k = false) : s.victimLt i k = false := by
  rw [victimLt, decide_eq_false_iff_not] at hij hjk ⊢
  grind

omit [BlockDigest D] [DecidableEq D] in
/-- The victim has the least priority of all candidates. -/
theorem pickVictim_least {i v : SeqId} (h : s.pickVictim acc i = some v) {j : SeqId}
    (hj : j ∈ s.victimCandidates acc i) :
    (s.seqs v).priority ≤ (s.seqs j).priority := by
  have hleast := Lib.minBy_least victimLt_asymm victimLt_trans h j hj
  rw [victimLt, decide_eq_false_iff_not, not_or] at hleast
  exact not_lt.mp hleast.1

end Scheduler

/-! ## §3  When priority is respected -/

namespace Eviction

variable (e : Eviction D W)

/-- Another sequence than the requester loses its blocks only if its priority is not
the higher one. -/
def Respects : Prop :=
  e.victim ≠ e.requester →
    (e.before.seqs e.victim).priority ≤ (e.before.seqs e.requester).priority

/-- If there are other running sequences that are not yet in the batch, not all of
them have a higher priority than the sequence room is made for. -/
def SomeNotAbove : Prop :=
  e.before.victimCandidates e.acc e.requester ≠ [] →
    ∃ j ∈ e.before.victimCandidates e.acc e.requester,
      (e.before.seqs j).priority ≤ (e.before.seqs e.requester).priority

variable {e}

omit [BlockDigest D] [DecidableEq D] in
theorem Chosen.respects_iff (h : e.Chosen) : e.Respects ↔ e.SomeNotAbove := by
  rcases h with hpick | ⟨hnone, hself⟩
  · have hmem := Lib.minBy_mem hpick
    have hother : e.victim ≠ e.requester := by
      have := (List.mem_filter.mp hmem).2
      rw [decide_eq_true_eq] at this
      exact this.1
    constructor
    · intro h _
      exact ⟨e.victim, hmem, h hother⟩
    · intro h _
      obtain ⟨j, hj, hle⟩ := h (List.ne_nil_of_mem hmem)
      exact (Scheduler.pickVictim_least hpick hj).trans hle
  · -- the requester went back itself: nobody else was left
    constructor
    · intro _ hne
      exact absurd (Lib.minBy_eq_none.mp hnone) hne
    · intro _ hother
      exact absurd hself hother

end Eviction

/-- **When preemption respects priority.** In every state, reachable or not, no sequence
loses its blocks to one of lower priority during a `schedule()` call exactly when, at
each preemption of the call, some candidate's priority is not above the requester's. -/
theorem preemption_respects_priority_iff {s s' : Scheduler D W} {out : SchedulerOutput}
    (hs : s.schedule = .ok (out, s')) :
    out.preempted = s.evictions.map (·.victim) ∧
      ((∀ e ∈ s.evictions, e.Respects) ↔ ∀ e ∈ s.evictions, e.SomeNotAbove) := by
  refine ⟨Scheduler.evictions_victims hs, ?_⟩
  constructor
  · intro h e he
    exact (Scheduler.evictions_chosen e he).respects_iff.mp (h e he)
  · intro h e he
    exact (Scheduler.evictions_chosen e he).respects_iff.mpr (h e he)

/-- `a` of priority 0 was admitted before `b` of priority 5. -/
def urgentOps : List Op :=
  [.addRequest { requestId := "a", promptTokenIds := [1, 2, 3], tenantId := "x" },
    .addRequest { requestId := "b", promptTokenIds := [1], tenantId := "y", priority := 5 },
    .schedule, .schedule, .appendToken 0 9 none, .appendToken 1 7 none]

theorem preemption_respects_priority_small :
    ∃ (s : Scheduler FreeDigest ℚ) (out : SchedulerOutput), out.preempted ≠ [] ∧
      out.preempted = s.evictions.map (·.victim) ∧
      ((∀ e ∈ s.evictions, e.Respects) ↔ ∀ e ∈ s.evictions, e.SomeNotAbove) := by
  have h : observe FreeDigest smallConfig 4 smallOps
      (fun _ out _ => out.preempted) = some [1] := by decide
  obtain ⟨s, out, s', -, hrun, hpre⟩ := observe_eq_some h
  exact ⟨s, out, by simp [hpre], preemption_respects_priority_iff hrun⟩

/-- In a pool of four one-token blocks, `a` needs one more and `b` is sent back. -/
theorem preemption_disrespects_priority :
    ¬ ∀ (s : Scheduler FreeDigest ℚ) (out : SchedulerOutput) (s' : Scheduler FreeDigest ℚ),
      Reachable s → s.schedule = .ok (out, s') → ∀ e ∈ s.evictions, e.Respects := by
  intro hall
  have h : observe FreeDigest smallConfig 4 urgentOps
      (fun s _ _ => s.evictions.map fun e =>
        (e.requester, e.victim, (e.before.seqs e.requester).priority,
          (e.before.seqs e.victim).priority)) = some [(0, 1, 0, 5)] := by decide +kernel
  obtain ⟨s, out, s', hs, hrun, hev⟩ := observe_eq_some h
  obtain ⟨e, he, heq⟩ := List.mem_map.mp (hev ▸ List.mem_singleton_self _ :
    ((0 : SeqId), (1 : SeqId), (0 : ℤ), (5 : ℤ)) ∈ s.evictions.map fun e =>
      (e.requester, e.victim, (e.before.seqs e.requester).priority,
        (e.before.seqs e.victim).priority))
  simp only [Prod.mk.injEq] at heq
  obtain ⟨hreq, hvic, hlow, hhigh⟩ := heq
  have := hall s out s' hs hrun e he (by rw [hreq, hvic]; decide)
  rw [hlow, hhigh] at this
  exact absurd this (by decide)

end TurboServe.Core
