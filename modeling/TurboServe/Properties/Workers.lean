import Mathlib.Tactic.Linarith
import TurboServe.Chaos.Worker
import TurboServe.Lib.Lockstep

/-!
# The two flavours of worker

`InProcessWorker` and `SubprocessWorker` driven by the same calls: what a new request meets
is the same for both, as long as no worker is restarted that is running and draining. The
revival of a backend ends its draining; a child that runs already is left as it is.
-/

namespace TurboServe.Chaos

open TurboServe.Lib

/-! ## §1  Faults with the same effect -/

/-- The delay a replica applies and how often, if ever. -/
def WorkerFaults.latency (f : WorkerFaults) : Option (ℚ × ℚ) :=
  if f.latencyProbability ≤ 0 ∨ f.latencyMs ≤ 0 then none
  else some (f.latencyProbability, f.latencyMs)

/-- Faults no request can tell apart. -/
structure SameEffect (f g : WorkerFaults) : Prop where
  partitioned : f.partitioned = g.partitioned
  error : f.errorProbability = g.errorProbability
  latency : f.latency = g.latency

theorem SameEffect.refl (f : WorkerFaults) : SameEffect f f := ⟨rfl, rfl, rfl⟩

/-- A fresh child needs no faults when there are none to put back. -/
theorem SameEffect.of_isEmpty {f : WorkerFaults} (h : f.isEmpty = true) : SameEffect {} f := by
  unfold WorkerFaults.isEmpty at h
  rw [Bool.and_eq_true, Bool.and_eq_true, Bool.not_eq_true', decide_eq_true_eq,
    Bool.or_eq_true, decide_eq_true_eq, decide_eq_true_eq] at h
  obtain ⟨⟨hpartitioned, herror⟩, hlatency⟩ := h
  refine ⟨hpartitioned.symm, le_antisymm f.errorProbability_mem.1 herror, ?_⟩
  rw [WorkerFaults.latency, WorkerFaults.latency, if_pos hlatency, if_pos (Or.inl le_rfl)]

/-- The delay of one request, at a draw that is not negative. -/
theorem latency_decides (f : WorkerFaults) {draw : ℚ} (hdraw : 0 ≤ draw) :
    (if decide (f.latencyMs > 0 ∧ draw < f.latencyProbability) then some f.latencyMs else none) =
      f.latency.bind fun x => if draw < x.1 then some x.2 else none := by
  unfold WorkerFaults.latency
  by_cases hoff : f.latencyProbability ≤ 0 ∨ f.latencyMs ≤ 0
  · rw [if_pos hoff, if_neg]
    · rfl
    · rw [decide_eq_true_eq]
      rintro ⟨hms, hlt⟩
      rcases hoff with hp | hms'
      · linarith
      · linarith
  · rw [if_neg hoff]
    push Not at hoff
    simp only [hoff.2, true_and, decide_eq_true_eq, Option.bind_some]

/-- Backends with the same standing and the same faults in effect treat a request alike. -/
theorem generate_congr {b c : FaultingBackend} (halive : b.alive = c.alive)
    (hdraining : b.draining = c.draining) (hfaults : SameEffect b.faults c.faults)
    (errorDraw : ℚ) {latencyDraw : ℚ} (hdraw : 0 ≤ latencyDraw) :
    (b.generate errorDraw latencyDraw).1 = (c.generate errorDraw latencyDraw).1 := by
  unfold FaultingBackend.generate
  dsimp only
  rw [← halive, ← hdraining, ← hfaults.partitioned]
  by_cases hdown : b.alive = false
  · rw [if_pos hdown, if_pos hdown]
  rw [if_neg hdown, if_neg hdown]
  by_cases hdrains : b.draining = true
  · rw [if_pos hdrains, if_pos hdrains]
  rw [if_neg hdrains, if_neg hdrains]
  by_cases hcut : b.faults.partitioned = true
  · rw [if_pos hcut, if_pos hcut]
  rw [if_neg hcut, if_neg hcut]
  dsimp only
  rw [latency_decides _ hdraw, latency_decides _ hdraw, hfaults.latency, hfaults.error]

/-! ## §2  Lockstep -/

/-- What the two workers have in common: the remembered faults are the live ones, and a
running child has them in effect and drains when the backend does. -/
structure Alike (p : InProcessWorker) (s : SubprocessWorker) : Prop where
  faults : s.faults = p.backend.faults
  alive : s.alive = p.backend.alive
  child : ∀ child, s.process = some child → child.alive = true ∧
    child.draining = p.backend.draining ∧ SameEffect child.faults s.faults

/-- A call other than the restart of a worker that is running and draining. -/
def Orderly (p : InProcessWorker) (_ : SubprocessWorker) (c : Control) : Prop :=
  ¬ (c = .restart ∧ p.backend.alive = true ∧ p.backend.draining = true)

/-- A child that was just spawned. -/
theorem Alike.start : Alike InProcessWorker.create.start SubprocessWorker.create.start := by
  refine ⟨rfl, rfl, fun child h => ?_⟩
  cases h
  exact ⟨rfl, rfl, SameEffect.refl _⟩

theorem Alike.running {p : InProcessWorker} {s : SubprocessWorker} (h : Alike p s)
    {child : FaultingBackend} (hchild : s.process = some child) : p.backend.alive = true := by
  rw [← h.alive, SubprocessWorker.alive, hchild]
  rfl

theorem Alike.stopped {p : InProcessWorker} {s : SubprocessWorker} (h : Alike p s)
    (hnone : s.process = none) : p.backend.alive = false := by
  rw [← h.alive, SubprocessWorker.alive, hnone]
  rfl

/-- The child after a restart: the one that runs, or a fresh one, with the remembered faults
put back unless there are none. -/
theorem restart_process (s : SubprocessWorker) :
    s.restart.faults = s.faults ∧ s.restart.process =
      some (if s.faults.isEmpty then s.process.getD {}
        else (s.process.getD {}).setFaults s.faults) := by
  have hstart : s.start.faults = s.faults ∧ s.start.process = some (s.process.getD {}) := by
    unfold SubprocessWorker.start SubprocessWorker.alive
    cases hprocess : s.process with
    | none => exact ⟨rfl, rfl⟩
    | some child => exact ⟨rfl, hprocess⟩
  unfold SubprocessWorker.restart
  dsimp only
  rw [hstart.1]
  by_cases hempty : s.faults.isEmpty = true
  · rw [if_pos hempty, if_pos hempty]
    exact ⟨rfl, hstart.2⟩
  · rw [if_neg hempty, if_neg hempty]
    refine ⟨rfl, ?_⟩
    dsimp only [SubprocessWorker.post]
    rw [hstart.2]
    rfl

/-- One call keeps the workers alike. -/
theorem Alike.step (p : InProcessWorker) (s : SubprocessWorker) (c : Control) (h : Alike p s)
    (horderly : Orderly p s c) : Alike (p.control c) (s.control c) := by
  cases c with
  | drain =>
      refine ⟨h.faults, ?_, ?_⟩
      · exact (Option.isSome_map ..).trans h.alive
      · intro child hchild
        obtain ⟨before, hbefore, rfl⟩ := Option.map_eq_some_iff.mp hchild
        obtain ⟨halive, -, hfaults⟩ := h.child before hbefore
        exact ⟨halive, rfl, hfaults⟩
  | kill =>
      have hnone : (s.control .kill).process = none ∧ (s.control .kill).faults = s.faults := by
        change s.kill.process = none ∧ s.kill.faults = s.faults
        unfold SubprocessWorker.kill SubprocessWorker.alive
        cases hprocess : s.process with
        | none => exact ⟨hprocess, rfl⟩
        | some child => exact ⟨rfl, rfl⟩
      refine ⟨hnone.2.trans h.faults, ?_, ?_⟩
      · rw [SubprocessWorker.alive, hnone.1]
        rfl
      · intro child hchild
        cases hnone.1.symm.trans hchild
  | restart =>
      obtain ⟨hremembered, hprocess⟩ := restart_process s
      -- the child before the faults are put back
      have hbefore : (s.process.getD {}).alive = true ∧ (s.process.getD {}).draining = false ∧
          (s.faults.isEmpty = true → SameEffect (s.process.getD {}).faults s.faults) := by
        cases hs : s.process with
        | none => exact ⟨rfl, rfl, SameEffect.of_isEmpty⟩
        | some child =>
            obtain ⟨halive, hdraining, hfaults⟩ := h.child child hs
            refine ⟨halive, ?_, fun _ => hfaults⟩
            rw [Option.getD_some, hdraining]
            exact Bool.eq_false_iff.mpr fun hdrains => horderly ⟨rfl, h.running hs, hdrains⟩
      obtain ⟨halive, hdraining, hfaults⟩ := hbefore
      refine ⟨hremembered.trans h.faults, congrArg Option.isSome hprocess, ?_⟩
      intro child hchild
      obtain rfl := Option.some.inj (hprocess.symm.trans hchild)
      change _ ∧ _ = false ∧ SameEffect _ s.restart.faults
      rw [hremembered]
      by_cases hempty : s.faults.isEmpty = true
      · rw [if_pos hempty]
        exact ⟨halive, hdraining, hfaults hempty⟩
      · rw [if_neg hempty]
        exact ⟨halive, hdraining, SameEffect.refl _⟩
  | applyFaults f =>
      refine ⟨rfl, ?_, ?_⟩
      · exact (Option.isSome_map ..).trans h.alive
      · intro child hchild
        obtain ⟨before, hbefore, rfl⟩ := Option.map_eq_some_iff.mp hchild
        obtain ⟨halive, hdraining, -⟩ := h.child before hbefore
        exact ⟨halive, hdraining, SameEffect.refl f⟩
  | setPartitioned partitioned =>
      refine ⟨?_, ?_, ?_⟩
      · change { s.faults with partitioned := partitioned } =
          { p.backend.faults with partitioned := partitioned }
        rw [h.faults]
      · exact (Option.isSome_map ..).trans h.alive
      · intro child hchild
        obtain ⟨before, hbefore, rfl⟩ := Option.map_eq_some_iff.mp hchild
        obtain ⟨halive, hdraining, hfaults⟩ := h.child before hbefore
        exact ⟨halive, hdraining, ⟨rfl, hfaults.error, hfaults.latency⟩⟩

/-- Alike workers meet a new request alike. -/
theorem Alike.fate_eq {p : InProcessWorker} {s : SubprocessWorker} (h : Alike p s)
    (errorDraw : ℚ) {latencyDraw : ℚ} (hdraw : 0 ≤ latencyDraw) :
    p.fate errorDraw latencyDraw = s.fate errorDraw latencyDraw := by
  unfold InProcessWorker.fate SubprocessWorker.fate
  cases hprocess : s.process with
  | none =>
      unfold FaultingBackend.generate
      rw [if_pos (h.stopped hprocess)]
  | some child =>
      obtain ⟨halive, hdraining, hfaults⟩ := h.child child hprocess
      refine generate_congr ((h.running hprocess).trans halive.symm) hdraining.symm ?_ _ hdraw
      rw [← h.faults]
      exact ⟨hfaults.partitioned.symm, hfaults.error.symm, hfaults.latency.symm⟩

/-! ## §3  Runs -/

/-- A worker of either flavour after start and the initial faults. -/
def InProcessWorker.prepared (f : WorkerFaults) : InProcessWorker := create.start.applyFaults f

def SubprocessWorker.prepared (f : WorkerFaults) : SubprocessWorker := create.start.applyFaults f

theorem Alike.prepared (f : WorkerFaults) :
    Alike (InProcessWorker.prepared f) (SubprocessWorker.prepared f) :=
  Alike.step _ _ (.applyFaults f) Alike.start fun h => nomatch h.1

/-- After start and the same initial faults, along every sequence of calls none of which
restarts a worker that is running and draining, the two flavours agree on what a new request
meets: a refusal, or the delay and the injected error it gets at any draws. -/
theorem workers_agree (f : WorkerFaults) {cs : List Control}
    (horderly : Permitted InProcessWorker.control SubprocessWorker.control Orderly
      (.prepared f) (.prepared f) cs) {ds : List Control} (hds : ds <+: cs)
    {errorDraw latencyDraw : ℚ} (hdraw : 0 ≤ latencyDraw) :
    (ds.foldl InProcessWorker.control (.prepared f)).fate errorDraw latencyDraw =
      (ds.foldl SubprocessWorker.control (.prepared f)).fate errorDraw latencyDraw :=
  (horderly.related_prefix Alike.step (Alike.prepared f) hds).fate_eq errorDraw hdraw

theorem workers_agree_killed :
    ([Control.drain, .kill, .restart].foldl InProcessWorker.control (.prepared {})).fate 0 0 =
      ([Control.drain, .kill, .restart].foldl SubprocessWorker.control (.prepared {})).fate 0 0 := by
  have horderly : Permitted InProcessWorker.control SubprocessWorker.control Orderly
      (.prepared {}) (.prepared {}) [.drain, .kill, .restart] := by
    refine ⟨?_, ?_, ?_, trivial⟩
    · exact fun h => absurd h.1 (by decide)
    · exact fun h => absurd h.1 (by decide)
    · exact fun h => absurd h.2.1 (by decide)
  exact workers_agree {} horderly (List.prefix_refl _) le_rfl

/-- Restarting a worker that is running, draining and reachable sets the flavours apart:
one serves every request again, the other refuses every one. -/
theorem restart_draining_differs {p : InProcessWorker} {s : SubprocessWorker} (h : Alike p s)
    (halive : p.backend.alive = true) (hdrains : p.backend.draining = true)
    (hreachable : p.backend.faults.partitioned = false) (errorDraw latencyDraw : ℚ) :
    (∃ delay failed, (p.control .restart).fate errorDraw latencyDraw = .served delay failed) ∧
      (s.control .restart).fate errorDraw latencyDraw = .refused .draining := by
  constructor
  · unfold InProcessWorker.fate FaultingBackend.generate
    rw [if_neg (by exact Bool.true_eq_false.mp), if_neg (by exact Bool.false_ne_true),
      if_neg (by rw [show (p.control .restart).backend.faults = p.backend.faults from rfl,
        hreachable]; exact Bool.false_ne_true)]
    exact ⟨_, _, rfl⟩
  · have hsome : s.process.isSome = true := h.alive.trans halive
    obtain ⟨child, hchild⟩ := Option.isSome_iff_exists.mp hsome
    obtain ⟨hup, hdraining, -⟩ := h.child child hchild
    have hprocess := (restart_process s).2
    rw [hchild, Option.getD_some] at hprocess
    change s.restart.fate errorDraw latencyDraw = _
    unfold SubprocessWorker.fate
    rw [hprocess]
    have hstate : ∀ b : FaultingBackend, b.alive = true → b.draining = true →
        (b.generate errorDraw latencyDraw).1 = .refused .draining := by
      intro b hb hd
      unfold FaultingBackend.generate
      rw [if_neg (by rw [hb]; exact Bool.true_eq_false.mp), if_pos hd]
    by_cases hempty : s.faults.isEmpty = true
    · rw [if_pos hempty]
      exact hstate child hup (hdraining.trans hdrains)
    · rw [if_neg hempty]
      exact hstate _ hup (hdraining.trans hdrains)

/-- A drained replica that is restarted serves in this process and refuses in a child. -/
theorem drained_restarted_differ :
    ([Control.drain, .restart].foldl InProcessWorker.control (.prepared {})).fate 0 0 =
        .served none false ∧
      ([Control.drain, .restart].foldl SubprocessWorker.control (.prepared {})).fate 0 0 =
        .refused .draining := by
  constructor
  · decide
  · decide

end TurboServe.Chaos
