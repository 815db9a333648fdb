import TurboServe.Canary.Controller

/-!
# Runs of the canary controller

Calls in any order, what one call can do to the rollout, and the invariant of
every run.
-/

namespace TurboServe.Canary

/-- One call on the controller, with the moment it reads. -/
inductive Op : Type where
  | start (version : String) (moment : ℚ)
  | abort (reason : String) (moment : ℚ)
  | reset
  | observe (lane : Lane) (ok : Bool) (ttftMs e2eMs : Option ℚ) (moment : ℚ)
  | tick (moment : ℚ) (stable canary : Option LaneSummary)
deriving DecidableEq

def Op.isStart : Op → Bool
  | .start _ _ => true
  | _ => false

namespace CanaryController

/-- The decision a call returns and the controller after it. `start` and `abort`
raise before they change anything. -/
def call (c : CanaryController) : Op → Option Decision × CanaryController
  | .start version moment =>
      match c.start version moment with
      | .ok (d, c') => (some d, c')
      | .error _ => (none, c)
  | .abort reason moment =>
      match c.abort reason moment with
      | .ok (d, c') => (some d, c')
      | .error _ => (none, c)
  | .reset => (none, c.reset)
  | .observe lane ok ttftMs e2eMs moment => (none, c.observe lane ok ttftMs e2eMs moment)
  | .tick moment stable canary =>
      (some (c.tick moment stable canary).1, (c.tick moment stable canary).2)

def run (c : CanaryController) (ops : List Op) : CanaryController :=
  ops.foldl (fun c op => (c.call op).2) c

/-- What the calls of a run return. -/
def decisions (c : CanaryController) : List Op → List (Option Decision)
  | [] => []
  | op :: ops => (c.call op).1 :: (c.call op).2.decisions ops

/-- The calls of a run, each with the controller it met. -/
def trace (c : CanaryController) : List Op → List (CanaryController × Op)
  | [] => []
  | op :: ops => (c, op) :: (c.call op).2.trace ops

theorem run_append (c : CanaryController) (ops ops' : List Op) :
    c.run (ops ++ ops') = (c.run ops).run ops' := by
  simp only [run, List.foldl_append]

theorem run_cons (c : CanaryController) (op : Op) (ops : List Op) :
    c.run (op :: ops) = (c.call op).2.run ops := rfl

theorem trace_append (c : CanaryController) (ops ops' : List Op) :
    c.trace (ops ++ ops') = c.trace ops ++ (c.run ops).trace ops' := by
  induction ops generalizing c with
  | nil => rfl
  | cons op ops ih => simp only [List.cons_append, trace, ih, run_cons]

end CanaryController

/-! ## §1  Windows keep their parameters -/

namespace LaneWindow

variable (w : LaneWindow)

@[simp] theorem prune_clear (now : ℚ) : (w.prune now).clear = w.clear := rfl

@[simp] theorem observe_clear (ok : Bool) (ttftMs e2eMs : Option ℚ) (now : ℚ) :
    (w.observe ok ttftMs e2eMs now).clear = w.clear := by
  unfold observe
  simp only
  split <;> rfl

@[simp] theorem summary_clear (now : ℚ) : (w.summary now).2.clear = w.clear := rfl

@[simp] theorem clear_clear : w.clear.clear = w.clear := rfl

end LaneWindow

/-! ## §2  What one call does -/

/-- The weight of a position of the rollout. -/
def weightAt (config : CanaryConfig) : CanaryState → ℕ → ℕ
  | .canary, k => config.steps.getD k 0
  | .promoted, _ => 100
  | _, _ => 0

namespace CanaryController

theorem canaryWeight_eq (c : CanaryController) :
    c.canaryWeight = weightAt c.config c.state c.stepIndex := by
  unfold canaryWeight weightAt
  cases c.state <;> rfl

/-- Same policy, and windows of the same parameters. -/
structure SameSetup (c c' : CanaryController) : Prop where
  config : c'.config = c.config
  stable : c'.stableWindow.clear = c.stableWindow.clear
  canary : c'.canaryWindow.clear = c.canaryWindow.clear

/-- `d` joins the history of `c'`, with the position of `c'`. -/
structure Records (history : List Decision) (d : Decision) (c' : CanaryController) :
    Prop where
  history : c'.history = history ++ [d]
  state : d.state = c'.state
  weight : d.weight = c'.canaryWeight
  stepIndex : d.stepIndex = c'.stepIndex

/-- The tick saw enough canary requests, no breach, and the hold time over. -/
structure Passes (config : CanaryConfig) (began moment : ℚ)
    (stable canary : LaneSummary) : Prop where
  requests : config.minRequests ≤ canary.requests
  healthy : breach config stable canary = none
  held : config.stepHoldS ≤ moment - began

/-- The verdicts of a running rollout, with the state, step and start of the step
each leaves. -/
inductive Verdict (c : CanaryController) (moment : ℚ) (stable canary : LaneSummary) :
    DecisionKind → CanaryState → ℕ → ℚ → Prop where
  | hold : Verdict c moment stable canary .hold .canary c.stepIndex c.stepStartedAt
  | rollback :
      Verdict c moment stable canary .rollback .rolledBack c.stepIndex c.stepStartedAt
  | promote (hp : Passes c.config c.stepStartedAt moment stable canary)
      (hk : c.config.steps.length - 1 ≤ c.stepIndex) :
      Verdict c moment stable canary .promote .promoted c.stepIndex c.stepStartedAt
  | advance (hp : Passes c.config c.stepStartedAt moment stable canary)
      (hk : c.stepIndex < c.config.steps.length - 1) :
      Verdict c moment stable canary .advance .canary (c.stepIndex + 1) moment

theorem judge_spec (c : CanaryController) (moment : ℚ) (stable canary : LaneSummary)
    (hc : c.state = .canary) :
    let r := c.judge moment stable canary
    Verdict c moment stable canary r.1.kind r.2.state r.2.stepIndex r.2.stepStartedAt ∧
      Records c.history r.1 r.2 ∧ SameSetup c r.2 := by
  simp only [judge]
  split
  · split
    · exact ⟨.rollback, ⟨rfl, rfl, rfl, rfl⟩, ⟨rfl, rfl, rfl⟩⟩
    · have hv : Verdict c moment stable canary .hold c.state c.stepIndex
          c.stepStartedAt := hc ▸ .hold
      exact ⟨hv, ⟨rfl, rfl, rfl, rfl⟩, ⟨rfl, rfl, rfl⟩⟩
  · rename_i hmin
    split
    · exact ⟨.rollback, ⟨rfl, rfl, rfl, rfl⟩, ⟨rfl, rfl, rfl⟩⟩
    · rename_i hb
      split
      · have hv : Verdict c moment stable canary .hold c.state c.stepIndex
            c.stepStartedAt := hc ▸ .hold
        exact ⟨hv, ⟨rfl, rfl, rfl, rfl⟩, ⟨rfl, rfl, rfl⟩⟩
      · rename_i hheld
        have hp : Passes c.config c.stepStartedAt moment stable canary :=
          ⟨Nat.le_of_not_lt hmin, hb, not_lt.mp hheld⟩
        split
        · rename_i hk
          exact ⟨.promote hp hk, ⟨rfl, rfl, rfl, rfl⟩, ⟨rfl, rfl, rfl⟩⟩
        · rename_i hk
          have hv : Verdict c moment stable canary .advance c.state (c.stepIndex + 1)
              moment := hc ▸ .advance hp (Nat.lt_of_not_le hk)
          exact ⟨hv, ⟨rfl, rfl, rfl, rfl⟩, ⟨rfl, rfl, rfl⟩⟩

/-- Asking for summaries moves the windows only. -/
theorem summaries_spec (c : CanaryController) (moment : ℚ)
    (stable canary : Option LaneSummary) :
    let c' := (c.summaries moment stable canary).2.2
    c'.state = c.state ∧ c'.stepIndex = c.stepIndex ∧
      c'.stepStartedAt = c.stepStartedAt ∧ c'.history = c.history ∧ SameSetup c c' := by
  unfold summaries
  cases stable <;> cases canary <;> exact ⟨rfl, rfl, rfl, rfl, ⟨rfl, rfl, rfl⟩⟩

/-- The controller a successful start leaves. -/
def begun (c : CanaryController) (version : String) (moment : ℚ) :
    Decision × CanaryController :=
  let c' := { c with
    version := some version, stepIndex := 0, stepStartedAt := moment
    state := .canary, history := [] }.clearWindows
  c'.record .advance (.started version c'.canaryWeight) moment none none

/-- A start that does not raise. -/
def CanStart (c : CanaryController) (version : String) : Prop :=
  c.state ≠ .canary ∧ version ≠ ""

/-- Every outcome of a call. -/
inductive Outcome (c : CanaryController) : Op → Option Decision × CanaryController → Prop where
  | started (version : String) (moment : ℚ) (h : c.CanStart version) :
      Outcome c (.start version moment)
        (some (c.begun version moment).1, (c.begun version moment).2)
  | startRefused (version : String) (moment : ℚ) (h : ¬ c.CanStart version) :
      Outcome c (.start version moment) (none, c)
  | aborted (reason : String) (moment : ℚ) (h : c.state = .canary) (d : Decision)
      (c' : CanaryController) (hk : d.kind = .rollback) (hs : c'.state = .rolledBack)
      (hi : c'.stepIndex = c.stepIndex) (hr : Records c.history d c')
      (hw : SameSetup c c') : Outcome c (.abort reason moment) (some d, c')
  | abortRefused (reason : String) (moment : ℚ) (h : c.state ≠ .canary) :
      Outcome c (.abort reason moment) (none, c)
  | reset : Outcome c .reset (none, c.reset)
  | observed (lane : Lane) (ok : Bool) (ttftMs e2eMs : Option ℚ) (moment : ℚ)
      (c' : CanaryController) (hs : c'.state = c.state) (hi : c'.stepIndex = c.stepIndex)
      (hb : c'.stepStartedAt = c.stepStartedAt) (hh : c'.history = c.history)
      (hw : SameSetup c c') : Outcome c (.observe lane ok ttftMs e2eMs moment) (none, c')
  | idleTick (moment : ℚ) (stable canary : Option LaneSummary) (h : c.state ≠ .canary)
      (d : Decision) (hk : d.kind = .hold) : Outcome c (.tick moment stable canary) (some d, c)
  | judged (moment : ℚ) (stable canary : Option LaneSummary) (h : c.state = .canary)
      (d : Decision) (c' : CanaryController)
      (hv : Verdict c moment (c.summaries moment stable canary).1
        (c.summaries moment stable canary).2.1 d.kind c'.state c'.stepIndex c'.stepStartedAt)
      (hr : Records c.history d c') (hw : SameSetup c c') :
      Outcome c (.tick moment stable canary) (some d, c')

theorem call_start (c : CanaryController) (version : String) (moment : ℚ) :
    Outcome c (.start version moment) (c.call (.start version moment)) := by
  simp only [call, start]
  split_ifs with hs hv
  · exact .startRefused _ _ fun h => h.1 hs
  · exact .startRefused _ _ fun h => h.2 hv
  · exact .started _ _ ⟨hs, hv⟩

theorem call_abort (c : CanaryController) (reason : String) (moment : ℚ) :
    Outcome c (.abort reason moment) (c.call (.abort reason moment)) := by
  simp only [call, abort]
  split_ifs with hs
  · exact .abortRefused _ _ hs
  · exact .aborted _ _ (not_not.mp hs) _ _ rfl rfl rfl ⟨rfl, rfl, rfl, rfl⟩ ⟨rfl, rfl, rfl⟩

theorem call_observe (c : CanaryController) (lane : Lane) (ok : Bool)
    (ttftMs e2eMs : Option ℚ) (moment : ℚ) :
    Outcome c (.observe lane ok ttftMs e2eMs moment)
      (c.call (.observe lane ok ttftMs e2eMs moment)) := by
  simp only [call, observe]
  cases lane with
  | stable =>
      exact .observed _ _ _ _ _ _ rfl rfl rfl rfl ⟨rfl, LaneWindow.observe_clear .., rfl⟩
  | canary =>
      exact .observed _ _ _ _ _ _ rfl rfl rfl rfl ⟨rfl, rfl, LaneWindow.observe_clear ..⟩

theorem call_tick (c : CanaryController) (moment : ℚ) (stable canary : Option LaneSummary) :
    Outcome c (.tick moment stable canary) (c.call (.tick moment stable canary)) := by
  simp only [call, tick]
  split_ifs with hs
  · exact .idleTick _ _ _ hs _ rfl
  · have hc := not_not.mp hs
    obtain ⟨hst, hix, hbg, hhi, hws⟩ := c.summaries_spec moment stable canary
    obtain ⟨hv, hr, hw⟩ := judge_spec _ moment (c.summaries moment stable canary).1
      (c.summaries moment stable canary).2.1 (hst.trans hc)
    refine .judged _ _ _ hc _ _ ?_ (hhi ▸ hr)
      ⟨hw.config.trans hws.config, hw.stable.trans hws.stable, hw.canary.trans hws.canary⟩
    -- the judged controller differs from `c` in its windows only
    revert hv
    generalize (CanaryController.judge _ _ _ _).1.kind = kind
    generalize (CanaryController.judge _ _ _ _).2 = c'
    intro hv
    generalize hst' : c'.state = st at hv ⊢
    generalize hix' : c'.stepIndex = ix at hv ⊢
    generalize hbg' : c'.stepStartedAt = bg at hv ⊢
    cases hv with
    | hold => rw [hix, hbg]; exact .hold
    | rollback => rw [hix, hbg]; exact .rollback
    | promote hp hk =>
        rw [hws.config, hbg] at hp
        rw [hws.config, hix] at hk
        rw [hix, hbg]
        exact .promote hp hk
    | advance hp hk =>
        rw [hws.config, hbg] at hp
        rw [hws.config, hix] at hk
        rw [hix]
        exact .advance hp hk

theorem call_spec (c : CanaryController) (op : Op) : Outcome c op (c.call op) := by
  cases op with
  | start version moment => exact c.call_start version moment
  | abort reason moment => exact c.call_abort reason moment
  | reset => exact .reset
  | observe lane ok ttftMs e2eMs moment => exact c.call_observe lane ok ttftMs e2eMs moment
  | tick moment stable canary => exact c.call_tick moment stable canary

/-! ## §3  Replaying a history -/

/-- The position one entry of a history moves to. -/
def replayKind : CanaryState × ℕ → DecisionKind → CanaryState × ℕ
  | p, .hold => p
  | (.idle, _), .advance => (.canary, 0)
  | (_, k), .advance => (.canary, k + 1)
  | (_, k), .promote => (.promoted, k)
  | (_, k), .rollback => (.rolledBack, k)

/-- The position a history ends in, from its kinds alone. -/
def replay (history : List Decision) : CanaryState × ℕ :=
  (history.map (·.kind)).foldl replayKind (.idle, 0)

theorem replay_append (history : List Decision) (d : Decision) :
    replay (history ++ [d]) = replayKind (replay history) d.kind := by
  simp only [replay, List.map_append, List.map_cons, List.map_nil, List.foldl_append,
    List.foldl_cons, List.foldl_nil]

/-- Every entry carries the position its prefix replays to. -/
def Replays (config : CanaryConfig) (history : List Decision) : Prop :=
  ∀ pre d post, history = pre ++ d :: post →
    replay (pre ++ [d]) = (d.state, d.stepIndex) ∧
      d.weight = weightAt config d.state d.stepIndex

theorem Replays.nil (config : CanaryConfig) : Replays config [] := by
  intro pre d post h
  simp at h

theorem Replays.append {config : CanaryConfig} {history : List Decision} {d : Decision}
    (h : Replays config history)
    (hd : replay (history ++ [d]) = (d.state, d.stepIndex))
    (hw : d.weight = weightAt config d.state d.stepIndex) :
    Replays config (history ++ [d]) := by
  intro pre e post he
  rcases List.eq_nil_or_concat post with rfl | ⟨post', e', rfl⟩
  · obtain ⟨rfl, hde⟩ := List.append_inj' he rfl
    obtain rfl := List.singleton_inj.mp hde
    exact ⟨hd, hw⟩
  · rw [List.concat_eq_append, ← List.cons_append, ← List.append_assoc] at he
    obtain ⟨rfl, -⟩ := List.append_inj' he rfl
    exact h pre e post' rfl

/-! ## §4  The invariant of every run -/

structure Sound (config : CanaryConfig) (c : CanaryController) : Prop where
  config_eq : c.config = config
  stable_clear : c.stableWindow.clear =
    .new .stable config.windowS config.maxSamplesPerLane
  canary_clear : c.canaryWindow.clear =
    .new .canary config.windowS config.maxSamplesPerLane
  stepIndex_lt : c.stepIndex < config.steps.length
  promoted_last : c.state = .promoted → config.steps.length - 1 ≤ c.stepIndex
  replays : Replays config c.history
  replay_eq : replay c.history = (c.state, c.stepIndex)

theorem length_pos (config : CanaryConfig) : 0 < config.steps.length :=
  List.length_pos_of_ne_nil config.steps_ne_nil

theorem Sound.new (config : CanaryConfig) : Sound config (CanaryController.new config) :=
  ⟨rfl, rfl, rfl, length_pos config, (fun h => nomatch h), .nil config, rfl⟩

/-- One more entry, whose kind leads to the position after it. -/
theorem Sound.records {config : CanaryConfig} {c c' : CanaryController} {d : Decision}
    (h : Sound config c) (hr : Records c.history d c') (hw : SameSetup c c')
    (hlt : c'.stepIndex < config.steps.length)
    (hlast : c'.state = .promoted → config.steps.length - 1 ≤ c'.stepIndex)
    (hk : replayKind (c.state, c.stepIndex) d.kind = (c'.state, c'.stepIndex)) :
    Sound config c' := by
  have hcfg : c'.config = config := hw.config.trans h.config_eq
  have hre : replay (c.history ++ [d]) = (c'.state, c'.stepIndex) := by
    rw [replay_append, h.replay_eq, hk]
  refine ⟨hcfg, hw.stable.trans h.stable_clear, hw.canary.trans h.canary_clear, hlt, hlast,
    ?_, ?_⟩
  · rw [hr.history]
    refine h.replays.append ?_ ?_
    · rw [hre, hr.state, hr.stepIndex]
    · rw [hr.weight, canaryWeight_eq, hcfg, hr.state, hr.stepIndex]
  · rw [hr.history, hre]

theorem Sound.begun {config : CanaryConfig} {c : CanaryController} (h : Sound config c)
    (version : String) (moment : ℚ) : Sound config (c.begun version moment).2 := by
  refine ⟨h.config_eq, h.stable_clear, h.canary_clear, length_pos config,
    fun hs => (nomatch hs), ?_, rfl⟩
  have hw : weightAt c.config .canary 0 = weightAt config .canary 0 := by rw [h.config_eq]
  exact (Replays.nil config).append rfl hw

theorem Sound.reset {config : CanaryConfig} {c : CanaryController} (h : Sound config c) :
    Sound config c.reset :=
  ⟨h.config_eq, h.stable_clear, h.canary_clear, length_pos config, fun hs => (nomatch hs),
    .nil config, rfl⟩

theorem Sound.call {config : CanaryConfig} {c : CanaryController} (h : Sound config c)
    (op : Op) : Sound config (c.call op).2 := by
  have ho := c.call_spec op
  generalize c.call op = r at ho
  cases ho with
  | started version moment _ => exact h.begun version moment
  | startRefused => exact h
  | aborted reason moment hc d c' hk hs hi hr hw =>
      refine h.records hr hw (hi ▸ h.stepIndex_lt) (fun hp => ?_) ?_
      · rw [hs] at hp
        cases hp
      · rw [hk, hs, hi, hc]
        rfl
  | abortRefused => exact h
  | reset => exact h.reset
  | observed lane ok ttftMs e2eMs moment c' hs hi hb hh hw =>
      refine ⟨hw.config.trans h.config_eq, hw.stable.trans h.stable_clear,
        hw.canary.trans h.canary_clear, hi ▸ h.stepIndex_lt, ?_, hh ▸ h.replays, ?_⟩
      · rw [hs, hi]
        exact h.promoted_last
      · rw [hh, hs, hi, h.replay_eq]
  | idleTick => exact h
  | judged moment stable canary hc d c' hv hr hw =>
      have hlt := h.stepIndex_lt
      have hcfg := h.config_eq
      refine h.records hr hw ?_ ?_ ?_
      all_goals
        generalize d.kind = kind at hv ⊢
        generalize c'.state = st at hv ⊢
        generalize c'.stepIndex = ix at hv ⊢
        generalize c'.stepStartedAt = bg at hv
      · cases hv with
        | hold => exact hlt
        | rollback => exact hlt
        | promote => exact hlt
        | advance hp hk => rw [hcfg] at hk; omega
      · intro hst
        cases hv with
        | hold => cases hst
        | rollback => cases hst
        | promote hp hk => exact hcfg ▸ hk
        | advance => cases hst
      · cases hv <;> rw [hc] <;> rfl

theorem Sound.run {config : CanaryConfig} {c : CanaryController} (h : Sound config c)
    (ops : List Op) : Sound config (c.run ops) := by
  induction ops generalizing c with
  | nil => exact h
  | cons op ops ih => exact ih (h.call op)

/-- Promotion happens at the last step, whose weight is 100. -/
theorem Sound.weight_last {config : CanaryConfig} {c : CanaryController}
    (h : Sound config c) (hk : config.steps.length - 1 ≤ c.stepIndex) :
    weightAt config .canary c.stepIndex = 100 := by
  have hlast := config.steps_last
  rw [List.getLast?_eq_getElem?] at hlast
  have hidx : c.stepIndex = config.steps.length - 1 := by
    have := h.stepIndex_lt
    omega
  rw [weightAt, List.getD_eq_getElem?_getD, hidx, hlast]
  rfl

end CanaryController

end TurboServe.Canary
