import Mathlib
import TurboServe.Bench.Records

/-!
# The canary controller

`canary/controller.py`: the rollout state machine, its sliding windows and its
gates. Times, latencies and rates are rationals; every call takes the moment the
source reads off its argument or its clock. The text of a decision's reason is a
constructor that carries the values the text interpolates.
-/

namespace TurboServe.Canary

inductive Lane : Type where
  | stable
  | canary
deriving DecidableEq

inductive CanaryState : Type where
  | idle
  | canary
  | promoted
  | rolledBack
deriving DecidableEq

inductive DecisionKind : Type where
  | hold
  | advance
  | promote
  | rollback
deriving DecidableEq

/-! ## §1  Observations -/

/-- One finished request. -/
structure Sample where
  t : ℚ
  ok : Bool
  ttftMs : Option ℚ
  e2eMs : Option ℚ
deriving DecidableEq

/-- What one lane did inside one window. -/
structure LaneSummary where
  lane : Lane
  requests : ℕ
  errors : ℕ
  p95TtftMs : Option ℚ
  p95E2eMs : Option ℚ
  windowS : Option ℚ
  errors_le : errors ≤ requests
deriving DecidableEq

def LaneSummary.errorRate (s : LaneSummary) : ℚ :=
  if s.requests = 0 then 0 else s.errors / s.requests

/-- `bench.records.percentile` at a `q` it does not refuse. -/
def percentile (values : List ℚ) (q : ℚ) : Option ℚ := (Bench.percentile values q).toOption.join

/-- A bounded sliding window; `now` is `none` before the first time seen. -/
structure LaneWindow where
  lane : Lane
  windowS : ℚ
  maxSamples : ℕ
  samples : List Sample
  now : Option ℚ
deriving DecidableEq

namespace LaneWindow

def new (lane : Lane) (windowS : ℚ) (maxSamples : ℕ) : LaneWindow :=
  { lane := lane, windowS := windowS, maxSamples := maxSamples, samples := [], now := none }

variable (w : LaneWindow)

/-- The latest time seen, `now` included. -/
def latest (now : ℚ) : ℚ :=
  match w.now with
  | none => now
  | some t => max t now

/-- Drop samples older than the window, from the front. -/
def prune (now : ℚ) : LaneWindow :=
  { w with
    now := some (w.latest now)
    samples := w.samples.dropWhile fun s => decide (s.t < w.latest now - w.windowS) }

/-- Append to a deque of at most `maxSamples`. -/
def append (s : Sample) : LaneWindow :=
  let all := w.samples ++ [s]
  { w with samples := all.drop (all.length - w.maxSamples) }

def observe (ok : Bool) (ttftMs e2eMs : Option ℚ) (now : ℚ) : LaneWindow :=
  let w' := w.prune now
  if now < w.latest now - w.windowS then w'
  else w'.append ⟨now, ok, ttftMs, e2eMs⟩

def clear : LaneWindow := { w with samples := [], now := none }

theorem countP_le (samples : List Sample) :
    samples.countP (fun s => !s.ok) ≤ samples.length := List.countP_le_length

/-- Expire, then aggregate. -/
def summary (now : ℚ) : LaneSummary × LaneWindow :=
  let w' := w.prune now
  ({ lane := w.lane
     requests := w'.samples.length
     errors := w'.samples.countP fun s => !s.ok
     p95TtftMs := percentile ((w'.samples.filter (·.ok)).filterMap (·.ttftMs)) 95
     p95E2eMs := percentile ((w'.samples.filter (·.ok)).filterMap (·.e2eMs)) 95
     windowS := some w.windowS
     errors_le := countP_le w'.samples }, w')

end LaneWindow

/-! ## §2  Policy and decisions -/

/-- The rollout's policy; the fields below the data are its validators. -/
structure CanaryConfig where
  steps : List ℕ := [1, 5, 25, 50, 100]
  stepHoldS : ℚ := 300
  windowS : ℚ := 300
  minRequests : ℕ := 200
  maxErrorRate : ℚ := 1 / 200
  maxP95TtftMs : Option ℚ := none
  maxP95RatioVsStable : ℚ := 5 / 4
  stallTimeoutS : Option ℚ := none
  maxSamplesPerLane : ℕ := 100000
  steps_ne_nil : steps ≠ [] := by decide
  steps_mem : ∀ s ∈ steps, 1 ≤ s ∧ s ≤ 100 := by decide
  steps_increasing : steps.Pairwise (· < ·) := by decide
  steps_last : steps.getLast? = some 100 := by decide
  stepHoldS_pos : 0 < stepHoldS := by norm_num
  windowS_pos : 0 < windowS := by norm_num
  one_le_minRequests : 1 ≤ minRequests := by decide
  maxErrorRate_mem : 0 ≤ maxErrorRate ∧ maxErrorRate ≤ 1 := by norm_num
  maxP95TtftMs_pos : ∀ x ∈ maxP95TtftMs, 0 < x := by simp
  maxP95RatioVsStable_pos : 0 < maxP95RatioVsStable := by norm_num
  stallTimeoutS_pos : ∀ x ∈ stallTimeoutS, 0 < x := by simp
  one_le_maxSamplesPerLane : 1 ≤ maxSamplesPerLane := by decide

/-- Why a gate failed, with the values the message shows. -/
inductive Breach : Type where
  | errorRate (rate : ℚ) (errors requests : ℕ) (limit : ℚ)
  | absoluteTtft (p95 limit : ℚ)
  | ratio (name : String) (ratio canaryP95 stableP95 limit : ℚ)
deriving DecidableEq

/-- The reason of a decision, one constructor per message. -/
inductive Reason : Type where
  | started (version : String) (weight : ℕ)
  | operator (reason : String)
  | noRollout (state : CanaryState)
  | stalled (weight requests minRequests : ℕ) (elapsed : ℚ)
  | waiting (requests minRequests : ℕ) (windowS : ℚ)
  | breach (b : Breach)
  | held (weight : ℕ) (elapsed stepHoldS : ℚ)
  | promoting (elapsed : ℚ) (version : Option String)
  | advancing (weight : ℕ) (elapsed : ℚ)
deriving DecidableEq

/-- One evaluation of the gates; `state` and `weight` are the values after it. -/
structure Decision where
  kind : DecisionKind
  reason : Reason
  at_ : ℚ
  state : CanaryState
  weight : ℕ
  stepIndex : ℕ
  version : Option String
  stable : Option LaneSummary
  canary : Option LaneSummary
deriving DecidableEq

/-- What the calls raise. -/
inductive Fault : Type where
  | alreadyRunning (version : Option String) (weight : ℕ)
  | emptyVersion
  | nothingToAbort (state : CanaryState)
deriving DecidableEq

/-! ## §3  The controller -/

structure CanaryController where
  config : CanaryConfig
  state : CanaryState
  version : Option String
  stepIndex : ℕ
  stepStartedAt : ℚ
  history : List Decision
  stableWindow : LaneWindow
  canaryWindow : LaneWindow

namespace CanaryController

def new (config : CanaryConfig) : CanaryController :=
  { config := config, state := .idle, version := none, stepIndex := 0, stepStartedAt := 0
    history := []
    stableWindow := .new .stable config.windowS config.maxSamplesPerLane
    canaryWindow := .new .canary config.windowS config.maxSamplesPerLane }

variable (c : CanaryController)

/-- Percentage of traffic the canary lane should receive. -/
def canaryWeight : ℕ :=
  match c.state with
  | .canary => c.config.steps.getD c.stepIndex 0
  | .promoted => 100
  | _ => 0

def record (kind : DecisionKind) (reason : Reason) (moment : ℚ)
    (stable canary : Option LaneSummary) : Decision × CanaryController :=
  let decision : Decision :=
    { kind := kind, reason := reason, at_ := moment, state := c.state
      weight := c.canaryWeight, stepIndex := c.stepIndex, version := c.version
      stable := stable, canary := canary }
  (decision, { c with history := c.history ++ [decision] })

def clearWindows : CanaryController :=
  { c with
    stableWindow := c.stableWindow.clear, canaryWindow := c.canaryWindow.clear }

/-- Begin a rollout at the first step. -/
def start (version : String) (moment : ℚ) : Except Fault (Decision × CanaryController) :=
  if c.state = .canary then .error (.alreadyRunning c.version c.canaryWeight)
  else if version = "" then .error .emptyVersion
  else
    let c' := { c with
      version := some version, stepIndex := 0, stepStartedAt := moment
      state := .canary, history := [] }.clearWindows
    .ok (c'.record .advance (.started version c'.canaryWeight) moment none none)

/-- End a running rollout with the canary at zero traffic. -/
def abort (reason : String) (moment : ℚ) : Except Fault (Decision × CanaryController) :=
  if c.state ≠ .canary then .error (.nothingToAbort c.state)
  else .ok ({ c with state := .rolledBack }.record .rollback (.operator reason) moment
    none none)

def reset : CanaryController :=
  { c with
    state := .idle, version := none, stepIndex := 0, stepStartedAt := 0
    history := [] }.clearWindows

def observe (lane : Lane) (ok : Bool) (ttftMs e2eMs : Option ℚ) (moment : ℚ) :
    CanaryController :=
  match lane with
  | .stable => { c with stableWindow := c.stableWindow.observe ok ttftMs e2eMs moment }
  | .canary => { c with canaryWindow := c.canaryWindow.observe ok ttftMs e2eMs moment }

/-- One of the two relative-latency comparisons. -/
def ratioBreach (config : CanaryConfig) (name : String) (canaryP95 stableP95 : Option ℚ) :
    Option Breach :=
  match canaryP95, stableP95 with
  | some c95, some s95 =>
      if s95 ≤ 0 then none
      else if c95 / s95 > config.maxP95RatioVsStable then
        some (.ratio name (c95 / s95) c95 s95 config.maxP95RatioVsStable)
      else none
  | _, _ => none

/-- `_breach`: why the canary fails its gates, or `none`. -/
def breach (config : CanaryConfig) (stable canary : LaneSummary) : Option Breach :=
  if canary.errorRate > config.maxErrorRate then
    some (.errorRate canary.errorRate canary.errors canary.requests config.maxErrorRate)
  else
    match config.maxP95TtftMs, canary.p95TtftMs with
    | some limit, some p95 =>
        if p95 > limit then some (.absoluteTtft p95 limit) else relative
    | _, _ => relative
where
  /-- The gates that need a baseline. -/
  relative : Option Breach :=
    if stable.requests < config.minRequests then none
    else
      match ratioBreach config "TTFT" canary.p95TtftMs stable.p95TtftMs with
      | some b => some b
      | none => ratioBreach config "E2E" canary.p95E2eMs stable.p95E2eMs

/-- The summaries a tick judges: the ones supplied, else those of the windows,
which expire on the way. -/
def summaries (moment : ℚ) (stable canary : Option LaneSummary) :
    LaneSummary × LaneSummary × CanaryController :=
  let s := match stable with
    | some x => (x, c.stableWindow)
    | none => c.stableWindow.summary moment
  let k := match canary with
    | some x => (x, c.canaryWindow)
    | none => c.canaryWindow.summary moment
  (s.1, k.1, { c with stableWindow := s.2, canaryWindow := k.2 })

/-- What a tick of a running rollout concludes from two summaries. -/
def judge (moment : ℚ) (stable canary : LaneSummary) : Decision × CanaryController :=
  let elapsed := moment - c.stepStartedAt
  if canary.requests < c.config.minRequests then
    if c.config.stallTimeoutS.any fun limit => decide (limit ≤ elapsed) then
      let c' := { c with state := .rolledBack }
      -- the message reads the weight after the state has changed
      c'.record .rollback (.stalled c'.canaryWeight canary.requests c.config.minRequests
        elapsed) moment (some stable) (some canary)
    else c.record .hold (.waiting canary.requests c.config.minRequests c.config.windowS)
      moment (some stable) (some canary)
  else
    match breach c.config stable canary with
    | some b => { c with state := .rolledBack }.record .rollback (.breach b) moment
        (some stable) (some canary)
    | none =>
        if elapsed < c.config.stepHoldS then
          c.record .hold (.held c.canaryWeight elapsed c.config.stepHoldS) moment
            (some stable) (some canary)
        else if c.stepIndex ≥ c.config.steps.length - 1 then
          { c with state := .promoted }.record .promote (.promoting elapsed c.version) moment
            (some stable) (some canary)
        else
          let c' := { c with stepIndex := c.stepIndex + 1, stepStartedAt := moment }
          c'.record .advance (.advancing c'.canaryWeight elapsed) moment
            (some stable) (some canary)

/-- Evaluate the gates once. -/
def tick (moment : ℚ) (stable canary : Option LaneSummary) : Decision × CanaryController :=
  if c.state ≠ .canary then
    ({ kind := .hold, reason := .noRollout c.state, at_ := moment, state := c.state
       weight := c.canaryWeight, stepIndex := c.stepIndex, version := c.version
       stable := none, canary := none }, c)
  else
    let r := c.summaries moment stable canary
    r.2.2.judge moment r.1 r.2.1

end CanaryController

end TurboServe.Canary
