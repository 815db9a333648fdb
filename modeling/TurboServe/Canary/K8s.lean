import TurboServe.Canary.Controller

/-!
# Driving a rollout

`canary/k8s.py`: the driver that moves traffic with two Services and two Deployments,
and the loop that turns decisions into its calls. A `kubectl` command that raises
leaves the cluster as it was; which ones raise is a parameter.
-/

namespace TurboServe.Canary

/-! ## §1  The cluster and its commands -/

/-- What the driver reads and writes: the canary Service's weight and lane annotations,
the stable Service's lane annotation, the images of the driver's container in both
Deployments ("" when there is no such container), and the canary's replicas. -/
structure Cluster where
  canaryTraffic : Option ℕ
  canaryLane : Option ℕ
  stableLane : Option ℕ
  stableImage : String
  canaryImage : String
  canaryReplicas : ℕ
deriving DecidableEq

inductive Command : Type where
  | patchCanaryService (percent : ℕ)
  | patchStableService (percent : ℕ)
  | getCanaryImage
  | setStableImage (image : String)
  | rolloutStatus
  | scaleCanary (replicas : ℕ)
deriving DecidableEq

/-- What a command that succeeds does. -/
def Cluster.apply (k : Cluster) : Command → Cluster
  | .patchCanaryService percent =>
      { k with canaryTraffic := some percent, canaryLane := some percent }
  | .patchStableService percent => { k with stableLane := some percent }
  | .getCanaryImage => k
  | .setStableImage image => { k with stableImage := image }
  | .rolloutStatus => k
  | .scaleCanary replicas => { k with canaryReplicas := replicas }

/-- The cluster, and the commands so far, each with whether it raised. -/
structure World where
  cluster : Cluster
  commands : List (Command × Bool)
deriving DecidableEq

/-- Whether the driver raised, and the world it leaves. -/
abbrev Effect : Type := Bool × World

/-- Go on unless the driver raised. -/
def Effect.andThen (e : Effect) (next : World → Effect) : Effect :=
  if e.1 then e else next e.2

/-! ## §2  The driver -/

namespace World

-- which commands raise: the position of a command, and the command
variable (fails : ℕ → Command → Bool)

/-- `Kubectl.run` -/
def exec (w : World) (cmd : Command) : Effect :=
  if fails w.commands.length cmd then
    (true, { w with commands := w.commands ++ [(cmd, true)] })
  else
    (false, { cluster := w.cluster.apply cmd, commands := w.commands ++ [(cmd, false)] })

/-- Patch both Services; a weight above 100 is refused. -/
def setWeight (w : World) (percent : ℕ) : Effect :=
  if 100 < percent then (true, w)
  else
    (w.exec fails (.patchCanaryService percent)).andThen fun w =>
      w.exec fails (.patchStableService (100 - percent))

/-- `canary_image`: an empty answer raises too. -/
def readCanaryImage (w : World) : Effect :=
  let refused := fails w.commands.length .getCanaryImage || w.cluster.canaryImage = ""
  (refused, { w with commands := w.commands ++ [(.getCanaryImage, refused)] })

/-- Roll the canary's image onto stable, wait, then drain the canary. -/
def promote (w : World) : Effect :=
  (w.readCanaryImage fails).andThen fun w =>
    (w.exec fails (.setStableImage w.cluster.canaryImage)).andThen fun w =>
      (w.exec fails .rolloutStatus).andThen fun w =>
        (w.setWeight fails 0).andThen fun w => w.exec fails (.scaleCanary 0)

/-- Take the canary out of the split and scale it to zero. -/
def abort (w : World) : Effect :=
  (w.setWeight fails 0).andThen fun w => w.exec fails (.scaleCanary 0)

end World

/-! ## §3  The loop -/

inductive RolloutOutcome : Type where
  | promoted
  | rolledBack
  | timedOut
  | running
deriving DecidableEq

/-- How a run stands: it returned, it raised, or it waits for another poll. -/
inductive RunStatus : Type where
  | returned
  | raised
  | polling
deriving DecidableEq

/-- One request the controller is told about. -/
structure Observed where
  lane : Lane
  ok : Bool
  ttftMs : Option ℚ
  e2eMs : Option ℚ
  moment : ℚ
deriving DecidableEq

/-- What a poll gets of the metrics source, if there is one. -/
inductive Fetched : Type where
  | noSource
  | summaries (stable canary : Option LaneSummary)
  | unavailable (message : String)
deriving DecidableEq

/-- One iteration's input: what was observed while it slept, the clock, and the source. -/
structure Poll where
  observed : List Observed
  now : ℚ
  fetched : Fetched

/-- The runner's settings; `formatG` is the format `g` of a number. -/
structure CanaryRunner where
  deadlineS : Option ℚ
  formatG : ℚ → String
  maxMetricFailures : ℕ
  one_le_maxMetricFailures : 1 ≤ maxMetricFailures

/-- A run in progress. -/
structure Progress where
  controller : CanaryController
  world : World
  decisions : List Decision
  outcome : RolloutOutcome

namespace Progress

variable (p : Progress)

/-- The driver was called. -/
def after (e : Effect) : Progress := { p with world := e.2 }

def observe (os : List Observed) : Progress :=
  { p with
    controller := os.foldl
      (fun c o => c.observe o.lane o.ok o.ttftMs o.e2eMs o.moment) p.controller }

end Progress

namespace CanaryRunner

variable (r : CanaryRunner) (fails : ℕ → Command → Bool)

/-- End the rollout from outside the gates: the controller first, then the cluster. -/
def giveUp (p : Progress) (reason : String) (now : ℚ) (outcome : RolloutOutcome) :
    RunStatus × Progress :=
  match p.controller.abort reason now with
  | .error _ => (.raised, p)
  | .ok (d, c) =>
      let p := { p with controller := c, decisions := p.decisions ++ [d] }
      let e := p.world.abort fails
      if e.1 then (.raised, p.after e)
      else (.returned, { p.after e with outcome := outcome })

/-- `_apply`: a decision's cluster action; true when the driver raised. -/
def apply (p : Progress) (kind : DecisionKind) : Bool × Progress :=
  match kind with
  | .advance =>
      let e := p.world.setWeight fails p.controller.canaryWeight
      (e.1, p.after e)
  | .promote =>
      let e := p.world.promote fails
      (e.1, if e.1 then p.after e else { p.after e with outcome := .promoted })
  | .rollback =>
      let e := p.world.abort fails
      (e.1, if e.1 then p.after e else { p.after e with outcome := .rolledBack })
  | .hold => (false, p)

/-- Evaluate the gates and act on the decision. -/
def judgeOnce (failures : ℕ) (p : Progress) (now : ℚ) (stable canary : Option LaneSummary) :
    Except (RunStatus × Progress) (ℕ × Progress) :=
  let t := p.controller.tick now stable canary
  let a := apply fails
    { p with controller := t.2, decisions := p.decisions ++ [t.1] } t.1.kind
  if a.1 then .error (.raised, a.2) else .ok (failures, a.2)

/-- One iteration of the loop: how the run ends, or the metric failures in a row and the
run that goes on. -/
def iterate (started : ℚ) (poll : Poll) (failures : ℕ) (p : Progress) :
    Except (RunStatus × Progress) (ℕ × Progress) :=
  let p := p.observe poll.observed
  match r.deadlineS.filter fun limit => decide (limit ≤ poll.now - started) with
  | some limit =>
      .error (giveUp fails p
        ("rollout exceeded its deadline of " ++ r.formatG limit ++ "s") poll.now .timedOut)
  | none =>
      match poll.fetched with
      | .unavailable message =>
          if r.maxMetricFailures ≤ failures + 1 then
            .error (giveUp fails p
              ("metrics unavailable for " ++ toString (failures + 1) ++
                " consecutive polls: " ++ message) poll.now .rolledBack)
          else .ok (failures + 1, p)
      | .noSource => judgeOnce fails failures p poll.now none none
      | .summaries stable canary => judgeOnce fails 0 p poll.now stable canary

/-- The loop, over the polls there are. -/
def loop (started : ℚ) : List Poll → ℕ → Progress → RunStatus × Progress
  | [], _, p => if p.controller.state = .canary then (.polling, p) else (.returned, p)
  | poll :: rest, failures, p =>
      if p.controller.state = .canary then
        match r.iterate fails started poll failures p with
        | .error ended => ended
        | .ok (failures, p) => loop started rest failures p
      else (.returned, p)

/-- `run`: start, set the first weight, and loop. -/
def run (version : String) (started : ℚ) (polls : List Poll) (c : CanaryController)
    (w : World) : RunStatus × Progress :=
  let p : Progress := { controller := c, world := w, decisions := [], outcome := .running }
  match c.start version started with
  | .error _ => (.raised, p)
  | .ok (d, c) =>
      let e := w.setWeight fails c.canaryWeight
      let p := { p with controller := c, world := e.2, decisions := [d] }
      if e.1 then (.raised, p) else r.loop fails started polls 0 p

end CanaryRunner

end TurboServe.Canary
