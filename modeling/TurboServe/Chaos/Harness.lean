import TurboServe.Chaos.Faults
import TurboServe.Chaos.Windows
import TurboServe.Chaos.Worker

/-!
# The chaos harness

`chaos/harness.py`: applying a timeline to a fleet of in-process workers, the bookkeeping of
disruptions beside it, and the recoveries read off the completed requests. Every action is
taken at its scheduled moment.
-/

namespace TurboServe.Chaos

/-! ## §1  Applying a timeline -/

/-- The replicas by name. -/
abbrev Fleet := List Char → InProcessWorker

/-- Every replica as it is created. -/
def Fleet.created : Fleet := fun _ => .create

/-- What an action does to its replica. -/
def FaultAction.perform (action : FaultAction) (w : InProcessWorker) : InProcessWorker :=
  match action with
  | .drain => w.drain
  | .kill => w.kill
  | .restart => w.restart
  | .partitionStart => w.setPartitioned true
  | .partitionEnd => w.setPartitioned false

def Fleet.perform (fleet : Fleet) (event : FaultEvent) : Fleet :=
  Function.update fleet event.target (event.action.perform (fleet event.target))

/-- The fleet after the events up to the moment `t`. -/
def Fleet.atTime (fleet : Fleet) (events : List FaultEvent) (t : ℚ) : Fleet :=
  (events.filter fun event => decide (event.tS ≤ t)).foldl Fleet.perform fleet

/-- The replica is killed, draining or partitioned. -/
def InProcessWorker.Out (w : InProcessWorker) : Prop :=
  w.backend.alive = false ∨ w.backend.draining = true ∨ w.backend.faults.partitioned = true

/-! ## §2  Disruptions -/

/-- One replica's time out of service. -/
structure Disruption where
  target : List Char
  kind : FaultKind
  startedS : ℚ
  killedS : Option ℚ := none
  restoredS : Option ℚ := none
  recoveredS : Option ℚ := none
deriving DecidableEq

/-- The interval it impaired the fleet for. -/
def Disruption.window (d : Disruption) (fallbackEndS : ℚ) : ℚ × ℚ :=
  (d.startedS, max d.startedS (d.recoveredS.getD fallbackEndS))

/-- The fleet and the books: the disruptions begun so far, and which of them is open on which
target. -/
structure Driving where
  fleet : Fleet
  openByTarget : List Char → Option ℕ := fun _ => none
  disruptions : List Disruption := []

/-- `begin`: the open disruption of the target, or a new one. -/
def Driving.begin (s : Driving) (event : FaultEvent) (nowS : ℚ) : ℕ × Driving :=
  match s.openByTarget event.target with
  | some i => (i, s)
  | none =>
      (s.disruptions.length,
        { s with
          openByTarget :=
            Function.update s.openByTarget event.target (some s.disruptions.length)
          disruptions := s.disruptions ++
            [{ target := event.target, kind := event.kind, startedS := nowS }] })

/-- The end of a disruption: it is no longer open, and restored now. -/
def Driving.restore (s : Driving) (target : List Char) (nowS : ℚ) : Driving :=
  match s.openByTarget target with
  | none => s
  | some i =>
      { s with
        openByTarget := Function.update s.openByTarget target none
        disruptions := s.disruptions.modify i fun d => { d with restoredS := some nowS } }

/-- `_apply` -/
def Driving.apply (s : Driving) (event : FaultEvent) : Driving :=
  let nowS := event.tS
  match event.action with
  | .drain | .partitionStart =>
      let s := (s.begin event nowS).2
      { s with fleet := s.fleet.perform event }
  | .kill =>
      let begun := s.begin event nowS
      { begun.2 with
        fleet := begun.2.fleet.perform event
        disruptions := begun.2.disruptions.modify begun.1 fun d => { d with killedS := some nowS } }
  | .restart | .partitionEnd =>
      { s with fleet := s.fleet.perform event }.restore event.target nowS

/-- `_drive_faults` -/
def Driving.drive (fleet : Fleet) (events : List FaultEvent) : Driving :=
  events.foldl Driving.apply { fleet := fleet }

/-! ## §3  Recoveries -/

/-- One request that ended, and the replica that served it. -/
structure Completion where
  tS : ℚ
  backend : List Char
  ok : Bool
deriving DecidableEq

/-- The first success of the restored replica, within the run. -/
def Disruption.recover (d : Disruption) (ordered : List Completion) (fallbackEndS : ℚ) :
    Disruption :=
  match d.restoredS with
  | none => d
  | some floor =>
      match ordered.find? fun c => c.ok && decide (c.backend = d.target) &&
          decide (floor ≤ c.tS) && decide (c.tS ≤ fallbackEndS) with
      | none => d
      | some c => { d with recoveredS := some c.tS }

/-- `_attribute_recoveries` -/
def attributeRecoveries (disruptions : List Disruption) (completions : List Completion)
    (fallbackEndS : ℚ) : List Disruption :=
  let ordered := completions.mergeSort fun a b => decide (a.tS ≤ b.tS)
  disruptions.map fun d => d.recover ordered fallbackEndS

/-- The windows `_chaos_summary` reports and splits the records by. -/
def impairedWindows (fleet : Fleet) (events : List FaultEvent) (completions : List Completion)
    (endS : ℚ) : List (ℚ × ℚ) :=
  mergeWindows ((attributeRecoveries (Driving.drive fleet events).disruptions completions
    endS).map fun d => d.window endS)

end TurboServe.Chaos
