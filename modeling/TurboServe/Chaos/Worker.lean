import Mathlib.Algebra.Order.Ring.Rat

/-!
# Breakable replicas

`chaos/worker.py`: a backend that can be drained, killed and partitioned and that delays or
fails a part of its requests, and the two flavours of worker around it. One holds it in this
process, the other drives it in a child process through its control endpoints, with every
control call succeeding while the child runs.
-/

namespace TurboServe.Chaos

/-! ## §1  Faults -/

/-- The per-request faults a replica is applying. -/
structure WorkerFaults where
  latencyProbability : ℚ := 0
  latencyMs : ℚ := 0
  errorProbability : ℚ := 0
  partitioned : Bool := false
  latencyProbability_mem : 0 ≤ latencyProbability ∧ latencyProbability ≤ 1 := by decide
  latencyMs_nonneg : 0 ≤ latencyMs := by decide
  errorProbability_mem : 0 ≤ errorProbability ∧ errorProbability ≤ 1 := by decide
deriving DecidableEq

/-- Whether the replica is behaving perfectly. -/
def WorkerFaults.isEmpty (f : WorkerFaults) : Bool :=
  !f.partitioned && decide (f.errorProbability ≤ 0) &&
    (decide (f.latencyProbability ≤ 0) || decide (f.latencyMs ≤ 0))

/-- What one replica did. -/
structure WorkerStats where
  requests : ℕ := 0
  delayed : ℕ := 0
  injectedErrors : ℕ := 0
  refused : ℕ := 0
deriving DecidableEq

/-! ## §2  The backend -/

/-- Why a request is refused before it is admitted. -/
inductive Refusal : Type where
  | down
  | draining
  | partitioned
deriving DecidableEq

/-- What a replica does with a new request before its first token. -/
inductive Fate : Type where
  | refused (why : Refusal)
  /-- Sleeps `delayMs`, if any, then raises the injected error or streams. -/
  | served (delayMs : Option ℚ) (failed : Bool)
deriving DecidableEq

/-- A backend that can be broken. -/
structure FaultingBackend where
  faults : WorkerFaults := {}
  stats : WorkerStats := {}
  alive : Bool := true
  draining : Bool := false
  /-- What the streams in flight watch. -/
  generation : ℕ := 0
deriving DecidableEq

namespace FaultingBackend

variable (b : FaultingBackend)

def drain : FaultingBackend := { b with draining := true }

def kill : FaultingBackend :=
  { b with alive := false, draining := true, generation := b.generation + 1 }

def revive : FaultingBackend := { b with alive := true, draining := false }

/-- `generate` up to the call of the wrapped backend, at the request's two draws. -/
def generate (errorDraw latencyDraw : ℚ) : Fate × FaultingBackend :=
  let refuse (why : Refusal) : Fate × FaultingBackend :=
    (.refused why, { b with stats := { b.stats with refused := b.stats.refused + 1 } })
  if b.alive = false then refuse .down
  else if b.draining then refuse .draining
  else if b.faults.partitioned then refuse .partitioned
  else
    let delayed := decide (b.faults.latencyMs > 0 ∧ latencyDraw < b.faults.latencyProbability)
    let failed := decide (errorDraw < b.faults.errorProbability)
    (.served (if delayed then some b.faults.latencyMs else none) failed,
      { b with stats := { b.stats with
          requests := b.stats.requests + 1
          delayed := b.stats.delayed + delayed.toNat
          injectedErrors := b.stats.injectedErrors + failed.toNat } })

/-- `POST /chaos/faults` -/
def setFaults (f : WorkerFaults) : FaultingBackend := { b with faults := f }

/-- `POST /chaos/partition` -/
def setPartition (partitioned : Bool) : FaultingBackend :=
  { b with faults := { b.faults with partitioned := partitioned } }

end FaultingBackend

/-! ## §3  The two workers -/

/-- What every worker counts about its own disruptions. -/
structure Lifecycle where
  kills : ℕ := 0
  restarts : ℕ := 0
  drains : ℕ := 0
  partitions : ℕ := 0
deriving DecidableEq

/-- A replica in this event loop. -/
structure InProcessWorker where
  backend : FaultingBackend
  lifecycle : Lifecycle
deriving DecidableEq

namespace InProcessWorker

variable (w : InProcessWorker)

/-- A new worker. -/
def create : InProcessWorker := ⟨{}, {}⟩

def start : InProcessWorker := { w with backend := w.backend.revive }

def drain : InProcessWorker where
  backend := w.backend.drain
  lifecycle := { w.lifecycle with drains := w.lifecycle.drains + 1 }

def kill : InProcessWorker where
  backend := w.backend.kill
  lifecycle := { w.lifecycle with kills := w.lifecycle.kills + 1 }

def restart : InProcessWorker where
  backend := w.backend.revive
  lifecycle := { w.lifecycle with restarts := w.lifecycle.restarts + 1 }

def applyFaults (f : WorkerFaults) : InProcessWorker :=
  { w with backend := { w.backend with faults := f } }

def setPartitioned (partitioned : Bool) : InProcessWorker where
  backend := { w.backend with faults := { w.backend.faults with partitioned := partitioned } }
  lifecycle :=
    { w.lifecycle with partitions := w.lifecycle.partitions + partitioned.toNat }

/-- What a new request meets. -/
def fate (errorDraw latencyDraw : ℚ) : Fate := (w.backend.generate errorDraw latencyDraw).1

end InProcessWorker

/-- A replica in a child process; `process` is the child's backend while it runs, and
`faults` what a restart puts back. -/
structure SubprocessWorker where
  process : Option FaultingBackend
  faults : WorkerFaults
  lifecycle : Lifecycle
deriving DecidableEq

namespace SubprocessWorker

variable (w : SubprocessWorker)

/-- A new worker; nothing is spawned yet. -/
def create : SubprocessWorker := ⟨none, {}, {}⟩

/-- Whether the child is running. -/
def alive : Bool := w.process.isSome

/-- Spawn the child, unless it runs already. -/
def start : SubprocessWorker := if w.alive then w else { w with process := some {} }

/-- One control call, skipped while the child is not running. -/
def post (call : FaultingBackend → FaultingBackend) : SubprocessWorker :=
  { w with process := w.process.map call }

def drain : SubprocessWorker :=
  let w := w.post FaultingBackend.drain
  { w with lifecycle := { w.lifecycle with drains := w.lifecycle.drains + 1 } }

def kill : SubprocessWorker :=
  if w.alive then
    { w with
      process := none
      lifecycle := { w.lifecycle with kills := w.lifecycle.kills + 1 } }
  else w

def restart : SubprocessWorker :=
  let w := w.start
  let w := { w with lifecycle := { w.lifecycle with restarts := w.lifecycle.restarts + 1 } }
  if w.faults.isEmpty then w else w.post fun child => child.setFaults w.faults

def applyFaults (f : WorkerFaults) : SubprocessWorker :=
  let w := { w with faults := f }
  w.post fun child => child.setFaults w.faults

def setPartitioned (partitioned : Bool) : SubprocessWorker :=
  let w := { w with faults := { w.faults with partitioned := partitioned } }
  let w := w.post fun child => child.setPartition partitioned
  { w with lifecycle :=
      { w.lifecycle with partitions := w.lifecycle.partitions + partitioned.toNat } }

/-- What a new request meets: no connection while the child is not running. -/
def fate (errorDraw latencyDraw : ℚ) : Fate :=
  match w.process with
  | none => .refused .down
  | some child => (child.generate errorDraw latencyDraw).1

end SubprocessWorker

/-! ## §4  The harness's calls -/

/-- What the harness calls on a worker once it is set up. -/
inductive Control : Type where
  | drain
  | kill
  | restart
  | applyFaults (f : WorkerFaults)
  | setPartitioned (partitioned : Bool)
deriving DecidableEq

def InProcessWorker.control (w : InProcessWorker) : Control → InProcessWorker
  | .drain => w.drain
  | .kill => w.kill
  | .restart => w.restart
  | .applyFaults f => w.applyFaults f
  | .setPartitioned partitioned => w.setPartitioned partitioned

def SubprocessWorker.control (w : SubprocessWorker) : Control → SubprocessWorker
  | .drain => w.drain
  | .kill => w.kill
  | .restart => w.restart
  | .applyFaults f => w.applyFaults f
  | .setPartitioned partitioned => w.setPartitioned partitioned

end TurboServe.Chaos
