import TurboServe.Bench.Records

/-!
# The load drivers

`bench/loadgen.py`: one request driven to its record, and the closed and the open loop as
machines that take one step of one task at a time, in any order. A stream yields any events
and then ends, normally or in an exception; one that raises `CancelledError` tears the whole
run down, which is a run that stops. The clock is in nanoseconds; the gaps between arrivals
and the prompt lengths are parameters.
-/

namespace TurboServe.Bench

open TurboServe.Gateway (GenerateRequest Lane TokenEvent)

/-! ## §1  The load -/

inductive LoadMode : Type where
  | closed
  | opened
deriving DecidableEq

/-- A bound that is not set passes its check. -/
theorem pos_of_unset : ∀ t ∈ (none : Option ℚ), 0 < t := by decide

/-- How the load is shaped; the fields below the data are `__post_init__`. -/
structure LoadSpec where
  mode : LoadMode := .closed
  concurrency : ℕ := 1
  rateRps : Option ℚ := none
  durationS : Option ℚ := none
  maxInFlight : Option ℕ := none
  requestTimeoutS : Option ℚ := none
  repeatRequests : Bool := false
  lane : Lane := .stable
  backendName : String := ""
  one_le_concurrency : 1 ≤ concurrency := by first | exact Nat.one_pos | decide
  rate_pos : mode = .opened → ∃ r, rateRps = some r ∧ 0 < r := by simp
  duration_pos : ∀ d ∈ durationS, 0 < d := by first | exact Bench.pos_of_unset | decide
  one_le_maxInFlight : ∀ m ∈ maxInFlight, 1 ≤ m := by decide
  timeout_pos : ∀ t ∈ requestTimeoutS, 0 < t := by first | exact Bench.pos_of_unset | decide
  duration_of_repeat : repeatRequests = true → durationS.isSome = true := by decide

/-- `loop.time()` at a reading of the clock. -/
def clock (ns : ℤ) : ℚ := ns / nsPerS

/-! ## §2  One request -/

/-- How a stream, or the wait for it, ends. -/
inductive Ending : Type where
  | normal
  /-- `TimeoutError`, from `asyncio.timeout` or from the stream itself; `text` is the timeout
  as an f-string shows it. -/
  | timedOut (text : String)
  | backendError (text : String)
  /-- Any other exception. -/
  | raised (type text : String)
deriving DecidableEq

/-- A request being driven: when it was sent and what its stream has yielded. -/
structure Drive where
  request : GenerateRequest
  sendNs : ℤ
  events : List (TokenEvent × ℤ)

/-- Drain a stream into the builder; also whether the last event was a terminating one. -/
def consume (b : RecordBuilder) (events : List (TokenEvent × ℤ)) : RecordBuilder × Bool :=
  events.foldl (fun x e => (x.1.observe e.1 e.2, e.1.finished)) (b, false)

section Driver

variable (spec : LoadSpec) (promptTokensFor : GenerateRequest → ℕ)

/-- The record of a request whose stream ended at `endNs`. -/
def driveOne (d : Drive) (ending : Ending) (endNs : ℤ) : RequestRecord :=
  let sent := RecordBuilder.sent d.request.requestId d.request.tenantId
    (promptTokensFor d.request) spec.backendName spec.lane d.sendNs
  let (builder, sawFinal) := consume sent d.events
  match ending with
  | .normal =>
      if sawFinal then builder.build
      else (builder.failed "stream ended without a terminating event" endNs).build
  | .timedOut text => (builder.failed ("timed out after " ++ text ++ "s") endNs).build
  | .backendError text => (builder.failed text endNs).build
  | .raised type text => (builder.failed (type ++ ": " ++ text) endNs).build

/-- A request whose record is there. -/
structure Finished where
  drive : Drive
  ending : Ending
  endNs : ℤ

def Finished.record (f : Finished) : RequestRecord :=
  driveOne spec promptTokensFor f.drive f.ending f.endNs

/-- The requests being driven, those with a record in the order of the records, and the peak
of the requests in flight. -/
structure Flight where
  running : List Drive
  finished : List Finished
  peak : ℕ

namespace Flight

variable (f : Flight)

def empty : Flight := ⟨[], [], 0⟩

/-- `in_flight.enter()` and `builder.sent()`. -/
def start (request : GenerateRequest) (now : ℤ) : Flight :=
  { f with
    running := f.running ++ [⟨request, now, []⟩]
    peak := max f.peak (f.running.length + 1) }

/-- The `k`-th stream yields an event. -/
def receive (k : ℕ) (e : TokenEvent) (now : ℤ) : Option Flight :=
  (f.running[k]?).map fun d =>
    { f with running := f.running.set k { d with events := d.events ++ [(e, now)] } }

/-- The `k`-th stream ends, and its record is there. -/
def finish (k : ℕ) (ending : Ending) (now : ℤ) : Option Flight :=
  (f.running[k]?).map fun d =>
    { f with running := f.running.eraseIdx k, finished := f.finished ++ [⟨d, ending, now⟩] }

end Flight

/-! ## §3  The closed loop -/

section Loops

variable (pool : List GenerateRequest) (startNs : ℤ)

/-- When the load stops. -/
def deadline : Option ℚ := spec.durationS.map fun d => clock startNs + d

/-- Whether the deadline is reached. -/
def expired (now : ℚ) : Bool :=
  match deadline spec startNs with
  | some t => decide (t ≤ now)
  | none => false

/-- A closed loop: the shared cursor, the workers at the top of their loop, those that have
returned, and the requests the others are driving. -/
structure ClosedLoop where
  now : ℤ
  cursor : ℕ
  idle : ℕ
  exited : ℕ
  flight : Flight

namespace ClosedLoop

def initial : ClosedLoop := ⟨startNs, 0, spec.concurrency, 0, .empty⟩

inductive Act : Type where
  | advance (ns : ℕ)
  /-- A worker at the top of its loop returns or takes the next request. -/
  | turn
  | receive (k : ℕ) (e : TokenEvent)
  | finish (k : ℕ) (ending : Ending)

variable (s : ClosedLoop)

def turn : Option ClosedLoop :=
  if s.idle = 0 then none
  else
    match pool[s.cursor]? with
    | none => some { s with idle := s.idle - 1, exited := s.exited + 1 }
    | some request =>
        if expired spec startNs (clock s.now) then
          some { s with idle := s.idle - 1, exited := s.exited + 1 }
        else
          some { s with
            idle := s.idle - 1, cursor := s.cursor + 1
            flight := s.flight.start request s.now }

/-- One step, if it can be taken. -/
def perform : Act → Option ClosedLoop
  | .advance ns => some { s with now := s.now + ns }
  | .turn => s.turn spec pool startNs
  | .receive k e => (s.flight.receive k e s.now).map fun f => { s with flight := f }
  | .finish k ending =>
      (s.flight.finish k ending s.now).map fun f => { s with flight := f, idle := s.idle + 1 }

/-- All workers have returned, and the driver with them. -/
def Returned : Prop := s.exited = spec.concurrency

end ClosedLoop

/-! ## §4  The open loop -/

/-- The `index`-th request, cycling the pool with a distinct id on each repetition. -/
def nthRequest (index : ℕ) : Option GenerateRequest :=
  if index < pool.length then pool[index]?
  else
    (pool[index % pool.length]?).map fun base =>
      { base with
        requestId := base.requestId ++ "#" ++ toString (index / pool.length) }

/-- Where the coroutine that sends the requests is. -/
inductive Dispatch : Type where
  | top
  | sleeping
  /-- Waiting for a place in flight. -/
  | acquiring
  /-- Waiting for the tasks. -/
  | joining
  | returned
deriving DecidableEq

/-- An open loop: the arrival to come, the semaphore, the tasks created that have not run
yet (first in, first out), and the requests the others are driving. -/
structure OpenLoop where
  now : ℤ
  index : ℕ
  offset : ℚ
  value : Option ℕ
  dispatch : Dispatch
  created : List GenerateRequest
  flight : Flight

namespace OpenLoop

/-- The driver returns at once for an empty pool. -/
def initial : OpenLoop where
  now := startNs
  index := 0
  offset := 0
  value := spec.maxInFlight
  dispatch := if pool = [] then .returned else .top
  created := []
  flight := .empty

inductive Act : Type where
  | advance (ns : ℕ)
  /-- The dispatcher looks at the next arrival. -/
  | look
  | wake
  /-- It gets a place and creates the task. -/
  | launch
  /-- The task that was created first begins. -/
  | start
  | receive (k : ℕ) (e : TokenEvent)
  | finish (k : ℕ) (ending : Ending)
  | join

variable (gap : ℕ → ℚ) (s : OpenLoop)

/-- `target = start + offset` -/
def target : ℚ := clock startNs + s.offset

def look : Option OpenLoop :=
  if s.dispatch ≠ .top then none
  else if spec.repeatRequests = false ∧ pool.length ≤ s.index then
    some { s with dispatch := .joining }
  else if expired spec startNs (s.target startNs) then some { s with dispatch := .joining }
  else if s.target startNs - clock s.now > 0 then some { s with dispatch := .sleeping }
  else some { s with dispatch := .acquiring }

def launch : Option OpenLoop :=
  if s.dispatch ≠ .acquiring ∨ s.value = some 0 then none
  else
    (nthRequest pool s.index).map fun request =>
      { s with
        value := s.value.map (· - 1), dispatch := .top, index := s.index + 1
        offset := s.offset + gap s.index, created := s.created ++ [request] }

/-- One step, if it can be taken. -/
def perform : Act → Option OpenLoop
  | .advance ns => some { s with now := s.now + ns }
  | .look => s.look spec pool startNs
  | .wake =>
      if s.dispatch = .sleeping ∧ s.target startNs ≤ clock s.now then
        some { s with dispatch := .acquiring }
      else none
  | .launch => s.launch pool gap
  | .start =>
      match s.created with
      | [] => none
      | request :: rest =>
          some { s with created := rest, flight := s.flight.start request s.now }
  | .receive k e => (s.flight.receive k e s.now).map fun f => { s with flight := f }
  | .finish k ending =>
      (s.flight.finish k ending s.now).map fun f =>
        { s with flight := f, value := s.value.map (· + 1) }
  | .join =>
      if s.dispatch = .joining ∧ s.created = [] ∧ s.flight.running = [] then
        some { s with dispatch := .returned }
      else none

end OpenLoop

end Loops

end Driver

end TurboServe.Bench
