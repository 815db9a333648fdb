import TurboServe.Lib.Service
import TurboServe.Runtime.LlmEngine

/-!
# The asyncio surface

`AsyncLLMEngine` of `engine/runtime/async_engine.py`: `generate` opens a stream and queues its
request, one background loop hands the queued requests to the engine, applies the queued aborts,
steps and gives each delta to the stream of its request. Between two suspensions of a task
nothing else runs, so each of these is one action; the step runs in a thread, and whatever
consumers do meanwhile reaches the engine through the two queues only.

Streams are numbered as they are opened. A stream keeps everything its queue ever got, how much
of it the consumer has taken, and whether its generator still runs or waits (`reading`). `job` and
`gaveUp` are for the statements: no action reads them.
-/

namespace TurboServe.Runtime

open TurboServe.Core TurboServe.Lib

/-! ## §1  Streams -/

/-- What ended the engine: an exception of its own, or any other. -/
inductive Cause (F : Type) : Type where
  | fault (fault : F)
  | foreign (message : String)

/-- An `AsyncEngineDeadError`: `engine was closed`, or `engine step loop died: {exc}`. -/
inductive DeadError (F : Type) : Type where
  | closed
  | died (cause : Cause F)

/-- What is put on the queue of a stream. -/
inductive StreamItem (F : Type) : Type where
  | output (o : RequestOutput)
  | rejected (fault : F)
  | dead (error : DeadError F)

/-- What `generate` raises before it opens a stream. -/
inductive GenerateFault (F : Type) : Type where
  | closed
  | died (cause : Cause F)
  | alreadyStreaming (requestId : String)

/-- One call of `generate`: its request, its queue, and its consumer. -/
structure Stream (F : Type) where
  request : Scheduler.Request
  items : List (StreamItem F)
  taken : ℕ
  finished : Bool
  reading : Bool
  job : Option ℕ
  gaveUp : Bool

/-- `_Stream()` -/
def Stream.create {F : Type} (r : Scheduler.Request) : Stream F :=
  { request := r, items := [], taken := 0, finished := false, reading := true, job := none
    gaveUp := false }

/-- The generator is suspended where it handed over a finished output: asked again, it returns. -/
def Stream.atEnd {F : Type} (st : Stream F) : Bool :=
  match (st.items.take st.taken).getLast? with
  | some (.output o) => o.finished
  | some _ | none => false

/-- An entry of `_pending`: the request, and the stream whose queue it carries. -/
structure PendingRequest where
  request : Scheduler.Request
  stream : ℕ

/-- The terminator of a stream whose request is aborted. -/
def abortOutput (requestId : String) : RequestOutput where
  requestId := requestId
  newTokenIds := []
  textDelta := []
  finished := true
  finishReason := some .abort
  promptTokens := 0
  outputTokens := 0
  cachedPromptTokens := 0

/-- The background task: not created, waiting for work, in `engine.step`, or gone. -/
inductive LoopState : Type where
  | stopped
  | waiting
  | stepping
  | gone
deriving DecidableEq

/-- The engine it wraps is kept with the record of its calls. -/
structure AsyncLLMEngine (E F : Type) where
  served : Service.History E Scheduler.Request RequestOutput
  pending : List PendingRequest
  aborting : List String
  streams : String → Option ℕ
  opened : ℕ → Stream F
  numOpened : ℕ
  loop : LoopState
  error : Option (Cause F)
  closed : Bool

namespace AsyncLLMEngine

variable {E F T : Type}

/-- `AsyncLLMEngine(engine)` -/
def create (engine : E) : AsyncLLMEngine E F where
  served := ⟨engine, [], []⟩
  pending := []
  aborting := []
  streams _ := none
  opened _ := .create { requestId := "", promptTokenIds := [] }
  numOpened := 0
  loop := .stopped
  error := none
  closed := false

section Parts

variable (s : AsyncLLMEngine E F)

def engine : E := s.served.engine

def isHealthy : Bool := s.error.isNone && !s.closed

def requestId (n : ℕ) : String := (s.opened n).request.requestId

def setStream (n : ℕ) (st : Stream F) : AsyncLLMEngine E F :=
  { s with opened := Function.update s.opened n st }

/-- `stream.queue.put_nowait(item)` -/
def put (n : ℕ) (item : StreamItem F) : AsyncLLMEngine E F :=
  s.setStream n { s.opened n with items := (s.opened n).items ++ [item] }

/-- `self._streams.pop(request_id, None)` -/
def drop (requestId : String) : AsyncLLMEngine E F :=
  { s with streams := Function.update s.streams requestId none }

/-- `start`: the task is created once. Calling it after the loop has died would create another;
`generate` never does. -/
def start : AsyncLLMEngine E F :=
  if s.loop = .stopped then { s with loop := .waiting } else s

/-- `generate`, up to where it waits for its first output. -/
def generate (r : Scheduler.Request) : Except (GenerateFault F) ℕ × AsyncLLMEngine E F :=
  if s.closed then (.error .closed, s)
  else
    match s.error with
    | some cause => (.error (.died cause), s)
    | none =>
        let s' := s.start
        if (s'.streams r.requestId).isSome then (.error (.alreadyStreaming r.requestId), s')
        else
          (.ok s'.numOpened, { s' with
            streams := Function.update s'.streams r.requestId (some s'.numOpened)
            opened := Function.update s'.opened s'.numOpened (.create r)
            numOpened := s'.numOpened + 1
            pending := s'.pending ++ [⟨r, s'.numOpened⟩] })

/-- `_fail_all`: put `error` on every open stream and forget them. -/
def failAll (error : DeadError F) : AsyncLLMEngine E F :=
  { s with
    opened := fun n =>
      if s.streams (s.requestId n) = some n ∧ (s.opened n).finished = false then
        { s.opened n with items := (s.opened n).items ++ [.dead error] }
      else s.opened n
    streams := fun _ => none }

/-- The loop ends with an exception. -/
def die (cause : Cause F) : AsyncLLMEngine E F :=
  { s.failAll (.died cause) with error := some cause, loop := .gone }

/-- `close`: the engine is not called again. -/
def close : AsyncLLMEngine E F :=
  if s.closed then s else { s.failAll .closed with closed := true, loop := .gone }

end Parts

/-! ## §2  The loop -/

/-- One entry of `_pending` handed over as request number `job`. -/
def handed (s : AsyncLLMEngine E F) (item : PendingRequest) (job : ℕ) (e : E) :
    AsyncLLMEngine E F :=
  { s with
    served := { s.served with engine := e, jobs := s.served.jobs ++ [(job, item.request)] }
    opened := Function.update s.opened item.stream
      { s.opened item.stream with job := some job } }

/-- One entry of `_pending` that the engine refuses. -/
def refused (s : AsyncLLMEngine E F) (item : PendingRequest) (fault : F) (e : E) :
    AsyncLLMEngine E F :=
  (({ s with served := { s.served with engine := e } } : AsyncLLMEngine E F).drop
    item.request.requestId).put item.stream (.rejected fault)

/-- The stream of an aborted request is closed. -/
def endStream (s : AsyncLLMEngine E F) (requestId : String) : AsyncLLMEngine E F :=
  match s.streams requestId with
  | none => s
  | some n =>
      if (s.opened n).finished then s.drop requestId
      else (s.drop requestId).put n (.output (abortOutput requestId))

/-- `_dispatch`: each delta goes to the stream of its request, if there is one. -/
def dispatch (s : AsyncLLMEngine E F) : List RequestOutput → AsyncLLMEngine E F
  | [] => s
  | o :: rest =>
      match s.streams o.requestId with
      | none => dispatch s rest
      | some n =>
          let s' := s.put n (.output o)
          if o.finished then
            dispatch ((s'.setStream n { s'.opened n with finished := true }).drop o.requestId) rest
          else dispatch s' rest

variable (S : Service E Scheduler.Request String RequestOutput F T)

/-- `_drain_pending`: a request that the engine rejects fails only its own stream. -/
def drainPending (s : AsyncLLMEngine E F) : List PendingRequest → AsyncLLMEngine E F
  | [] => s
  | item :: rest =>
      match S.submit s.engine item.request with
      | (.ok job, e) => drainPending (s.handed item job e) rest
      | (.error fault, e) => drainPending (s.refused item fault e) rest

/-- `_drain_aborts`, with the exception that ended it. -/
def drainAborts (s : AsyncLLMEngine E F) : List String → Option F × AsyncLLMEngine E F
  | [] => (none, s)
  | id :: rest =>
      match S.abort s.engine id with
      | .error fault => (some fault, { s with aborting := rest })
      | .ok (_, e) =>
          drainAborts (({ s with served := { s.served with engine := e } } :
            AsyncLLMEngine E F).endStream id) rest

/-- From the head of the loop to its next suspension: `to_thread` or `_wait_for_work`. -/
def turn (s : AsyncLLMEngine E F) : AsyncLLMEngine E F :=
  let drained := drainPending S { s with pending := [] } s.pending
  match drainAborts S { drained with aborting := [] } drained.aborting with
  | (some fault, s') => s'.die (.fault fault)
  | (none, s') => { s' with loop := if S.busy s'.engine then .stepping else .waiting }

/-- A step has returned. -/
def returned (s : AsyncLLMEngine E F) (outputs : List (ℕ × RequestOutput)) (e : E) :
    AsyncLLMEngine E F :=
  ({ s with served := { s.served with engine := e, outputs := s.served.outputs ++ outputs } } :
    AsyncLLMEngine E F).dispatch (outputs.map Prod.snd)

/-! ## §3  Consumers -/

/-- `abort_nowait` -/
def abortNowait (s : AsyncLLMEngine E F) (requestId : String) : AsyncLLMEngine E F :=
  { s with aborting := s.aborting ++ [requestId] }

/-- The generator of stream `n` has ended. -/
def endReading (s : AsyncLLMEngine E F) (n : ℕ) : AsyncLLMEngine E F :=
  s.setStream n { s.opened n with reading := false }

/-- An open stream is nobody's any more. -/
def giveUp (s : AsyncLLMEngine E F) (n : ℕ) : AsyncLLMEngine E F :=
  s.setStream n { s.opened n with
    gaveUp := (s.opened n).gaveUp || decide (s.streams (s.requestId n) = some n) }

/-- The generator of stream `n` gets the next item of its queue: it is suspended again where it
hands an output over, also a finished one; an exception leaves it through the `finally` that
aborts. -/
def take (s : AsyncLLMEngine E F) (n : ℕ) (item : StreamItem F) : AsyncLLMEngine E F :=
  let s' := s.setStream n { s.opened n with taken := (s.opened n).taken + 1 }
  match item with
  | .output _ => s'
  | _ => (s'.endReading n).abortNowait (s.requestId n)

/-- The generator of stream `n` is closed before it has returned. Where it is suspended at a
finished output, `finished` is not set yet, so that also this queues an abort. -/
def leave (s : AsyncLLMEngine E F) (n : ℕ) : AsyncLLMEngine E F :=
  ((s.giveUp n).endReading n).abortNowait (s.requestId n)

/-- A call of `abort` for the request of stream `n`. -/
def abort (s : AsyncLLMEngine E F) (n : ℕ) : AsyncLLMEngine E F :=
  (s.giveUp n).abortNowait (s.requestId n)

/-! ## §4  Actions -/

/-- What can happen next: `take` is a consumer that asks its generator for one more item. A step
can also raise for reasons outside the engine. -/
inductive Action (F T : Type) : Type where
  | generate (r : Scheduler.Request)
  | wake
  | step (t : T)
  | raise (cause : Cause F)
  | close
  | take (n : ℕ)
  | leave (n : ℕ)
  | abort (n : ℕ)

/-- `none` where the action cannot happen. -/
def act (s : AsyncLLMEngine E F) : Action F T → Option (AsyncLLMEngine E F)
  | .generate r => some (s.generate r).2
  | .wake => if s.loop = .waiting then some (s.turn S) else none
  | .step t =>
      if s.loop = .stepping then
        match S.step s.engine t with
        | .ok (outputs, e) => some ((s.returned outputs e).turn S)
        | .error fault => some (s.die (.fault fault))
      else none
  | .raise cause => if s.loop = .stepping then some (s.die cause) else none
  | .close => some s.close
  | .take n =>
      if (s.opened n).reading = true ∧ n < s.numOpened then
        if (s.opened n).atEnd then some (s.endReading n)
        else ((s.opened n).items[(s.opened n).taken]?).map (s.take n)
      else none
  | .leave n =>
      if (s.opened n).reading = true ∧ n < s.numOpened then some (s.leave n) else none
  | .abort n => if n < s.numOpened then some (s.abort n) else none

/-- Every interleaving of the actions that `allowed` lets happen, around an idle engine. -/
def system (idle : E → Prop) (allowed : AsyncLLMEngine E F → Action F T → Prop) :
    TransitionSystem (AsyncLLMEngine E F) where
  init s := ∃ e, idle e ∧ s = create e
  step s s' := ∃ a, allowed s a ∧ s.act S a = some s'

end AsyncLLMEngine

end TurboServe.Runtime
