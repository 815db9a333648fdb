import TurboServe.Lib.Generator
import TurboServe.Gateway.Backend
import TurboServe.Gateway.Limits

/-!
# The router

`gateway/router.py`: pools of replicas, the choice of a replica, and the generator
that streams a request from the replica it chose, retrying only before the first
event. What an attempt reads from outside (clock, health probes, random draws, the
canary's weight, changes that other requests made to the pool meanwhile) is a
parameter of the attempt.
-/

namespace TurboServe.Gateway

open Lib (Gen)

inductive Lane : Type where
  | stable
  | canary
deriving DecidableEq

def Lane.other : Lane → Lane
  | .stable => .canary
  | .canary => .stable

/-! ## §1  Pools -/

/-- A replica and the router's opinion of it; `checkedAt` is `none` before any probe. -/
structure BackendEntry where
  name : String
  lane : Lane := .stable
  weight : ℚ := 1
  healthy : Bool := true
  checkedAt : Option ℚ := none
  consecutiveFailures : ℕ := 0
  served : ℕ := 0
deriving DecidableEq

def BackendEntry.isFresh (e : BackendEntry) (now ttl : ℚ) : Bool :=
  match e.checkedAt with
  | none => false
  | some t => decide (now - t < ttl)

/-- The replicas serving one model; a duplicate name is refused. -/
structure ModelPool where
  model : String
  entries : List BackendEntry
  names_nodup : (entries.map (·.name)).Nodup
deriving DecidableEq

namespace ModelPool

variable (p : ModelPool)

/-- Healthy replicas of a lane that have not been tried. -/
def candidates (lane : Lane) (exclude : List String) : List BackendEntry :=
  p.entries.filter fun e => e.lane = lane ∧ e.healthy ∧ e.name ∉ exclude

/-- Change entries without renaming them. -/
def update (f : BackendEntry → BackendEntry) (hf : ∀ e, (f e).name = e.name) : ModelPool :=
  { p with
    entries := p.entries.map f
    names_nodup := by
      simpa [Function.comp_def, hf] using p.names_nodup }

/-- Change the entry of one name. -/
def updateNamed (name : String) (f : BackendEntry → BackendEntry)
    (hf : ∀ e, (f e).name = e.name) : ModelPool :=
  p.update (fun e => if e.name = name then f e else e) fun e => by
    split
    · exact hf e
    · rfl

end ModelPool

/-- What one attempt reads from outside the router. -/
structure Outside where
  now : ℚ
  meanwhile : ModelPool → ModelPool
  probe : String → Bool
  canaryWeight : Option ℚ
  laneDraw : ℚ
  replicaDraw : ℚ
  failedAt : ℚ
  firstAt : ℚ
  endedAt : ℚ

/-- `repr` of a string without quotes or escapes. -/
def quoted (s : String) : String := "'" ++ s ++ "'"

/-- What a call raises. -/
inductive RouteFault : Type where
  | rateLimited (tenant : String) (limit : Option ℕ)
  | backend (e : BackendError)
deriving DecidableEq

/-! ## §2  Choosing a replica -/

/-- Probe the replicas whose verdict has expired. -/
def refreshPool (ttl : ℚ) (o : Outside) (p : ModelPool) : ModelPool :=
  p.update (fun e =>
    if e.isFresh o.now ttl then e
    else
      { e with
        healthy := o.probe e.name, checkedAt := some o.now
        consecutiveFailures := if o.probe e.name then 0 else e.consecutiveFailures })
    fun e => by split <;> rfl

/-- The canary lane's share. -/
def canaryFraction (o : Outside) : ℚ :=
  match o.canaryWeight with
  | none => 0
  | some w => min 1 (max 0 (w / 100))

def chooseLane (o : Outside) (p : ModelPool) (exclude : List String) : Lane :=
  if p.candidates .canary exclude = [] then .stable
  else if p.candidates .stable exclude = [] then .canary
  else if o.laneDraw < canaryFraction o then .canary
  else .stable

/-- The first replica at which the running weight reaches the draw, else the last. -/
def pick (draw : ℚ) (upto : ℚ) : BackendEntry → List BackendEntry → BackendEntry
  | e, [] => e
  | e, e' :: rest =>
      if draw ≤ upto + e.weight then e else pick draw (upto + e.weight) e' rest

def weightedChoice (o : Outside) (e : BackendEntry) (rest : List BackendEntry) :
    BackendEntry :=
  pick (o.replicaDraw * ((e :: rest).map (·.weight)).sum) 0 e rest

/-- The lane asked for or drawn, or the other one when it has no usable replica. -/
def selectFrom (o : Outside) (lane : Option Lane) (exclude : List String) (p : ModelPool) :
    Option BackendEntry :=
  let chosen := lane.getD (chooseLane o p exclude)
  match p.candidates chosen exclude with
  | e :: rest => some (weightedChoice o e rest)
  | [] =>
      match p.candidates chosen.other exclude with
      | e :: rest => some (weightedChoice o e rest)
      | [] => none

/-! ## §3  The shared state -/

/-- One observation handed to the canary controller. -/
structure Observation where
  lane : Lane
  ok : Bool
  ttftS : Option ℚ
  e2eS : Option ℚ
deriving DecidableEq

/-- The router's pools, the tenants' limiters, the calls the replicas received (request
id and replica) and the observations the canary controller did. -/
structure Server where
  pools : String → Option ModelPool
  limiters : String → Option TenantLimiter
  calls : List (String × String)
  observations : List Observation

namespace Server

variable (s : Server)

def setPool (model : String) (p : ModelPool) : Server :=
  { s with pools := Function.update s.pools model (some p) }

def updateEntry (model name : String) (f : BackendEntry → BackendEntry)
    (hf : ∀ e, (f e).name = e.name) : Server :=
  { s with
    pools := Function.update s.pools model
      ((s.pools model).map fun p => p.updateNamed name f hf) }

def setLimiter (tenant : String) (l : TenantLimiter) : Server :=
  { s with limiters := Function.update s.limiters tenant (some l) }

/-- The exit of `with gate`, where `gated` is whether the tenant had a limiter. -/
def leaveGate (gated : Bool) (tenant : String) : Server :=
  if gated then
    { s with
      limiters := Function.update s.limiters tenant
        ((s.limiters tenant).map (·.releaseSlot)) }
  else s

def observe (e : BackendEntry) (ok : Bool) (ttftS e2eS : Option ℚ) : Server :=
  { s with observations := s.observations ++ [⟨e.lane, ok, ttftS, e2eS⟩] }

/-- A transport failure takes the replica out; a refused request does not. -/
def markFailure (model : String) (e : BackendEntry) (exc : BackendError) (at_ : ℚ) :
    Server :=
  if exc.cls.isNonRetryable then s
  else s.updateEntry model e.name (fun e =>
    { e with
      consecutiveFailures := e.consecutiveFailures + 1
      healthy := false, checkedAt := some at_ }) fun _ => rfl

/-- The replica gets the request. -/
def call (model requestId : String) (e : BackendEntry) : Server :=
  { s.updateEntry model e.name (fun e => { e with served := e.served + 1 }) fun _ => rfl with
    calls := s.calls ++ [(requestId, e.name)] }

end Server

/-- An event and where it came from. -/
structure RoutedEvent where
  event : TokenEvent
  backend : String
  lane : Lane
  attempt : ℕ
deriving DecidableEq

namespace RoutedEvent

def finished (r : RoutedEvent) : Bool := r.event.finished

def isError (r : RoutedEvent) : Bool := r.event.isError

end RoutedEvent

/-! ## §4  The request path -/

/-- The router's settings, and what one request finds outside. -/
structure Request where
  req : GenerateRequest
  lane : Option Lane
  maxAttempts : ℕ
  healthTtlS : ℚ
  tStart : ℚ
  outside : ℕ → Outside
  behave : String → Behaviour
  one_le_maxAttempts : 1 ≤ maxAttempts

namespace Request

variable (q : Request)

/-- No usable replica on either lane. -/
def noneHealthy (tried : List String) : BackendError :=
  { cls := .unavailable
    message := "no healthy backend for model " ++ quoted q.req.model ++
      if tried = [] then ""
      else " (already tried: " ++ ", ".intercalate (tried.insertionSort (· ≤ ·)) ++ ")" }

/-- Every attempt was retried away. -/
def exhausted : BackendError :=
  { cls := .unavailable
    message := "no backend served model " ++ quoted q.req.model ++ " after " ++
      toString q.maxAttempts ++ " attempts" }

/-- `select`: the replica for the next attempt. -/
def select (attempt : ℕ) (tried : List String) (s : Server) :
    Except RouteFault BackendEntry × Server :=
  match s.pools q.req.model with
  | none =>
      (.error (.backend { cls := .modelNotFound
                          message := "no backend serves model " ++ quoted q.req.model }), s)
  | some p =>
      let o := q.outside attempt
      let p' := refreshPool q.healthTtlS o (o.meanwhile p)
      let s' := s.setPool q.req.model p'
      match selectFrom o q.lane tried p' with
      | some e => (.ok e, s')
      | none => (.error (.backend (q.noneHealthy tried)), s')

/-- The error an unexpected exception of a replica is wrapped in. -/
def wrap (e : BackendEntry) (text : String) : BackendError :=
  { cls := .nonRetryable, message := e.name ++ " failed: " ++ text, backend := some e.name }

def routed (e : BackendEntry) (attempt : ℕ) (event : TokenEvent) : RoutedEvent :=
  ⟨event, e.name, e.lane, attempt⟩

/-- The in-band failure that ends a started stream. -/
def failureEvent (e : BackendEntry) (attempt : ℕ) (exc : BackendError) : RoutedEvent :=
  routed e attempt (.failure q.req.requestId exc.str (some .abort))

/-- A failed attempt is marked and observed. -/
def failed (attempt : ℕ) (e : BackendEntry) (exc : BackendError) (s : Server) : Server :=
  (s.markFailure q.req.model e exc (q.outside attempt).failedAt).observe e false none none

/-- After the replica's stream ended normally; `streamError` is whether one of its events
was an error. -/
def ended (attempt : ℕ) (e : BackendEntry) (started streamError : Bool) (s : Server) :
    Server :=
  if streamError then s.observe e false none none
  else
    (s.updateEntry q.req.model e.name (fun e => { e with consecutiveFailures := 0 })
      fun _ => rfl).observe e true
      (if started then some ((q.outside attempt).firstAt - q.tStart) else none)
      (some ((q.outside attempt).endedAt - q.tStart))

variable (gated : Bool)

/-- `with gate` is left. -/
def leave (s : Server) : Server := s.leaveGate gated q.req.tenantId

/-- The end of a stream that has yielded: nothing is raised any more. -/
def finish (attempt : ℕ) (e : BackendEntry) (streamError : Bool) (s : Server) :
    Gen Server RoutedEvent RouteFault :=
  match (q.behave e.name).ending with
  | .normal => .done (q.leave gated (q.ended attempt e true streamError s))
  | .backendError exc =>
      .yielded (q.failureEvent e attempt exc) (q.failed attempt e exc s) (q.leave gated)
        fun s => .done (q.leave gated s)
  | .exception text =>
      .yielded (q.failureEvent e attempt (wrap e text)) (q.failed attempt e (wrap e text) s)
        (q.leave gated) fun s => .done (q.leave gated s)

/-- The replica's remaining events. -/
def stream (attempt : ℕ) (e : BackendEntry) :
    List TokenEvent → Bool → Server → Gen Server RoutedEvent RouteFault
  | [], streamError, s => q.finish gated attempt e streamError s
  | event :: rest, streamError, s =>
      .yielded (routed e attempt event) s (q.leave gated)
        (stream attempt e rest (streamError || event.isError))

/-- The attempts that are left, from attempt number `attempt` on. -/
def attempts (attempt : ℕ) (tried : List String) (lastError : Option BackendError) :
    ℕ → Server → Gen Server RoutedEvent RouteFault
  | 0, s =>
      .raised (.backend (lastError.getD q.exhausted)) (q.leave gated s)
  | left + 1, s =>
      match q.select attempt tried s with
      | (.error fault, s') => .raised fault (q.leave gated s')
      | (.ok e, s') =>
          let s'' := s'.call q.req.model q.req.requestId e
          match (q.behave e.name).events with
          | event :: rest => q.stream gated attempt e (event :: rest) false s''
          | [] =>
              match (q.behave e.name).ending with
              | .normal => .done (q.leave gated (q.ended attempt e false false s''))
              | .exception text =>
                  .raised (.backend (wrap e text))
                    (q.leave gated (q.failed attempt e (wrap e text) s''))
              | .backendError exc =>
                  let s₃ := q.failed attempt e exc s''
                  if exc.retryable then
                    attempts (attempt + 1) (tried ++ [e.name]) (some exc) left s₃
                  else .raised (.backend exc) (q.leave gated s₃)

/-- `Router.generate` -/
def generate (s : Server) : Gen Server RoutedEvent RouteFault :=
  match s.limiters q.req.tenantId with
  | none => q.attempts false 1 [] none q.maxAttempts s
  | some l =>
      match l.tryAcquireSlot with
      | none =>
          .raised (.rateLimited q.req.tenantId l.maxConcurrency)
            (s.setLimiter q.req.tenantId l.reject)
      | some l' =>
          q.attempts true 1 [] none q.maxAttempts (s.setLimiter q.req.tenantId l')

end Request

end TurboServe.Gateway
