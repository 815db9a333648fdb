import TurboServe.Gateway.Usage

/-!
# The gateway's sessions

`gateway/app.py` from the first routed event on, and the bodies of
`gateway/openai_types.py` it answers with: the session of one admitted request, the
two generators that stream it, and the collector that buffers it. What is served is
the payload of each frame; serialising it is not modelled.
-/

namespace TurboServe.Gateway

open TurboServe.Core (FinishReason)
open Lib (Gen)

/-! ## §1  Bodies -/

/-- `openai_finish_reason`: an abort is reported as a stop. -/
def openaiFinishReason : Option FinishReason → Option String
  | none => none
  | some .length => some "length"
  | some _ => some "stop"

/-- The `usage` object; `cachedTokens` is its `prompt_tokens_details`. -/
structure UsageInfo where
  promptTokens : ℕ
  completionTokens : ℕ
  totalTokens : ℕ
  cachedTokens : Option ℕ
deriving DecidableEq

/-- `_usage_info(record)` -/
def usageInfo (r : UsageRecord) : UsageInfo where
  promptTokens := r.promptTokens
  completionTokens := r.completionTokens
  totalTokens := r.totalTokens
  cachedTokens := if r.cachedPromptTokens = 0 then none else some r.cachedPromptTokens

structure CompletionChoice where
  text : String
  finishReason : Option String
deriving DecidableEq

/-- The body of a buffered completion, and of each chunk of a streamed one. -/
structure CompletionResponse where
  id : String
  created : ℤ
  model : String
  choices : List CompletionChoice
  usage : Option UsageInfo := none
deriving DecidableEq

structure ChatCompletionMessage where
  role : String := "assistant"
  content : String
deriving DecidableEq

structure ChatCompletionChoice where
  message : ChatCompletionMessage
  finishReason : Option String
deriving DecidableEq

structure ChatCompletionResponse where
  id : String
  created : ℤ
  model : String
  choices : List ChatCompletionChoice
  usage : Option UsageInfo
deriving DecidableEq

/-- Unset members are left out of the frame. -/
structure ChatCompletionDelta where
  role : Option String := none
  content : Option String := none
deriving DecidableEq

structure ChatCompletionChunkChoice where
  delta : ChatCompletionDelta
  finishReason : Option String := none
deriving DecidableEq

structure ChatCompletionChunk where
  id : String
  created : ℤ
  model : String
  choices : List ChatCompletionChunkChoice
  usage : Option UsageInfo := none
deriving DecidableEq

structure ErrorResponse where
  message : String
  type : String
  code : Option String := none
  param : Option String := none
deriving DecidableEq

/-- One SSE payload. -/
inductive Payload : Type where
  | completion (chunk : CompletionResponse)
  | chat (chunk : ChatCompletionChunk)
  | error (body : ErrorResponse)
  | done
deriving DecidableEq

/-- A buffered answer. -/
inductive Answer : Type where
  | completion (body : CompletionResponse)
  | chat (body : ChatCompletionResponse)
  | error (statusCode : ℕ) (body : ErrorResponse)
deriving DecidableEq

/-- `event.error or "stream failed"` -/
def failureMessage (e : TokenEvent) : String :=
  match e.error with
  | none => "stream failed"
  | some message => if message = "" then "stream failed" else message

/-! ## §2  Sessions -/

/-- An event of the router and the time the session reads it. -/
structure Pulled where
  routed : RoutedEvent
  stamp : ℚ
deriving DecidableEq

/-- What `Router.generate` does for a request: its events, then what it raises, if it
does not end normally. -/
structure Routing where
  events : List Pulled
  fault : Option RouteFault

/-- What the handler has at hand before it routes. -/
structure Opening where
  req : GenerateRequest
  promptTokens : ℕ
  estimated : Bool
  arrivalTs : ℚ

/-- What a handler reads outside: the identifier and time stamp it draws, and the clocks
when it closes the accounting. -/
structure Draws where
  id : String
  created : ℤ
  finishAt : ℚ
  chargeAt : ℚ

structure Body where
  model : String
  includeUsage : Bool

/-- One admitted request and its accounting. -/
structure Session where
  state : GatewayState
  req : GenerateRequest
  accumulator : UsageAccumulator
  finished : Bool := false

namespace Session

variable (x : Session)

/-- Fold one routed event into the accounting. -/
def feed (p : Pulled) : Session :=
  { x with accumulator := x.accumulator.onEvent p.routed.event p.stamp }

/-- Close the accounting and publish the record. -/
def complete (status : RequestStatus) (d : Draws) : UsageRecord × Session :=
  let closed := x.accumulator.finish status d.finishAt
  if x.finished then
    let published := x.state.record closed.1
    (published.1, { x with accumulator := closed.2, state := published.2 })
  else
    let charged :=
      x.state.chargeTokens x.req.tenantId x.accumulator.completionTokens d.chargeAt
    let published := charged.record closed.1
    (published.1,
      { x with
        finished := true, accumulator := closed.2
        state := published.2.decInflight published.1.tenantId published.1.model })

end Session

def noEvents (requestId : String) : BackendError :=
  { cls := .unavailable
    message := "backend produced no events for request " ++ requestId }

/-- The accounting of a request that was routed. -/
def Opening.accumulator (o : Opening) (first : RoutedEvent) : UsageAccumulator where
  requestId := o.req.requestId
  tenantId := o.req.tenantId
  model := o.req.model
  backend := first.backend
  lane := first.lane
  promptTokens := o.promptTokens
  cachedPromptTokens := 0
  arrivalTs := o.arrivalTs
  tFirstToken := none
  tFinish := none
  completionTokensSeen := 0
  countedDeltas := 0
  finishReason := none
  estimated := o.estimated

/-- Pull the first event before there is a response, and open the session on it. -/
def openSession (s : GatewayState) (o : Opening) (r : Routing) :
    Except RouteFault (Session × TokenEvent × List Pulled) :=
  match r.events, r.fault with
  | [], some fault => .error fault
  | [], none => .error (.backend (noEvents o.req.requestId))
  | first :: rest, _ =>
      let x : Session :=
        { state := s.incInflight o.req.tenantId o.req.model
          req := o.req, accumulator := o.accumulator first.routed }
      .ok (x.feed first, first.routed.event, rest)

/-! ## §3  Streamed answers -/

/-- How an endpoint renders a stream: the chunks before any event, those of an event, and
the chunk that carries the usage. -/
structure Rendering where
  preamble : List Payload
  chunks : TokenEvent → List Payload
  usageChunk : UsageInfo → Payload

/-- The `finally` block of both generators; `pending` is an exception on its way out. -/
def closeStream (rd : Rendering) (b : Body) (d : Draws) (pending : Option RouteFault)
    (status : RequestStatus) (x : Session) : Gen Session Payload RouteFault :=
  let completed := x.complete status d
  Gen.yieldAll id
    (fun x =>
      match pending with
      | none => .done x
      | some fault => .raised fault x)
    ((if b.includeUsage then [rd.usageChunk (usageInfo completed.1)] else []) ++ [.done]) completed.2

/-- A generator closed inside its `try` block completes with the status it has. -/
def onClose (d : Draws) (status : RequestStatus) (x : Session) : Session :=
  (x.complete status d).2

/-- An error frame, and the end of the loop. -/
def breakStream (rd : Rendering) (b : Body) (d : Draws) (message : String) (x : Session) :
    Gen Session Payload RouteFault :=
  .yielded (.error { message := message, type := "server_error" }) x (onClose d .error)
    (closeStream rd b d none .error)

/-- The loop of both generators, from an event that has been fed on. -/
def streamEvents (rd : Rendering) (b : Body) (d : Draws) (fault : Option RouteFault) :
    List Pulled → TokenEvent → Session → Gen Session Payload RouteFault
  | rest, event, x =>
      if event.isError then breakStream rd b d (failureMessage event) x
      else
        Gen.yieldAll (onClose d .ok)
          (match rest with
          | p :: rest => fun x =>
              streamEvents rd b d fault rest p.routed.event (x.feed p)
          | [] =>
              match fault with
              | none => closeStream rd b d none .ok
              | some (.backend exc) => breakStream rd b d exc.str
              | some other => closeStream rd b d (some other) .ok)
          (rd.chunks event) x

def sse (rd : Rendering) (b : Body) (d : Draws) (fault : Option RouteFault)
    (first : TokenEvent) (rest : List Pulled) (x : Session) :
    Gen Session Payload RouteFault :=
  Gen.yieldAll (onClose d .ok) (streamEvents rd b d fault rest first) rd.preamble x

/-- How `_completion_sse` renders. -/
def completionRendering (b : Body) (d : Draws) : Rendering where
  preamble := []
  chunks event :=
    if event.text ≠ "" ∨ event.finished = true then
      [.completion
        { id := d.id, created := d.created, model := b.model
          choices := [{
            text := event.text
            finishReason :=
              if event.finished then openaiFinishReason event.finishReason else none }] }]
    else []
  usageChunk usage :=
    .completion { id := d.id, created := d.created, model := b.model, choices := []
                  usage := some usage }

/-- `chunk(delta, finish_reason)` of `_chat_sse`. -/
def chatChunk (b : Body) (d : Draws) (delta : ChatCompletionDelta)
    (finishReason : Option String) : Payload :=
  .chat { id := d.id, created := d.created, model := b.model
          choices := [{ delta := delta, finishReason := finishReason }] }

/-- How `_chat_sse` renders. -/
def chatRendering (b : Body) (d : Draws) : Rendering where
  preamble := [chatChunk b d { role := some "assistant" } none]
  chunks event :=
    (if event.text ≠ "" then [chatChunk b d { content := some event.text } none] else []) ++
    (if event.finished then [chatChunk b d {} (openaiFinishReason event.finishReason)]
      else [])
  usageChunk usage :=
    .chat { id := d.id, created := d.created, model := b.model, choices := []
            usage := some usage }

def completionSse (b : Body) (d : Draws) := sse (completionRendering b d) b d

def chatSse (b : Body) (d : Draws) := sse (chatRendering b d) b d

/-! ## §4  Buffered answers -/

/-- The text so far and the next event's. -/
def addPart (parts : List String) (e : TokenEvent) : List String :=
  if e.text = "" then parts else parts ++ [e.text]

/-- Drain a stream: its text, and its last event. -/
def collect (fault : Option RouteFault) :
    List Pulled → TokenEvent → List String → Session →
      Except RouteFault (String × TokenEvent) × Session
  | p :: rest, event, parts, x =>
      collect fault rest p.routed.event (addPart parts event) (x.feed p)
  | [], event, parts, x =>
      match fault with
      | none => (.ok (String.join (addPart parts event), event), x)
      | some fault => (.error fault, x)

/-- The buffered part of both endpoints: collect, and close the accounting. -/
def drain (d : Draws) (fault : Option RouteFault) (first : TokenEvent)
    (rest : List Pulled) (x : Session) :
    Except RouteFault (String × TokenEvent × UsageRecord) × Session :=
  match collect fault rest first [] x with
  | (.error fault, x) => (.error fault, x)
  | (.ok (text, last), x) =>
      let completed := x.complete (if last.isError then .error else .ok) d
      (.ok (text, last, completed.1), completed.2)

/-- A failed stream is a 502. -/
def badGateway (last : TokenEvent) : Answer :=
  .error 502 { message := failureMessage last, type := "server_error" }

/-- The buffered answer of `create_completion`. -/
def completionAnswer (b : Body) (d : Draws) (text : String) (last : TokenEvent)
    (record : UsageRecord) : Answer :=
  if last.isError then badGateway last
  else
    .completion
      { id := d.id, created := d.created, model := b.model
        choices := [⟨text, openaiFinishReason last.finishReason⟩]
        usage := some (usageInfo record) }

/-- The buffered answer of `create_chat_completion`. -/
def chatAnswer (b : Body) (d : Draws) (text : String) (last : TokenEvent)
    (record : UsageRecord) : Answer :=
  if last.isError then badGateway last
  else
    .chat
      { id := d.id, created := d.created, model := b.model
        choices := [⟨{ content := text }, openaiFinishReason last.finishReason⟩]
        usage := some (usageInfo record) }

/-! ## §5  The endpoints -/

inductive Endpoint : Type where
  | completions
  | chat
deriving DecidableEq

namespace Endpoint

def rendering : Endpoint → Body → Draws → Rendering
  | completions => completionRendering
  | chat => chatRendering

/-- The streamed answer to a session. -/
def stream : Endpoint → Body → Draws → Option RouteFault → TokenEvent → List Pulled →
    Session → Gen Session Payload RouteFault
  | completions => completionSse
  | chat => chatSse

/-- The buffered answer to a session. -/
def answer : Endpoint → Body → Draws → String → TokenEvent → UsageRecord → Answer
  | completions => completionAnswer
  | chat => chatAnswer

end Endpoint

/-- How an answer is taken: buffered, or streamed to a client that reads to the end or
closes the stream at one of its frames. -/
inductive Mode : Type where
  | buffered
  | streamed (close : Option ℕ)
deriving DecidableEq

/-- The session once the answer is over. -/
def Mode.answered (ep : Endpoint) (b : Body) (d : Draws) (fault : Option RouteFault)
    (first : TokenEvent) (rest : List Pulled) (x : Session) : Mode → Session
  | buffered => (drain d fault first rest x).2
  | streamed close =>
      ((ep.stream b d fault first rest x).consume (fun _ => id)
        (fun k => decide (close = some k)) 0).2.2

/-- Serve an admitted request, with calls of `complete` to spare. -/
def Endpoint.serve (ep : Endpoint) (mode : Mode) (further : List RequestStatus) (b : Body)
    (d : Draws) (s : GatewayState) (o : Opening) (r : Routing) : GatewayState :=
  match openSession s o r with
  | .error _ => s
  | .ok (x, first, rest) =>
      (further.foldl (fun x status => (x.complete status d).2)
        (mode.answered ep b d r.fault first rest x)).state

end TurboServe.Gateway
