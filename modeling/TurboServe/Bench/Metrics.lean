import TurboServe.Gateway.Router

/-!
# The load generator's records

`bench/metrics.py` and `bench/records.py`: what a benchmark client notes of one stream,
in nanoseconds, and the latencies it derives from it, in milliseconds.
-/

namespace TurboServe.Bench

open TurboServe.Gateway (TokenEvent Usage Lane)

/-! ## §1  Records -/

/-- Everything observed about one request. -/
structure RequestRecord where
  requestId : String
  tenant : String
  promptTokens : ℤ
  outputTokens : ℤ
  tSendNs : ℤ
  tFirstNs : Option ℤ
  tLastNs : Option ℤ
  itlNs : List ℤ
  ok : Bool
  error : Option String
  backend : String
  lane : Lane
deriving DecidableEq

namespace RequestRecord

variable (r : RequestRecord)

/-- Nanoseconds per millisecond. -/
def nsPerMs : ℚ := 1000000

def ttftMs : Option ℚ := r.tFirstNs.map fun t => ((t - r.tSendNs : ℤ) : ℚ) / nsPerMs

def e2eMs : Option ℚ := r.tLastNs.map fun t => ((t - r.tSendNs : ℤ) : ℚ) / nsPerMs

/-- Milliseconds per output token after the first; there is no slope below two tokens, nor
between two tokens of one instant. -/
def tpotMs : Option ℚ :=
  if r.outputTokens < 2 then none
  else
    match r.tFirstNs, r.tLastNs with
    | some first, some last =>
        if last ≤ first then none
        else some (((last - first : ℤ) : ℚ) / ((r.outputTokens - 1 : ℤ) : ℚ) / nsPerMs)
    | _, _ => none

end RequestRecord

/-! ## §2  The builder -/

/-- What the client has noted of a stream so far. -/
structure RecordBuilder where
  requestId : String
  tenant : String
  promptTokens : ℕ
  backend : String
  lane : Lane
  tSendNs : ℤ
  tFirstNs : Option ℤ
  tLastNs : Option ℤ
  lastEventNs : Option ℤ
  itlNs : List ℤ
  countedTokens : ℕ
  usage : Option Usage
  ok : Bool
  error : Option String
deriving DecidableEq

namespace RecordBuilder

/-- A builder whose request was sent at `tNs`. -/
def sent (requestId tenant : String) (promptTokens : ℕ) (backend : String) (lane : Lane)
    (tNs : ℤ) : RecordBuilder where
  requestId := requestId
  tenant := tenant
  promptTokens := promptTokens
  backend := backend
  lane := lane
  tSendNs := tNs
  tFirstNs := none
  tLastNs := none
  lastEventNs := none
  itlNs := []
  countedTokens := 0
  usage := none
  ok := true
  error := none

variable (b : RecordBuilder)

/-- The token count, the first token's time and the gaps between tokens. -/
def accountTokens (tokens : ℕ) (received : ℤ) : RecordBuilder :=
  match b.tFirstNs with
  | none =>
      { b with
        tFirstNs := some received, lastEventNs := some received
        countedTokens := b.countedTokens + tokens }
  | some first =>
      let gap := max (received - b.lastEventNs.getD first) 0
      { b with
        itlNs := b.itlNs ++ List.replicate tokens (gap / tokens)
        lastEventNs := some received
        countedTokens := b.countedTokens + tokens }

/-- The tokens of a chunk: its ids, or one for text alone. -/
def tokens (e : TokenEvent) : ℕ :=
  if e.tokenIds.length = 0 then (if e.text = "" then 0 else 1) else e.tokenIds.length

/-- Fold one received event in. -/
def observe (e : TokenEvent) (received : ℤ) : RecordBuilder :=
  let b : RecordBuilder :=
    match e.error with
    | some text => { b with ok := false, error := some text }
    | none => b
  let b := if tokens e = 0 then b else b.accountTokens (tokens e) received
  let b : RecordBuilder :=
    match e.usage with
    | some u => { b with usage := some u }
    | none => b
  if e.finished then { b with tLastNs := some received } else b

/-- The stream died: it ends here, whatever it had produced. -/
def failed (error : String) (tNs : ℤ) : RecordBuilder :=
  { b with ok := false, error := some error, tLastNs := some tNs }

/-- The record; a usage block's counts override the tally. -/
def build : RequestRecord where
  requestId := b.requestId
  tenant := b.tenant
  promptTokens := (b.usage.bind (·.promptTokens)).getD b.promptTokens
  outputTokens := (b.usage.bind (·.completionTokens)).getD b.countedTokens
  tSendNs := b.tSendNs
  tFirstNs := b.tFirstNs
  tLastNs := b.tLastNs
  itlNs := b.itlNs
  ok := b.ok
  error := b.error
  backend := b.backend
  lane := b.lane

end RecordBuilder

end TurboServe.Bench
