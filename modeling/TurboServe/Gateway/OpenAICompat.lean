import TurboServe.Gateway.Backend
import TurboServe.Lib.Reading

/-!
# The OpenAI-compatible backend

`gateway/backends/openai_compat.py`: the SSE lines of an upstream server, what each line
says, and the events `generate` makes of them. `json.loads` is a parameter.
-/

namespace TurboServe.Gateway

open TurboServe.Core (FinishReason)
open TurboServe.Lib

/-! ## §1  Decoded JSON -/

/-- A value of `json.loads`. The number of a `float` is read nowhere. -/
inductive Json : Type where
  | null
  | bool (b : Bool)
  | int (n : ℤ)
  | float
  | str (s : String)
  | arr (xs : List Json)
  | obj (fields : List (String × Json))

/-- A dict, each key once. -/
abbrev Dict : Type := List (String × Json)

def Dict.get (d : Dict) (key : String) : Option Json :=
  (d.find? fun kv => kv.1 = key).map (·.2)

/-- What `json.loads` does: a value, a `JSONDecodeError`, or another exception (a
`ValueError` for an integer of too many digits, a `RecursionError` for deep nesting). -/
inductive Loaded : Type where
  | value (j : Json)
  | decodeError
  | raises (text : String)

/-! ## §2  One line -/

/-- `str.isspace` -/
def isSpace (c : Char) : Bool :=
  c.toNat ∈ [0x09, 0x0A, 0x0B, 0x0C, 0x0D, 0x1C, 0x1D, 0x1E, 0x1F, 0x20, 0x85, 0xA0, 0x1680,
    0x2028, 0x2029, 0x202F, 0x205F, 0x3000] ∨ (0x2000 ≤ c.toNat ∧ c.toNat ≤ 0x200A)

/-- `str.strip` -/
def strip (cs : List Char) : List Char :=
  ((cs.dropWhile isSpace).reverse.dropWhile isSpace).reverse

def dataPrefix : String := "data:"

def doneMarker : String := "[DONE]"

/-- The payload of a line; blanks and comments have none. -/
def payload (line : String) : Option String :=
  let stripped := strip line.toList
  if stripped = [] ∨ stripped.head? = some ':' then none
  else if ¬ dataPrefix.toList <+: stripped then none
  else some (String.ofList (strip (stripped.drop dataPrefix.length)))

/-- Parse a payload; a malformed one, or one that is no object, is skipped. -/
def decode (loads : String → Loaded) (p : String) : Except String (Option Dict) :=
  match loads p with
  | .value (.obj d) => .ok (some d)
  | .value _ => .ok none
  | .decodeError => .ok none
  | .raises text => .error text

/-- The `_FINISH_REASONS` table; anything else is a stop. -/
def finishReasons (reason : String) : FinishReason :=
  if reason = "stop" then .stop
  else if reason = "eos_token" then .stop
  else if reason = "length" then .length
  else if reason = "abort" then .abort
  else if reason = "cancelled" then .abort
  else .stop

/-- The text of a choice: the completions field, else the chat one. -/
def choiceText (c : Dict) : String :=
  match Dict.get c "text" with
  | some (.str text) => text
  | _ =>
      match Dict.get c "delta" with
      | some (.obj delta) =>
          match Dict.get delta "content" with
          | some (.str text) => text
          | _ => ""
      | _ => ""

/-- Text and finish reason of a chunk's first choice. -/
def choice (chunk : Dict) : String × Option FinishReason :=
  match Dict.get chunk "choices" with
  | some (.arr (.obj c :: _)) =>
      (choiceText c,
        match Dict.get c "finish_reason" with
        | some (.str reason) => some (finishReasons reason)
        | _ => none)
  | _ => ("", none)

/-- `isinstance(value, int)`, which a `bool` is too. -/
def asInt (j : Option Json) : Option ℤ :=
  match j with
  | some (.int n) => some n
  | some (.bool b) => some (if b then 1 else 0)
  | _ => none

/-- The integer fields of a usage block. -/
def normaliseUsage (usage : Option Dict) : Option Usage :=
  match usage with
  | none => none
  | some u =>
      let cached :=
        match Dict.get u "prompt_tokens_details" with
        | some (.obj details) => asInt (Dict.get details "cached_tokens")
        | _ => none
      let prompt := asInt (Dict.get u "prompt_tokens")
      let completion := asInt (Dict.get u "completion_tokens")
      if prompt = none ∧ completion = none ∧ asInt (Dict.get u "total_tokens") = none ∧
          cached = none then none
      else some ⟨prompt, completion, cached⟩

/-! ## §3  The stream -/

/-- What `generate` has read and yielded. -/
structure Reading where
  started : Bool
  finishReason : Option FinishReason
  usage : Option Dict
  events : List TokenEvent

/-- Why the loop over the lines was left. -/
inductive ReadEnd : Type where
  | done
  | raised (text : String)

namespace Reading

def initial : Reading := ⟨false, none, none, []⟩

variable (requestId : String)

/-- Take a chunk in: its usage, its reason, and a delta for its text. -/
def absorb (r : Reading) (chunk : Dict) : Reading :=
  let usage :=
    match Dict.get chunk "usage" with
    | some (.obj u) => some u
    | _ => r.usage
  let (text, reason) := choice chunk
  let finishReason := reason.or r.finishReason
  if text = "" then { r with usage := usage, finishReason := finishReason }
  else
    { started := true
      finishReason := finishReason
      usage := usage
      events := r.events ++ [{ requestId := requestId, text := text }] }

/-- One turn of the loop over the lines. -/
def readLine (loads : String → Loaded) (r : Reading) (line : String) :
    Except ReadEnd Reading :=
  match payload line with
  | none => .ok r
  | some p =>
      if p = doneMarker then .error .done
      else
        match decode loads p with
        | .error text => .error (.raised text)
        | .ok none => .ok r
        | .ok (some chunk) => .ok (r.absorb requestId chunk)

end Reading

/-! ## §4  One call -/

/-- An `httpx.HTTPError`. -/
structure HttpError where
  timeout : Bool
  text : String

/-- What a request meets: no response at all, or one whose body is `lines` (`body` as one
text) and ends by itself or by an error. -/
inductive Upstream : Type where
  | unreachable (e : HttpError)
  | answers (status : ℕ) (body : String) (lines : List String) (cut : Option HttpError)

structure OpenAICompatBackend where
  name : String
  closed : Bool

namespace OpenAICompatBackend

variable (b : OpenAICompatBackend)

/-- Classify a transport failure. -/
def transportError (e : HttpError) : BackendError :=
  if e.timeout then
    { cls := .timeout, message := b.name ++ " timed out: " ++ e.text
      backend := some b.name }
  else
    { cls := .unavailable, message := b.name ++ " is unreachable: " ++ e.text
      backend := some b.name }

/-- Classify a response that is not a 200; `model` is the upstream model under `!r`. -/
def statusError (status : ℕ) (body model : String) : BackendError :=
  let detail := String.ofList (body.toList.take 500)
  let returned := b.name ++ " returned HTTP " ++ toString status
  let message := if detail = "" then returned else returned ++ ": " ++ detail
  if status = 429 ∨ status = 503 then
    { cls := .overloaded, message := message, backend := some b.name
      statusCode := some status }
  else if status = 404 then
    { cls := .modelNotFound, message := b.name ++ " does not serve model " ++ model
      backend := some b.name, statusCode := some status }
  else if status = 408 ∨ status = 504 then
    { cls := .timeout, message := message, backend := some b.name
      statusCode := some status }
  else if 400 ≤ status ∧ status < 500 then
    { cls := .request, message := message, backend := some b.name
      statusCode := some status }
  else
    { cls := .unavailable, message := message, backend := some b.name
      statusCode := some status }

/-- Stream the upstream completion. -/
def generate (loads : String → Loaded) (req : GenerateRequest) (model : String)
    (up : Upstream) : Behaviour :=
  if b.closed then
    ⟨[], .backendError { cls := .unavailable, message := "backend is closed"
                         backend := some b.name }⟩
  else
    match up with
    | .unreachable e => ⟨[], .backendError (b.transportError e)⟩
    | .answers status body lines cut =>
        if status ≠ 200 then ⟨[], .backendError (b.statusError status body model)⟩
        else
          let (r, stopped) :=
            readUntil (Reading.readLine req.requestId loads) lines Reading.initial
          let final : TokenEvent :=
            { requestId := req.requestId, finished := true
              finishReason := some (r.finishReason.getD .stop)
              usage := normaliseUsage r.usage }
          match stopped, cut with
          | some (.raised text), _ => ⟨r.events, .exception text⟩
          | some .done, _ => ⟨r.events ++ [final], .normal⟩
          | none, none => ⟨r.events ++ [final], .normal⟩
          | none, some e =>
              -- after the first token the failure is delivered in band
              if r.started then
                ⟨r.events ++ [.failure req.requestId (b.transportError e).str (some .abort)],
                  .normal⟩
              else ⟨r.events, .backendError (b.transportError e)⟩

end OpenAICompatBackend

end TurboServe.Gateway
