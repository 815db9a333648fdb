import Mathlib
import TurboServe.Core.Types

/-!
# The backend protocol

`gateway/backends/protocol.py`: the events a backend streams, the errors it may
raise, and what one call of `generate` can do.
-/

namespace TurboServe.Gateway

open TurboServe.Core (FinishReason TokenId)

/-- The counts of a `usage` block that are integers. -/
structure Usage where
  promptTokens : Option ℤ
  completionTokens : Option ℤ
  cachedPromptTokens : Option ℤ
deriving DecidableEq

theorem finished_of_none (finished : Bool) :
    (none : Option String).isSome → finished = true := by
  intro h
  cases h

/-- One chunk of a stream, its terminator, or its failure. -/
structure TokenEvent where
  requestId : String
  tokenIds : List TokenId := []
  text : String := ""
  finished : Bool := false
  finishReason : Option FinishReason := none
  usage : Option Usage := none
  error : Option String := none
  finished_of_error : error.isSome → finished = true := by
    first | exact Gateway.finished_of_none _ | decide
deriving DecidableEq

namespace TokenEvent

def isError (e : TokenEvent) : Bool := e.error.isSome

def numTokens (e : TokenEvent) : ℕ := e.tokenIds.length

/-- A failure terminator. -/
def failure (requestId error : String) (finishReason : Option FinishReason) : TokenEvent :=
  { requestId := requestId, finished := true, finishReason := finishReason
    error := some error, finished_of_error := fun _ => rfl }

end TokenEvent

/-- The classes of `BackendError`. -/
inductive ErrorClass : Type where
  | backend
  | retryable
  | nonRetryable
  | unavailable
  | timeout
  | overloaded
  | request
  | modelNotFound
  | adapterNotFound
  | streamInterrupted
deriving DecidableEq

/-- The class attribute `retryable`. -/
def ErrorClass.isRetryable : ErrorClass → Bool
  | .retryable | .unavailable | .timeout | .overloaded => true
  | _ => false

/-- `isinstance(exc, NonRetryableBackendError)`; the base class is neither. -/
def ErrorClass.isNonRetryable : ErrorClass → Bool
  | .nonRetryable | .request | .modelNotFound | .adapterNotFound | .streamInterrupted => true
  | _ => false

structure BackendError where
  cls : ErrorClass
  message : String
  backend : Option String := none
  statusCode : Option ℤ := none
deriving DecidableEq

namespace BackendError

def retryable (e : BackendError) : Bool := e.cls.isRetryable

/-- `str(exc)` -/
def str (e : BackendError) : String :=
  e.message ++
    (match e.backend with
      | some b => if b = "" then "" else " [backend=" ++ b ++ "]"
      | none => "") ++
    (match e.statusCode with
      | some n => " (status " ++ toString n ++ ")"
      | none => "")

end BackendError

/-- How a backend's stream ends: normally, by a `BackendError`, or by any other
exception, known by its text. -/
inductive Ending : Type where
  | normal
  | backendError (e : BackendError)
  | exception (text : String)
deriving DecidableEq

/-- What one call of `generate` does. -/
structure Behaviour where
  events : List TokenEvent
  ending : Ending
deriving DecidableEq

/-- The behaviour lets another replica be tried: a retryable failure before any event. -/
def Behaviour.retries (b : Behaviour) : Bool :=
  match b.events, b.ending with
  | [], .backendError e => e.retryable
  | _, _ => false

structure GenerateRequest where
  requestId : String
  tenantId : String
  model : String
deriving DecidableEq

end TurboServe.Gateway
