import TurboServe.Core.StepLoop
import TurboServe.Runtime.Streaming

/-!
# Feeding sampled tokens back

`LLMEngine.add_request`, `_process` and `_emit` of `engine/runtime/engine.py`: a sampled
token is recorded by the scheduler, checked against the checkpoint's end tokens,
detokenized, and answered with a delta. The forward pass is whatever hands `_process` its
pairs. `accumulate` is how `generate` adds the deltas of a request up.
-/

namespace TurboServe.Runtime

open TurboServe.Core

/-! ## §1  Deltas -/

structure RequestOutput where
  requestId : String
  newTokenIds : List TokenId
  textDelta : Text
  finished : Bool
  finishReason : Option FinishReason
  promptTokens : ℕ
  outputTokens : ℕ
  cachedPromptTokens : ℕ
deriving DecidableEq

/-- `Sequence.make_output` -/
def makeOutput (seq : Sequence) (newTokenIds : List TokenId) (textDelta : Text) :
    RequestOutput where
  requestId := seq.requestId
  newTokenIds := newTokenIds
  textDelta := textDelta
  finished := seq.isFinished
  finishReason := seq.finishReason
  promptTokens := seq.numPromptTokens
  outputTokens := seq.numOutputTokens
  cachedPromptTokens := seq.numCachedPromptTokens

/-- One delta more of a request: tokens and text are added up, the rest is replaced. -/
def accumulate (current : Option RequestOutput) (output : RequestOutput) : RequestOutput :=
  match current with
  | none => output
  | some current => { output with
      newTokenIds := current.newTokenIds ++ output.newTokenIds
      textDelta := current.textDelta ++ output.textDelta }

/-- `accumulated[request_id]` after a list of deltas. -/
def accumulated (requestId : String) (outputs : List RequestOutput) : Option RequestOutput :=
  (outputs.filter (·.requestId = requestId)).foldl (fun acc o => some (accumulate acc o)) none

/-- The stop strings of a request, as the texts the decoder compares with. -/
def stopTexts (sampling : SamplingParams) : List Text := sampling.stop.map String.toList

/-! ## §2  The engine -/

/-- The engine's state; `decode` is the tokenizer's. -/
structure LLMEngine (D W : Type) [VirtualTime W] where
  scheduler : Scheduler D W
  eosTokenIds : List TokenId
  decode : List TokenId → Text
  decoders : String → Option StreamingDecoder

namespace LLMEngine

variable {D W : Type} [BlockDigest D] [DecidableEq D] [VirtualTime W] (e : LLMEngine D W)

/-- The engine after a call into its scheduler. -/
def withScheduler (s : Scheduler D W) : LLMEngine D W := { e with scheduler := s }

/-- Queue a request with a decoder of its own. -/
def addRequest (r : Scheduler.Request) : Except Fault (SeqId × LLMEngine D W) :=
  if r.promptTokenIds = [] then .error (.emptyPrompt r.requestId)
  else
    match e.scheduler.addRequest r with
    | (.error fault, _) => .error fault
    | (.ok i, s) => .ok (i, { e with
        scheduler := s
        decoders := Function.update e.decoders r.requestId
          (some (.create (stopTexts r.sampling) [])) })

/-- `_emit`: detokenize one token, resolve stop strings, build the delta. -/
def emit (i : SeqId) (tokenId : TokenId) (reason : Option FinishReason) :
    Except Fault (RequestOutput × LLMEngine D W) := do
  let seq := e.scheduler.seqs i
  let decoder := (e.decoders seq.requestId).getD (.create (stopTexts seq.sampling) [])
  let fed := decoder.feed e.decode [tokenId]
  match reason, fed.1.stopped with
  | none, true =>
      let s ← e.scheduler.finish i .stop none
      .ok (makeOutput (s.seqs i) [tokenId] fed.1.text, { e with
        scheduler := s
        decoders := Function.update e.decoders seq.requestId none })
  | some _, false =>
      let finished := fed.2.finish e.decode
      .ok (makeOutput seq [tokenId] (fed.1.text ++ finished.1), { e with
        decoders := Function.update e.decoders seq.requestId none })
  | some _, true =>
      .ok (makeOutput seq [tokenId] fed.1.text, { e with
        decoders := Function.update e.decoders seq.requestId none })
  | none, false =>
      .ok (makeOutput seq [tokenId] fed.1.text, { e with
        decoders := Function.update e.decoders seq.requestId (some fed.2) })

/-- The body of the loop of `_process`, for a sequence that is not finished. -/
def processToken (i : SeqId) (tokenId : TokenId) :
    Except Fault (RequestOutput × LLMEngine D W) := do
  let r ← e.scheduler.appendToken i tokenId none
  match r.1 with
  | some reason => (e.withScheduler r.2).emit i tokenId (some reason)
  | none =>
      if tokenId ∈ e.eosTokenIds ∧ (r.2.seqs i).sampling.ignoreEos = false then
        let s ← r.2.finish i .stop (some tokenId)
        (e.withScheduler s).emit i tokenId (some .stop)
      else (e.withScheduler r.2).emit i tokenId none

/-- `_process`: feed sampled tokens back; a finished sequence is skipped. -/
def process (e : LLMEngine D W) :
    List (SeqId × TokenId) → Except Fault (List RequestOutput × LLMEngine D W)
  | [] => .ok ([], e)
  | (i, tokenId) :: rest =>
      if (e.scheduler.seqs i).isFinished then process e rest
      else do
        let one ← e.processToken i tokenId
        let more ← process one.2 rest
        .ok (one.1 :: more.1, more.2)

end LLMEngine

/-! ## §3  Runs -/

/-- The two halves of a step: the scheduler's, and the sampled tokens coming back. -/
inductive EngineEvent : Type where
  | schedule
  | process (pairs : List (SeqId × TokenId))

namespace LLMEngine

variable {D W : Type} [BlockDigest D] [DecidableEq D] [VirtualTime W]

def event (e : LLMEngine D W) :
    EngineEvent → Except Fault (List RequestOutput × LLMEngine D W)
  | .schedule => do
      let r ← e.scheduler.schedule
      .ok ([], e.withScheduler r.2)
  | .process pairs => e.process pairs

/-- The deltas of a list of events. -/
def run (e : LLMEngine D W) :
    List EngineEvent → Except Fault (List RequestOutput × LLMEngine D W)
  | [] => .ok ([], e)
  | ev :: rest => do
      let one ← e.event ev
      let more ← run one.2 rest
      .ok (one.1 ++ more.1, more.2)

/-- Tokens come back for sequences the engine was given and still knows. -/
def Admits (e : LLMEngine D W) : List EngineEvent → Prop
  | [] => True
  | .schedule :: rest => ∀ r, e.event .schedule = .ok r → Admits r.2 rest
  | .process pairs :: rest =>
      (∀ p ∈ pairs, p.1 ∈ e.scheduler.inFlight ∨ (e.scheduler.seqs p.1).isFinished = true) ∧
        ∀ r, e.event (.process pairs) = .ok r → Admits r.2 rest

end LLMEngine

/-- The tokens that come back for a sequence. -/
def fedTokens (i : SeqId) (events : List EngineEvent) : List TokenId :=
  events.flatMap fun
    | .schedule => []
    | .process pairs => (pairs.filter (·.1 = i)).map Prod.snd

end TurboServe.Runtime
