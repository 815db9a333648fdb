import TurboServe.Runtime.LlmEngine

/-!
# The baseline engines' output

`BaselineEngine._build_output` of `engine/runtime/naive.py`: the row a `generate` call
returned is trimmed at its stop condition and packaged as one output.
-/

namespace TurboServe.Runtime

open TurboServe.Core

/-- What `_build_output` reads of the engine. -/
structure BaselineEngine where
  eosTokenIds : List TokenId
  decode : List TokenId → Text

namespace BaselineEngine

variable (b : BaselineEngine)

/-- The loop over the generated row: the sequence, the decoder, and why it ended. -/
def trim (seq : Sequence) (decoder : StreamingDecoder) :
    List TokenId → Except Fault (Sequence × StreamingDecoder × FinishReason)
  | [] =>
      .ok (seq, decoder,
        if seq.numOutputTokens ≥ seq.sampling.maxTokens then .length else .stop)
  | tokenId :: rest => do
      let seq ← seq.appendToken tokenId
      let fed := decoder.feed b.decode [tokenId]
      if tokenId ∈ b.eosTokenIds ∧ seq.sampling.ignoreEos = false then
        .ok (seq, fed.2, .stop)
      else if fed.1.stopped then .ok (seq, fed.2, .stop)
      else
        match seq.checkStop tokenId none with
        | some reason => .ok (seq, fed.2, reason)
        | none => trim seq fed.2 rest

/-- Trim a generated row at its stop condition and package it as a `RequestOutput`. -/
def buildOutput (item : Scheduler.Request) (newTokenIds : List TokenId) :
    Except Fault RequestOutput := do
  let seq ← Sequence.create 0 item.requestId item.promptTokenIds item.sampling item.tenantId
    item.priority item.loraId []
  let r ← b.trim seq (.create (stopTexts item.sampling) []) newTokenIds
  let decoder := (r.2.1.finish b.decode).2
  let seq := r.1.finish r.2.2 none
  .ok (makeOutput seq seq.outputTokenIds decoder.text)

end BaselineEngine

end TurboServe.Runtime
