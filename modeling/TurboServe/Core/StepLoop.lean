import TurboServe.Core.Scheduler

/-!
# The step loop

The step protocol of `engine/core/scheduler.py`: pick a batch, run it, feed the
sampled tokens back one by one. What "feed back" means differs between the plain
protocol and the two engines, so the loop takes the single-token function as a
parameter; the speculative engine also caps the computed count after each token.
-/

namespace TurboServe.Core

/-- The stop check of a request, as a rule on its output so far. -/
abbrev StopRule : Type := SamplingParams → List TokenId → Option FinishReason

/-- `check_stop` for the last token of an output. -/
def stopRule (eos : Option TokenId) : StopRule := fun p out =>
  match out.getLast? with
  | none => none
  | some tok =>
      if tok ∈ p.stopTokenIds then some .stop
      else if eos = some tok ∧ p.ignoreEos = false then some .stop
      else if out.length ≥ p.maxTokens then some .length
      else none

namespace Scheduler

variable {D W : Type} [BlockDigest D] [DecidableEq D] [VirtualTime W]

/-- `seq.num_computed_tokens = min(cap, seq.num_tokens)` for a capped sequence. -/
def credit (s : Scheduler D W) (caps : SeqId → Option ℕ) (i : SeqId) : Scheduler D W :=
  match caps i with
  | none => s
  | some cap =>
      s.setSeq i { s.seqs i with numComputedTokens := min cap (s.seqs i).numTokens }

/-- Feed `(sequence, token)` pairs back in order. -/
def feedAll (one : Scheduler D W → SeqId → TokenId → Except Fault (Scheduler D W))
    (caps : SeqId → Option ℕ) (s : Scheduler D W) :
    List (SeqId × TokenId) → Except Fault (Scheduler D W)
  | [] => .ok s
  | p :: rest => do
      let s' ← one s p.1 p.2
      feedAll one caps (s'.credit caps p.1) rest

/-- No sequence is capped: everything but a speculative step. -/
def noCaps : SeqId → Option ℕ := fun _ => none

/-- One token through `scheduler.append_token(seq, token_id, eos_token_id=eos)`. -/
def protocolToken (eos : Option TokenId) (s : Scheduler D W) (i : SeqId)
    (tok : TokenId) : Except Fault (Scheduler D W) := do
  let r ← s.appendToken i tok eos
  .ok r.2

/-- One round of the step protocol; `sample` stands for forward pass and
sampler. -/
def step (eos : Option TokenId) (sample : Scheduler D W → ScheduledSeq → TokenId)
    (s : Scheduler D W) : Except Fault (Scheduler D W) := do
  let r ← s.schedule
  feedAll (protocolToken eos) noCaps r.2
    (r.1.sampled.map fun item => (item.seq, sample r.2 item))

end Scheduler

end TurboServe.Core
