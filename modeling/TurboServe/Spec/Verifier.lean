import TurboServe.Model.Sampler
import TurboServe.Spec.Engine

/-!
# The acceptance rules

`engine/spec/verifier.py`: a draft is verified against the logits of every position it was
fed at, greedily or by modified rejection sampling. Real numbers stand for `float32`; the
numbers `torch.rand` returns are a parameter, and the token that ends a verification is what it
is drawn from. Token ids are numbers of the vocabulary; `gather` refuses any other.
-/

namespace TurboServe.Spec

open TurboServe.Core Model Lib

/-! ## §1  Tensors and verdicts -/

/-- A `[rows, vocab]` tensor of probabilities. -/
structure Probs (K : Type) where
  rows : ℕ
  vocab : ℕ
  entry : ℕ → ℕ → K
  device : String

def Probs.row {K : Type} (x : Probs K) (j : ℕ) : List K := (List.range x.vocab).map (x.entry j)

/-- What the verifier raises; `gather` refuses a token outside the vocabulary. -/
inductive VerifyFault : Type where
  /-- `ValueError: target_logits must be [k + 1, vocab] for k draft tokens` -/
  | targetShape (rows numDrafted : ℕ)
  /-- `ValueError: draft_probs must be [k, vocab]` -/
  | draftShape (rows vocab numDrafted targetVocab : ℕ)
  /-- `ValueError: draft_probs are on ... but target_probs are on ...` -/
  | draftDevice (draft target : String)
  /-- `ValueError: generator is on ... but the probabilities are on ...` -/
  | generatorDevice (generator device : String)
  | tokenRange
  /-- `ValueError: ... histories for ... rows of logits` -/
  | historyRows (histories rows : ℕ)
  | transform (e : SamplerFault)
deriving DecidableEq

/-- The outcome of a draft, its last token not yet drawn. -/
structure Verdict (K : Type) {T : Type} (drafts : List T) where
  acceptedTokens : List T
  bonus : Drawn K
  accepted_isPrefix : acceptedTokens <+: drafts

/-- The token of a draw, `multinomial` being what `torch.multinomial` returns. -/
def settle {K : Type} (multinomial : Option Generator → List K → ℕ) : Drawn K → ℕ
  | .argmax t => t
  | .multinomial generator probs => multinomial generator probs

/-- `Verification`, once the bonus token is drawn. -/
def Verdict.verification {K : Type} {drafts : List TokenId} (v : Verdict K drafts)
    (multinomial : Option Generator → List K → ℕ) : Verification drafts :=
  ⟨v.acceptedTokens, settle multinomial v.bonus, v.accepted_isPrefix⟩

/-! ## §2  Greedy -/

section Agreed

variable {T : Type} [DecidableEq T]

/-- The loop of `verify_greedy`. -/
def agreed : List T → List T → List T
  | drafted :: drafts, token :: greedy =>
      if token ≠ drafted then [] else drafted :: agreed drafts greedy
  | _, _ => []

theorem agreed_isPrefix (drafts greedy : List T) : agreed drafts greedy <+: drafts := by
  induction drafts generalizing greedy with
  | nil => exact List.prefix_refl _
  | cons drafted drafts ih =>
      cases greedy with
      | nil => exact List.nil_prefix
      | cons token greedy =>
          rw [agreed]
          split
          · exact List.nil_prefix
          · exact (List.prefix_cons_inj drafted).mpr (ih greedy)

end Agreed

section

variable {K : Type} [Field K] [LinearOrder K]

/-- The tokens of a draft may be any integers: they are only compared. -/
def verifyGreedy {T : Type} [DecidableEq T] [NatCast T] (targetLogits : Logits K)
    (draftTokens : List T) : Except VerifyFault (Verdict K draftTokens) :=
  if targetLogits.batch ≠ draftTokens.length + 1 then
    .error (.targetShape targetLogits.batch draftTokens.length)
  else
    let greedy := (List.range targetLogits.batch).map fun j => argmax (targetLogits.row j)
    let accepted := agreed draftTokens (greedy.map Nat.cast)
    .ok ⟨accepted, .argmax (greedy.getD accepted.length 0), agreed_isPrefix _ _⟩

/-! ## §3  Rejection sampling -/

/-- `draft_at_draft`, a deterministic drafter's is `1`. -/
def draftAtDraft (draftProbs : Option (Probs K)) (draftTokens : List ℕ) (j : ℕ) : K :=
  draftProbs.elim 1 fun probs => probs.entry j (draftTokens.getD j 0)

/-- The weights of the bonus token after `numAccepted` tokens. -/
def bonusWeights (targetProbs : Probs K) (draftTokens : List ℕ)
    (draftProbs : Option (Probs K)) (numAccepted : ℕ) : List K :=
  if numAccepted = draftTokens.length then targetProbs.row draftTokens.length
  else
    let target := targetProbs.row numAccepted
    let residual := match draftProbs with
      | none => target.set (draftTokens.getD numAccepted 0) 0
      | some probs => List.zipWith (fun p q => max (p - q) 0) target (probs.row numAccepted)
    if residual.sum ≤ 0 then target else residual

/-- What `verify_rejection_sampling` checks before it draws. -/
def checkSampling (targetProbs : Probs K) (draftTokens : List ℕ)
    (draftProbs : Option (Probs K)) (generator : Option Generator) : Except VerifyFault Unit := do
  if targetProbs.rows ≠ draftTokens.length + 1 then
    throw (.targetShape targetProbs.rows draftTokens.length)
  if let some probs := draftProbs then
    if probs.rows ≠ draftTokens.length ∨ probs.vocab ≠ targetProbs.vocab then
      throw (.draftShape probs.rows probs.vocab draftTokens.length targetProbs.vocab)
    if probs.device ≠ targetProbs.device then
      throw (.draftDevice probs.device targetProbs.device)
  if let some g := generator then
    if g.deviceType ≠ targetProbs.device then
      throw (.generatorDevice g.deviceType targetProbs.device)
  if ∃ t ∈ draftTokens, targetProbs.vocab ≤ t then throw .tokenRange

/-- The tests `keep`: a drafted token survives when `u * q < p`. -/
def keepTests (targetProbs : Probs K) (draftTokens : List ℕ)
    (draftProbs : Option (Probs K)) (uniform : ℕ → K) : List Bool :=
  (List.range draftTokens.length).map fun j =>
    decide (uniform j * draftAtDraft draftProbs draftTokens j
      < targetProbs.entry j (draftTokens.getD j 0))

/-- What the tests leave: the tokens before the first that fails, and where the bonus comes
from. -/
def rejectionVerdict (targetProbs : Probs K) (draftTokens : List ℕ)
    (draftProbs : Option (Probs K)) (generator : Option Generator) (keep : List Bool) :
    Verdict K draftTokens :=
  let numAccepted := keep.findIdx (!·)
  ⟨draftTokens.take numAccepted,
    .multinomial generator (bonusWeights targetProbs draftTokens draftProbs numAccepted),
    List.take_prefix _ _⟩

/-- Modified rejection sampling; `uniform` is what `torch.rand` returned. -/
def verifyRejectionSampling (targetProbs : Probs K) (draftTokens : List ℕ)
    (draftProbs : Option (Probs K)) (generator : Option Generator) (uniform : ℕ → K) :
    Except VerifyFault (Verdict K draftTokens) := do
  checkSampling targetProbs draftTokens draftProbs generator
  return rejectionVerdict targetProbs draftTokens draftProbs generator
    (keepTests targetProbs draftTokens draftProbs uniform)

/-! ## §4  A sequence -/

section Sequence

variable (S : Sorting K) (E : Exponential K)

/-- The repetition penalty of `processed_logits`, row by row. -/
def penalisedLogits (logits : Logits K) (params : SamplerParams K)
    (tokenHistory : Option (List (List ℕ))) : Except VerifyFault (Logits K) :=
  let rows := logits.batch
  match tokenHistory with
  | none => .ok logits
  | some history =>
      if params.repetitionPenalty = 1 then .ok logits
      else if history.length ≠ rows then .error (.historyRows history.length rows)
      else
        let penalties := List.replicate rows params.repetitionPenalty
        (applyRepetitionPenalty E logits penalties history).mapError .transform

/-- The sampler's transforms on the rows of one sequence. -/
def processedLogits (logits : Logits K) (params : SamplerParams K)
    (tokenHistory : Option (List (List ℕ))) : Except VerifyFault (Logits K) := do
  let rows := logits.batch
  let work ← penalisedLogits E logits params tokenHistory
  let work := applyTemperature E work (List.replicate rows params.temperature)
  let work := applyTopK work (List.replicate rows params.topK)
  return applyTopP S E work (List.replicate rows params.topP)

/-- The softmax of every row. -/
def softmaxRows (device : String) (work : Logits K) : Probs K :=
  ⟨work.batch, work.vocab, fun j => E.softmax work.vocab (work.entry j), device⟩

def samplingProbs (device : String) (logits : Logits K) (params : SamplerParams K)
    (tokenHistory : Option (List (List ℕ))) : Except VerifyFault (Probs K) := do
  let work ← processedLogits S E logits params tokenHistory
  return softmaxRows E device work

/-- Greedy or rejection sampling, as the parameters say. -/
def verifySequence (device : String) (targetLogits : Logits K) (draftTokens : List ℕ)
    (params : SamplerParams K) (draftProbs : Option (Probs K)) (generator : Option Generator)
    (tokenHistory : Option (List (List ℕ))) (uniform : ℕ → K) :
    Except VerifyFault (Verdict K draftTokens) :=
  if params.temperature = 0 then do
    let history := if params.repetitionPenalty ≠ 1 then tokenHistory else none
    let work ← processedLogits S E targetLogits params history
    verifyGreedy work draftTokens
  else do
    let probs ← samplingProbs S E device targetLogits params tokenHistory
    verifyRejectionSampling probs draftTokens draftProbs generator uniform

end Sequence

end

end TurboServe.Spec
