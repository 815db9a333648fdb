import TurboServe.Lib.Exponential
import TurboServe.Lib.MinBy
import TurboServe.Lib.Scatter

/-!
# The sampler

`engine/core/sampler.py` over the numbers of a tensor, which may be rounded ones: their
product, quotient and difference are their own, and softmax and `cumsum` are parameters, as is
what `torch.sort` does with ties; each reads one row. A logit is a number or `-∞`. A drawn token
is what it is drawn from; the draw itself is not modelled.
-/

namespace TurboServe.Model

open Lib

/-! ## §1  Tensors -/

/-- `[batch, vocab]` logits. -/
structure Logits (K : Type) where
  batch : ℕ
  vocab : ℕ
  entry : ℕ → ℕ → WithBot K

namespace Logits

variable {K : Type} (x : Logits K)

/-- One row of the batch. -/
def row (b : ℕ) : List (WithBot K) := (List.range x.vocab).map (x.entry b)

/-- `masked_fill(mask, -inf)`. -/
def maskedFill (mask : ℕ → ℕ → Bool) : Logits K :=
  { x with entry := fun b t => if mask b t then ⊥ else x.entry b t }

def indexSelect (rows : List ℕ) : Logits K :=
  ⟨rows.length, x.vocab, fun r => x.entry (rows.getD r 0)⟩

def indexCopy (rows : List ℕ) (source : Logits K) : Logits K :=
  { x with entry := scatter rows source.entry x.entry }

end Logits

/-- A descending `torch.sort` of a row: the indices, ties in some order. -/
structure Sorting (K : Type) [LinearOrder K] where
  index : List (WithBot K) → List ℕ
  perm : ∀ xs, (index xs).Perm (List.range xs.length)
  descending : ∀ xs, (index xs).Pairwise fun i j => xs.getD j ⊥ ≤ xs.getD i ⊥

/-- The sort that leaves ties as they come. -/
def Sorting.stable (K : Type) [LinearOrder K] : Sorting K where
  index xs := (List.range xs.length).insertionSort fun i j => xs.getD j ⊥ ≤ xs.getD i ⊥
  perm xs := List.perm_insertionSort _ _
  descending xs := by
    have htotal : Std.Total fun i j : ℕ => xs.getD j ⊥ ≤ xs.getD i ⊥ :=
      ⟨fun i j => le_total (xs.getD j ⊥) (xs.getD i ⊥)⟩
    have htrans : IsTrans ℕ fun i j => xs.getD j ⊥ ≤ xs.getD i ⊥ :=
      ⟨fun _ _ _ hij hjk => hjk.trans hij⟩
    exact List.pairwise_insertionSort _ _

/-- What the tensor library computes in the numbers `K` of the logits: a Python float as an
entry of a tensor, and `softmax(dim=-1)` and `cumsum(dim=-1)` of a row. -/
structure Arithmetic (K P : Type) where
  tensor : P → K
  softmax : List (WithBot K) → ℕ → K
  cumsum : List K → ℕ → K

/-- Exact arithmetic. -/
def Arithmetic.exact {K : Type} [Field K] [LinearOrder K] (E : Exponential K) :
    Arithmetic K K where
  tensor := id
  softmax row := E.softmax row.length (row.getD · ⊥)
  cumsum xs i := ∑ j ∈ Finset.range (i + 1), xs.getD j 0

namespace Arithmetic

variable {K : Type} [Field K] [LinearOrder K] (E : Exponential K)

@[simp] theorem exact_tensor (x : K) : (exact E).tensor x = x := rfl

@[simp] theorem exact_softmax (row : List (WithBot K)) (i : ℕ) :
    (exact E).softmax row i = E.softmax row.length (row.getD · ⊥) i := rfl

@[simp] theorem exact_cumsum (xs : List K) (i : ℕ) :
    (exact E).cumsum xs i = ∑ j ∈ Finset.range (i + 1), xs.getD j 0 := rfl

end Arithmetic

instance {K : Type} [Field K] [LinearOrder K] : Coe (Exponential K) (Arithmetic K K) :=
  ⟨Arithmetic.exact⟩

/-! ## §2  The transforms -/

/-- The fields of `SamplingParams` the sampler reads, as validated. -/
structure SamplerParams (P : Type) [Zero P] [One P] [LinearOrder P] where
  temperature : P
  topP : P
  topK : ℕ
  repetitionPenalty : P
  logprobs : Bool
  temperature_nonneg : 0 ≤ temperature
  topP_pos : 0 < topP
  topP_le : topP ≤ 1
  penalty_pos : 0 < repetitionPenalty

/-- What the sampler raises; `gather` refuses an index outside the vocabulary. -/
inductive SamplerFault : Type where
  | paramsLength (params rows : ℕ)
  | generatorsLength (generators rows : ℕ)
  | historiesLength (histories rows : ℕ)
  | strictZip
  | historyRange
  | generatorDevice (row : ℕ) (generator device : String)
deriving DecidableEq

section Transforms

variable {K P : Type} [Zero K] [Mul K] [Div K] [Sub K] [LinearOrder K]
variable [Zero P] [One P] [LinearOrder P] (A : Arithmetic K P)

/-- The penalised value of a seen token's logit. -/
def penalise (penalty : K) (logit : WithBot K) : WithBot K :=
  if logit < 0 then logit.map (· * penalty) else logit.map (· / penalty)

/-- A history filled up to `width` with its first token. -/
def padded (history : List ℕ) (width : ℕ) : List ℕ :=
  (List.range width).map fun c => history.getD c (history.headD 0)

def applyRepetitionPenalty (logits : Logits K) (penalties : List P)
    (tokenHistory : List (List ℕ)) : Except SamplerFault (Logits K) :=
  if penalties.length ≠ tokenHistory.length then .error .strictZip
  else
    let rows := (List.range penalties.length).filter fun i =>
      penalties.getD i 1 ≠ 1 ∧ 0 < (tokenHistory.getD i []).length
    if rows = [] then .ok logits
    else
      let history r := tokenHistory.getD (rows.getD r 0) []
      let width := (rows.map fun i => (tokenHistory.getD i []).length).foldl max 0
      let indexMatrix r := padded (history r) width
      if ∃ r < rows.length, ∃ t ∈ indexMatrix r, logits.vocab ≤ t then .error .historyRange
      else
        let penaltyColumn r := A.tensor (penalties.getD (rows.getD r 0) 1)
        let sub := logits.indexSelect rows
        let gathered r c := sub.entry r ((indexMatrix r).getD c 0)
        let updated r c := penalise (penaltyColumn r) (gathered r c)
        .ok (logits.indexCopy rows { sub with
          entry := fun r => scatter (indexMatrix r) (updated r) (sub.entry r) })

def applyTemperature (logits : Logits K) (temperatures : List P) : Logits K :=
  let values := temperatures.map fun temp => if 0 < temp then temp else 1
  if values.all (· = 1) then logits
  else
    let scale b := A.tensor (values.getD b 1)
    { logits with entry := fun b t => (logits.entry b t).map (· / scale b) }

def applyTopK (logits : Logits K) (topK : List ℕ) : Logits K :=
  let vocab := logits.vocab
  let values := topK.map fun k => if k ≤ 0 then vocab else min k vocab
  if values.all (vocab ≤ ·) then logits
  else
    let kMax := values.foldl max 0
    let kept b := ((logits.row b).insertionSort (· ≥ ·)).take kMax
    let kIndex b := min (values.getD b 0) kMax - 1
    let threshold b := (kept b).getD (kIndex b) ⊥
    logits.maskedFill fun b t => logits.entry b t < threshold b

def applyTopP (S : Sorting K) (A : Arithmetic K P) (logits : Logits K) (topP : List P) :
    Logits K :=
  if topP.all (1 ≤ ·) then logits
  else
    let threshold b := A.tensor (topP.getD b 0)
    let sortedIndex b := S.index (logits.row b)
    let sortedLogits b := (sortedIndex b).map (logits.entry b)
    let probs b := A.softmax (sortedLogits b)
    let probsRow b := (List.range logits.vocab).map (probs b)
    let cumulativeBefore b i := A.cumsum (probsRow b) i - probs b i
    let removeSorted b i := decide (threshold b < cumulativeBefore b i)
    let remove b := scatter (sortedIndex b) (removeSorted b) fun _ => false
    logits.maskedFill remove

end Transforms

/-! ## §3  A step -/

/-- A request's own random generator. -/
structure Generator where
  deviceType : String
deriving DecidableEq

/-- A token of the step: an argmax, or a sample of a distribution. -/
inductive Drawn (K : Type) : Type where
  | argmax (token : ℕ)
  | multinomial (generator : Option Generator) (probs : List K)

/-- One token per row, and for rows that asked the table its log-probability is read from. -/
structure SamplerOutput (K : Type) where
  tokens : List (Drawn K)
  logprobs : Option (List (Option (ℕ → WithBot K)))

section Step

variable {K P : Type} [Zero K] [LinearOrder K] [Zero P] [One P] [LinearOrder P]

/-- The first index of a largest entry. -/
def argmax (row : List (WithBot K)) : ℕ :=
  (minBy (fun i j => decide (row.getD j ⊥ < row.getD i ⊥)) (List.range row.length)).getD 0

/-- One token per row: argmax for greedy rows, multinomial for the rest, seeded rows in
calls of their own. -/
def draw (A : Arithmetic K P) (device : String) (logits : Logits K)
    (params : List (SamplerParams P)) (generators : Option (List (Option Generator))) :
    Except SamplerFault (ℕ → Drawn K) :=
  let tokens b : Drawn K := .argmax (argmax (logits.row b))
  let stochastic := (List.range params.length).filter fun i =>
    (params[i]?).any fun p => p.temperature ≠ 0
  if stochastic = [] then .ok tokens
  else
    let probs b := (List.range logits.vocab).map (A.softmax (logits.row b))
    let generatorOf i := generators.bind fun gs => gs.getD i none
    let shared := stochastic.filter fun i => (generatorOf i).isNone
    match stochastic.find? fun i => (generatorOf i).any (·.deviceType ≠ device) with
    | some i => .error (.generatorDevice i (((generatorOf i).map (·.deviceType)).getD "") device)
    | none =>
        let drawn r : Drawn K := .multinomial none (probs (shared.getD r 0))
        let tokens := scatter shared drawn tokens
        .ok ((stochastic.filter fun i => (generatorOf i).isSome).foldl (fun tokens i =>
          Function.update tokens i (.multinomial (generatorOf i) (probs i))) tokens)

variable [Mul K] [Div K] [Sub K]

/-- Sample one token per row of `logits`. -/
def forward (S : Sorting K) (A : Arithmetic K P)
    (logSoftmax : List (WithBot K) → ℕ → WithBot K) (device : String)
    (logits : Logits K) (params : List (SamplerParams P))
    (generators : Option (List (Option Generator))) (tokenHistory : Option (List (List ℕ))) :
    Except SamplerFault (SamplerOutput K) :=
  if params.length ≠ logits.batch then .error (.paramsLength params.length logits.batch)
  else if generators.any (·.length ≠ logits.batch) then
    .error (.generatorsLength ((generators.map (·.length)).getD 0) logits.batch)
  else if tokenHistory.any (·.length ≠ logits.batch) then
    .error (.historiesLength ((tokenHistory.map (·.length)).getD 0) logits.batch)
  else if logits.batch = 0 then .ok ⟨[], none⟩
  else
    match tokenHistory.elim (.ok logits)
        (applyRepetitionPenalty A logits (params.map (·.repetitionPenalty))) with
    | .error e => .error e
    | .ok work =>
        let wantLogprobs := params.any (·.logprobs)
        let baseLogprobs b := logSoftmax (work.row b)
        let work := applyTemperature A work (params.map (·.temperature))
        let work := applyTopK work (params.map (·.topK))
        let work := applyTopP S A work (params.map (·.topP))
        match draw A device work params generators with
        | .error e => .error e
        | .ok tokens =>
            let logprobs := params.mapIdx fun b p =>
      if p.logprobs then some (baseLogprobs b) else none
            .ok ⟨(List.range logits.batch).map tokens, if wantLogprobs then some logprobs else none⟩

end Step

end TurboServe.Model
