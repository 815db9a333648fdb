import TurboServe.Gateway.Router

/-!
# Usage accounting

`gateway/usage.py` and the parts of `gateway/metrics.py` it writes: one accumulator
per request, the record it is closed into, and the ledgers a record is published to
(the Prometheus series and the tenants' running totals). Amounts in seconds and
dollars are rationals.
-/

namespace TurboServe.Gateway

open TurboServe.Core (FinishReason)

/-- The `status` label of `requests_total`. -/
inductive RequestStatus : Type where
  | ok
  | error
  | rateLimited
  | unauthorized
  | forbidden
  | badRequest
  | cancelled
deriving DecidableEq

/-! ## §1  Prices and records -/

/-- A list price per million tokens. -/
structure ModelPrice where
  inputPer1mUsd : ℚ
  outputPer1mUsd : ℚ
  inputPer1mUsd_nonneg : 0 ≤ inputPer1mUsd
  outputPer1mUsd_nonneg : 0 ≤ outputPer1mUsd

def ModelPrice.costUsd (p : ModelPrice) (promptTokens completionTokens : ℕ) : ℚ :=
  (promptTokens * p.inputPer1mUsd + completionTokens * p.outputPer1mUsd) / 1000000

abbrev PriceTable : Type := String → Option ModelPrice

def PriceTable.costUsd (t : PriceTable) (model : String)
    (promptTokens completionTokens : ℕ) : Option ℚ :=
  (t model).map (·.costUsd promptTokens completionTokens)

/-- The finished accounting of one request. -/
structure UsageRecord where
  requestId : String
  tenantId : String
  model : String
  backend : String
  lane : Lane
  promptTokens : ℕ
  completionTokens : ℕ
  cachedPromptTokens : ℕ
  ttftS : Option ℚ
  tpotS : Option ℚ
  e2eS : Option ℚ
  status : RequestStatus
  finishReason : Option FinishReason
  costUsd : Option ℚ
  estimated : Bool
deriving DecidableEq

namespace UsageRecord

def totalTokens (r : UsageRecord) : ℕ := r.promptTokens + r.completionTokens

def ok (r : UsageRecord) : Bool := r.status = .ok

end UsageRecord

/-! ## §2  The accumulator -/

structure UsageAccumulator where
  requestId : String
  tenantId : String
  model : String
  backend : String
  lane : Lane
  promptTokens : ℕ
  cachedPromptTokens : ℕ
  arrivalTs : ℚ
  tFirstToken : Option ℚ
  tFinish : Option ℚ
  completionTokensSeen : ℕ
  countedDeltas : ℕ
  finishReason : Option FinishReason
  estimated : Bool
deriving DecidableEq

namespace UsageAccumulator

variable (a : UsageAccumulator)

/-- The tokens an event counts for: its ids, or one for a delta of text alone. -/
def produced (e : TokenEvent) : ℕ :=
  if e.numTokens = 0 then (if e.text = "" then 0 else 1) else e.numTokens

/-- The integer of a usage block, when it is one the accumulator takes over. -/
def reported (n : Option ℤ) : Option ℕ :=
  match n with
  | some (.ofNat k) => some k
  | _ => none

/-- The backend's counts override the tally. -/
def absorbUsage (u : Usage) : UsageAccumulator :=
  { a with
    promptTokens := (reported u.promptTokens).getD a.promptTokens
    estimated := if (reported u.promptTokens).isSome then false else a.estimated
    completionTokensSeen := (reported u.completionTokens).getD a.completionTokensSeen
    countedDeltas := (reported u.completionTokens).getD a.countedDeltas
    cachedPromptTokens := (reported u.cachedPromptTokens).getD a.cachedPromptTokens }

/-- Fold one streamed event into the accounting. -/
def onEvent (e : TokenEvent) (stamp : ℚ) : UsageAccumulator :=
  let a : UsageAccumulator :=
    { a with
      tFirstToken :=
        if produced e ≠ 0 ∧ a.tFirstToken = none then some stamp else a.tFirstToken
      completionTokensSeen := a.completionTokensSeen + e.numTokens
      countedDeltas := a.countedDeltas + produced e }
  if e.finished then
    let a : UsageAccumulator :=
      { a with
        tFinish := some stamp
        finishReason := e.finishReason.or a.finishReason }
    match e.usage with
    | some u => a.absorbUsage u
    | none => a
  else a

/-- Output tokens so far; the delta count when no event had ids. -/
def completionTokens : ℕ :=
  if a.completionTokensSeen = 0 then a.countedDeltas else a.completionTokensSeen

def ttftS : Option ℚ := a.tFirstToken.map (· - a.arrivalTs)

def e2eS : Option ℚ := a.tFinish.map (· - a.arrivalTs)

/-- The mean gap between output tokens after the first. -/
def tpotS : Option ℚ :=
  match a.tFirstToken, a.tFinish with
  | some first, some finish =>
      if a.completionTokens < 2 then none
      else some ((finish - first) / (a.completionTokens - 1 : ℕ))
  | _, _ => none

/-- Close the accounting. -/
def finish (status : RequestStatus) (now : ℚ) : UsageRecord × UsageAccumulator :=
  let a : UsageAccumulator := { a with tFinish := some (a.tFinish.getD now) }
  ({ requestId := a.requestId, tenantId := a.tenantId, model := a.model
     backend := a.backend, lane := a.lane
     promptTokens := a.promptTokens, completionTokens := a.completionTokens
     cachedPromptTokens := a.cachedPromptTokens
     ttftS := a.ttftS, tpotS := a.tpotS, e2eS := a.e2eS
     status := status, finishReason := a.finishReason
     costUsd := none, estimated := a.estimated }, a)

end UsageAccumulator

/-! ## §3  The ledgers -/

/-- The labels of the request-scoped series. -/
structure RequestLabels where
  tenant : String
  model : String
  backend : String
  lane : Lane
deriving DecidableEq

/-- The instruments a request writes, each as what it was given, in order. -/
structure GatewayMetrics where
  requestsTotal : List (RequestLabels × RequestStatus)
  promptTokensTotal : List (RequestLabels × ℕ)
  completionTokensTotal : List (RequestLabels × ℕ)
  ttftSeconds : List (RequestLabels × ℚ)
  tpotSeconds : List (RequestLabels × ℚ)
  e2eSeconds : List (RequestLabels × ℚ)
  costUsdTotal : List (String × String × ℚ)
  inflightRequests : String → String → ℤ

namespace GatewayMetrics

variable (m : GatewayMetrics)

/-- A latency is observed when there is one that is not negative. -/
def observe (labels : RequestLabels) (x : Option ℚ) (series : List (RequestLabels × ℚ)) :
    List (RequestLabels × ℚ) :=
  match x with
  | some t => if 0 ≤ t then series ++ [(labels, t)] else series
  | none => series

/-- An amount is counted when there is one that is not zero. -/
def increment (labels : RequestLabels) (n : ℕ) (series : List (RequestLabels × ℕ)) :
    List (RequestLabels × ℕ) :=
  if n = 0 then series else series ++ [(labels, n)]

def recordRequest (r : UsageRecord) : GatewayMetrics :=
  let labels : RequestLabels := ⟨r.tenantId, r.model, r.backend, r.lane⟩
  { m with
    requestsTotal := m.requestsTotal ++ [(labels, r.status)]
    promptTokensTotal := increment labels r.promptTokens m.promptTokensTotal
    completionTokensTotal := increment labels r.completionTokens m.completionTokensTotal
    ttftSeconds := observe labels r.ttftS m.ttftSeconds
    tpotSeconds := observe labels r.tpotS m.tpotSeconds
    e2eSeconds := observe labels r.e2eS m.e2eSeconds
    costUsdTotal :=
      match r.costUsd with
      | some c =>
          if c = 0 then m.costUsdTotal else m.costUsdTotal ++ [(r.tenantId, r.model, c)]
      | none => m.costUsdTotal }

def addInflight (tenant model : String) (n : ℤ) : GatewayMetrics :=
  { m with
    inflightRequests := Function.update m.inflightRequests tenant
      (Function.update (m.inflightRequests tenant) model
        (m.inflightRequests tenant model + n)) }

/-- A request started streaming. -/
def incInflight (tenant model : String) : GatewayMetrics := m.addInflight tenant model 1

/-- A request stopped streaming. -/
def decInflight (tenant model : String) : GatewayMetrics := m.addInflight tenant model (-1)

end GatewayMetrics

/-- Running totals of one tenant. -/
structure TenantTotals where
  tenantId : String
  requests : ℕ := 0
  failed : ℕ := 0
  promptTokens : ℕ := 0
  completionTokens : ℕ := 0
  cachedPromptTokens : ℕ := 0
  costUsd : ℚ := 0
deriving DecidableEq

/-- Fold a finished record in. -/
def TenantTotals.add (t : TenantTotals) (r : UsageRecord) : TenantTotals :=
  { t with
    requests := t.requests + 1
    failed := if r.ok then t.failed else t.failed + 1
    promptTokens := t.promptTokens + r.promptTokens
    completionTokens := t.completionTokens + r.completionTokens
    cachedPromptTokens := t.cachedPromptTokens + r.cachedPromptTokens
    costUsd := t.costUsd + r.costUsd.getD 0 }

/-- What the requests of one gateway share. `limiters` is what `for_tenant` returns. -/
structure GatewayState where
  limiters : String → TenantLimiter
  metrics : GatewayMetrics
  prices : PriceTable
  totals : String → Option TenantTotals

namespace GatewayState

variable (s : GatewayState)

def totalsFor (tenant : String) : TenantTotals :=
  (s.totals tenant).getD { tenantId := tenant }

/-- Price, publish and total a record. -/
def record (r : UsageRecord) : UsageRecord × GatewayState :=
  let r : UsageRecord :=
    { r with
      costUsd := r.costUsd.or (s.prices.costUsd r.model r.promptTokens r.completionTokens) }
  (r, { s with
    totals := Function.update s.totals r.tenantId (some ((s.totalsFor r.tenantId).add r))
    metrics := s.metrics.recordRequest r })

def chargeTokens (tenant : String) (tokens : ℕ) (now : ℚ) : GatewayState :=
  { s with
    limiters :=
      Function.update s.limiters tenant ((s.limiters tenant).chargeTokens tokens now) }

def incInflight (tenant model : String) : GatewayState :=
  { s with metrics := s.metrics.incInflight tenant model }

def decInflight (tenant model : String) : GatewayState :=
  { s with metrics := s.metrics.decInflight tenant model }

end GatewayState

end TurboServe.Gateway
