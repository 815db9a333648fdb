import TurboServe.Bench.Metrics

/-!
# Percentiles and run summaries

`bench/records.py`: the percentile every figure of the repository goes through, the
distribution block, the latency objectives, and how a run is summarised. Floats are
rationals, so every value is finite; a division and the `max` of nothing raise as Python's.
-/

namespace TurboServe.Bench

/-! ## §1  Percentiles -/

/-- What the summaries could raise. -/
inductive RecordsFault : Type where
  /-- `ValueError: q must be in [0, 100]` -/
  | quantile (q : ℚ)
  /-- `ValueError: max() iterable argument is empty` -/
  | emptySequence
  | zeroDivision
deriving DecidableEq

/-- `a / b` -/
def divide (a b : ℚ) : Except RecordsFault ℚ :=
  if b = 0 then .error .zeroDivision else .ok (a / b)

/-- The `q`-th percentile by linear interpolation between ranks; nothing for no sample. -/
def percentile (values : List ℚ) (q : ℚ) : Except RecordsFault (Option ℚ) :=
  if ¬ (0 ≤ q ∧ q ≤ 100) then .error (.quantile q)
  else if values = [] then .ok none
  else
    let ordered := values.mergeSort
    if ordered.length = 1 then .ok (some (ordered.getD 0 0))
    else
      let rank := q / 100 * (ordered.length - 1 : ℕ)
      let low := ⌊rank⌋₊
      let high := ⌈rank⌉₊
      if low = high then .ok (some (ordered.getD low 0))
      else .ok (some (ordered.getD low 0 +
        (ordered.getD high 0 - ordered.getD low 0) * (rank - low)))

/-- A latency distribution. -/
structure Percentiles where
  count : ℕ := 0
  mean : Option ℚ := none
  p50 : Option ℚ := none
  p90 : Option ℚ := none
  p95 : Option ℚ := none
  p99 : Option ℚ := none
  min : Option ℚ := none
  max : Option ℚ := none
deriving DecidableEq

/-- Summarise a sample; an empty one has count `0` and nothing else. -/
def Percentiles.fromValues (values : List ℚ) : Except RecordsFault Percentiles :=
  if values = [] then .ok {}
  else do
    let mean ← divide values.sum values.length
    let p50 ← percentile values 50
    let p90 ← percentile values 90
    let p95 ← percentile values 95
    let p99 ← percentile values 99
    .ok ⟨values.length, some mean, p50, p90, p95, p99, values.min?, values.max?⟩

/-! ## §2  Runs -/

/-- Latency objectives; a field left out is not asserted. -/
structure SLO where
  ttftMs : Option ℚ
  tpotMs : Option ℚ
  e2eMs : Option ℚ
deriving DecidableEq

/-- One objective against what was measured. -/
def withinLimit (limit measured : Option ℚ) : Bool :=
  match limit, measured with
  | none, _ => true
  | some _, none => false
  | some l, some m => decide (¬ m > l)

/-- Whether a record succeeded and satisfied every asserted objective. -/
def SLO.isMetBy (slo : SLO) (r : RequestRecord) : Bool :=
  r.ok && withinLimit slo.ttftMs r.ttftMs && withinLimit slo.tpotMs r.tpotMs &&
    withinLimit slo.e2eMs r.e2eMs

def RequestRecord.itlMs (r : RequestRecord) : List ℚ :=
  r.itlNs.map fun gap => (gap : ℚ) / RequestRecord.nsPerMs

def RequestRecord.totalTokens (r : RequestRecord) : ℤ := r.promptTokens + r.outputTokens

/-- What `summarize` reads of a run. -/
structure RunResult where
  requests : List RequestRecord
  gpuPricePerHour : Option ℚ

structure Goodput where
  slo : SLO
  numMet : ℕ
  ratio : ℚ
  reqS : ℚ
deriving DecidableEq

/-- The `summary` block. -/
structure Summary where
  numRequests : ℕ
  numOk : ℕ
  numFailed : ℤ
  errorRate : ℚ
  wallS : ℚ
  promptTokens : ℤ
  outputTokens : ℤ
  ttftMs : Percentiles
  itlMs : Percentiles
  tpotMs : Percentiles
  e2eMs : Percentiles
  outputTokS : ℚ
  totalTokS : ℚ
  reqS : ℚ
  costPer1mOutputTokensUsd : Option ℚ
  goodput : Option Goodput
deriving DecidableEq

/-- Nanoseconds per second. -/
def nsPerS : ℚ := 1000000000

namespace RunResult

variable (run : RunResult)

def okRequests : List RequestRecord := run.requests.filter (·.ok)

/-- Seconds from the first request sent to the last token received. The last token is
sought among the finish times that are not zero. -/
def wallSeconds : Except RecordsFault ℚ :=
  let completed := run.requests.filter (·.tLastNs.isSome)
  if completed = [] then .ok 0
  else
    match (run.requests.map (·.tSendNs)).min?,
        ((completed.filterMap (·.tLastNs)).filter (· ≠ 0)).max? with
    | some firstSend, some lastToken => divide (max (lastToken - firstSend) 0 : ℤ) nsPerS
    | _, _ => .error .emptySequence

/-- A rate over the wall clock, `0` when no time passed. -/
def perSecond (amount wallS : ℚ) : Except RecordsFault ℚ :=
  if wallS > 0 then divide amount wallS else .ok 0

/-- `part / total`, `0` for no total. -/
def fraction (part total : ℕ) : Except RecordsFault ℚ :=
  if total ≠ 0 then divide part total else .ok 0

/-- Dollars per million output tokens. -/
def costPer1m (outputTokens : ℤ) (wallS : ℚ) : Except RecordsFault (Option ℚ) :=
  match run.gpuPricePerHour with
  | none => .ok none
  | some price =>
      if outputTokens ≤ 0 ∨ wallS ≤ 0 then .ok none
      else do
        let perToken ← divide (price * (wallS / 3600)) outputTokens
        .ok (some (perToken * 1000000))

/-- Requests per second that met the objectives, and what fraction of the load that is. -/
def goodput (slo : SLO) : Except RecordsFault Goodput := do
  let wallS ← run.wallSeconds
  let met := run.requests.filter slo.isMetBy
  let ratio ← fraction met.length run.requests.length
  let reqS ← perSecond met.length wallS
  .ok ⟨slo, met.length, ratio, reqS⟩

/-- Aggregate the records. -/
def summarize (slo : Option SLO) : Except RecordsFault Summary := do
  let ok := run.okRequests
  let total := run.requests.length
  let wallS ← run.wallSeconds
  let outputTokens := (ok.map (·.outputTokens)).sum
  let totalTokens := (ok.map (·.totalTokens)).sum
  let errorRate ← fraction (total - ok.length) total
  let ttftMs ← Percentiles.fromValues (ok.filterMap (·.ttftMs))
  let itlMs ← Percentiles.fromValues (ok.flatMap (·.itlMs))
  let tpotMs ← Percentiles.fromValues (ok.filterMap (·.tpotMs))
  let e2eMs ← Percentiles.fromValues (ok.filterMap (·.e2eMs))
  let outputTokS ← perSecond outputTokens wallS
  let totalTokS ← perSecond totalTokens wallS
  let reqS ← perSecond ok.length wallS
  let cost ← run.costPer1m outputTokens wallS
  let good ← match slo with
    | none => .ok none
    | some slo => (run.goodput slo).map some
  .ok
    { numRequests := total, numOk := ok.length, numFailed := (total : ℤ) - ok.length
      errorRate := errorRate, wallS := wallS
      promptTokens := (ok.map (·.promptTokens)).sum, outputTokens := outputTokens
      ttftMs := ttftMs, itlMs := itlMs, tpotMs := tpotMs, e2eMs := e2eMs
      outputTokS := outputTokS, totalTokS := totalTokS, reqS := reqS
      costPer1mOutputTokensUsd := cost, goodput := good }

end RunResult

end TurboServe.Bench
