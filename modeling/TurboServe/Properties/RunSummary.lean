import TurboServe.Bench.Records
import TurboServe.Lib.Fallible
import TurboServe.Properties.Percentiles

/-!
# Run summaries

What `RunResult.wall_seconds` and `summarize` say about a list of records. The span of a run
reaches from the first request sent, also one that never completed, to the last token
received; every distribution is taken over the successful records that have the value.
-/

namespace TurboServe.Bench

open TurboServe.Lib

/-! ## §1  The span of a run -/

theorem nsPerS_ne_zero : nsPerS ≠ 0 := by norm_num [nsPerS]

theorem divide_of_ne {b : ℚ} (hb : b ≠ 0) (a : ℚ) : divide a b = .ok (a / b) := if_neg hb

namespace RunResult

variable {run : RunResult}

/-- When the first request was sent. -/
def firstSent (run : RunResult) : Option ℤ := (run.requests.map (·.tSendNs)).min?

/-- When the last token was received. -/
def lastReceived (run : RunResult) : Option ℤ := (run.requests.filterMap (·.tLastNs)).max?

/-- The seconds between two instants, none if the second is earlier or one is missing. -/
def spanSeconds (first last : Option ℤ) : ℚ :=
  match first, last with
  | some a, some b => (max (b - a) 0 : ℤ) / nsPerS
  | _, _ => 0

/-- A finish time is the last one exactly if it is one and none is later. -/
theorem lastReceived_eq_some {t : ℤ} : run.lastReceived = some t ↔
    (∃ r ∈ run.requests, r.tLastNs = some t) ∧
      ∀ r ∈ run.requests, ∀ u, r.tLastNs = some u → u ≤ t := by
  rw [lastReceived, List.max?_eq_some_iff, List.mem_filterMap]
  refine and_congr_right fun _ => ?_
  constructor
  · exact fun h r hr u hu => h u (List.mem_filterMap.mpr ⟨r, hr, hu⟩)
  · intro h u hu
    obtain ⟨r, hr, hru⟩ := List.mem_filterMap.mp hu
    exact h r hr u hru

theorem lastReceived_eq_none : run.lastReceived = none ↔
    run.requests.filter (·.tLastNs.isSome) = [] := by
  rw [lastReceived, List.max?_eq_none_iff, List.filterMap_eq_nil_iff, List.filter_eq_nil_iff]
  refine forall₂_congr fun r _ => ?_
  rw [Option.not_isSome_iff_eq_none]

/-- The code's second sequence: the finish times other than zero. -/
theorem filterMap_completed (run : RunResult) :
    (run.requests.filter (·.tLastNs.isSome)).filterMap (·.tLastNs) =
      run.requests.filterMap (·.tLastNs) := by
  rw [List.filterMap_filter]
  refine congrArg (List.filterMap · run.requests) (funext fun r => ?_)
  cases r.tLastNs <;> rfl

/-- Dropping the zeros does not change a maximum that is not zero. -/
theorem max?_filter_ne_zero {ts : List ℤ} {t : ℤ} (h : ts.max? = some t) (ht : t ≠ 0) :
    (ts.filter (· ≠ 0)).max? = some t := by
  obtain ⟨hmem, hle⟩ := List.max?_eq_some_iff.mp h
  refine List.max?_eq_some_iff.mpr ⟨List.mem_filter.mpr ⟨hmem, decide_eq_true ht⟩, ?_⟩
  exact fun u hu => hle u (List.mem_filter.mp hu).1

/-- Unless the last finish time is the number zero, the code measures the span. -/
theorem wallSeconds_eq (h : run.lastReceived ≠ some 0) :
    run.wallSeconds = .ok (spanSeconds run.firstSent run.lastReceived) := by
  unfold wallSeconds
  dsimp only
  rw [filterMap_completed]
  by_cases hnone : run.lastReceived = none
  · rw [if_pos (lastReceived_eq_none.mp hnone), hnone]
    cases run.firstSent <;> rfl
  rw [if_neg (mt lastReceived_eq_none.mpr hnone)]
  obtain ⟨t, ht⟩ := Option.ne_none_iff_exists'.mp hnone
  have hzero : t ≠ 0 := fun h0 => h (h0 ▸ ht)
  obtain ⟨⟨r, hr, -⟩, -⟩ := lastReceived_eq_some.mp ht
  have hsent : ∃ a, run.firstSent = some a := by
    refine Option.ne_none_iff_exists'.mp fun hn => ?_
    rw [firstSent, List.min?_eq_none_iff, List.map_eq_nil_iff] at hn
    rw [hn] at hr
    exact List.not_mem_nil hr
  obtain ⟨a, ha⟩ := hsent
  rw [ht, ha, max?_filter_ne_zero ht hzero]
  unfold firstSent at ha
  rw [ha]
  exact divide_of_ne nsPerS_ne_zero _

/-- The code raises exactly if something completed and zero is the only finish time. -/
theorem wallSeconds_raises_iff : (∃ e, run.wallSeconds = .error e) ↔
    run.lastReceived ≠ none ∧ ∀ t ∈ run.requests.filterMap (·.tLastNs), t = 0 := by
  unfold wallSeconds
  dsimp only
  rw [filterMap_completed]
  by_cases hnone : run.lastReceived = none
  · rw [if_pos (lastReceived_eq_none.mp hnone)]
    refine iff_of_false ?_ fun h => h.1 hnone
    rintro ⟨e, he⟩
    cases he
  rw [if_neg (mt lastReceived_eq_none.mpr hnone), and_iff_right hnone]
  have hempty : ((run.requests.filterMap (·.tLastNs)).filter (· ≠ 0)).max? = none ↔
      ∀ t ∈ run.requests.filterMap (·.tLastNs), t = 0 := by
    rw [List.max?_eq_none_iff, List.filter_eq_nil_iff]
    refine forall₂_congr fun t _ => ?_
    rw [decide_eq_true_eq, not_not]
  rw [← hempty]
  have hsent : (run.requests.map (·.tSendNs)).min? ≠ none := by
    intro hn
    rw [List.min?_eq_none_iff, List.map_eq_nil_iff] at hn
    exact hnone (lastReceived_eq_none.mpr (by rw [hn, List.filter_nil]))
  obtain ⟨a, ha⟩ := Option.ne_none_iff_exists'.mp hsent
  rw [ha]
  cases hlast : ((run.requests.filterMap (·.tLastNs)).filter (· ≠ 0)).max? with
  | none => exact iff_of_true ⟨_, rfl⟩ rfl
  | some t =>
      refine iff_of_false ?_ (Option.some_ne_none t)
      rintro ⟨e, he⟩
      change divide _ nsPerS = _ at he
      rw [divide_of_ne nsPerS_ne_zero] at he
      cases he

end RunResult

/-! ## §2  Distributions -/

/-- A distribution block describes a sample. -/
structure Percentiles.Describes (block : Percentiles) (values : List ℚ) : Prop where
  count : block.count = values.length
  mean : values ≠ [] → block.mean = some (values.sum / values.length)
  p50 : percentile values 50 = .ok block.p50
  p90 : percentile values 90 = .ok block.p90
  p95 : percentile values 95 = .ok block.p95
  p99 : percentile values 99 = .ok block.p99
  min : block.min = values.min?
  max : block.max = values.max?

theorem percentile_returns (values : List ℚ) {q : ℚ} (hq : 0 ≤ q ∧ q ≤ 100) :
    ∃ v, percentile values q = .ok v :=
  ⟨_, percentile_eq_canary values hq⟩

/-- Summarising a sample never raises, and describes it. -/
theorem Percentiles.fromValues_describes (values : List ℚ) :
    ∃ block, fromValues values = .ok block ∧ block.Describes values := by
  by_cases hne : values = []
  · subst hne
    refine ⟨{}, if_pos rfl, ⟨rfl, fun h => absurd rfl h, ?_, ?_, ?_, ?_, rfl, rfl⟩⟩
    all_goals exact percentile_nil (by norm_num)
  have hlen : (values.length : ℚ) ≠ 0 :=
    Nat.cast_ne_zero.mpr (List.length_pos_iff.mpr hne).ne'
  obtain ⟨p50, h50⟩ := percentile_returns values (q := 50) (by norm_num)
  obtain ⟨p90, h90⟩ := percentile_returns values (q := 90) (by norm_num)
  obtain ⟨p95, h95⟩ := percentile_returns values (q := 95) (by norm_num)
  obtain ⟨p99, h99⟩ := percentile_returns values (q := 99) (by norm_num)
  refine ⟨⟨values.length, some (values.sum / values.length), p50, p90, p95, p99, values.min?,
    values.max?⟩, ?_, ⟨rfl, fun _ => rfl, h50, h90, h95, h99, rfl, rfl⟩⟩
  rw [fromValues, if_neg hne, bind_of_ok (divide_of_ne hlen _), bind_of_ok h50, bind_of_ok h90,
    bind_of_ok h95, bind_of_ok h99]

/-- The values `f` takes on the successful records, each as often as there is a successful
record with it. -/
theorem count_successful (requests : List RequestRecord) (f : RequestRecord → Option ℚ) (v : ℚ) :
    ((requests.filter (·.ok)).filterMap f).count v =
      requests.countP fun r => r.ok && (f r == some v) := by
  induction requests with
  | nil => rfl
  | cons r rs ih =>
      rw [List.countP_cons, ← ih]
      cases hok : r.ok with
      | false =>
          rw [List.filter_cons_of_neg (by rw [hok]; exact Bool.false_ne_true), Bool.false_and]
          rfl
      | true =>
          rw [List.filter_cons_of_pos hok, Bool.true_and, List.filterMap_cons]
          cases f r with
          | none => rfl
          | some u => rw [List.count_cons]; rfl

/-- The gaps of the successful records, each as often as those records have it together. -/
theorem count_gaps (requests : List RequestRecord) (v : ℚ) :
    ((requests.filter (·.ok)).flatMap (·.itlMs)).count v =
      (requests.map fun r => if r.ok then r.itlMs.count v else 0).sum := by
  induction requests with
  | nil => rfl
  | cons r rs ih =>
      rw [List.map_cons, List.sum_cons, ← ih]
      cases hok : r.ok with
      | false =>
          rw [List.filter_cons_of_neg (by rw [hok]; exact Bool.false_ne_true), if_neg (by simp),
            zero_add]
      | true =>
          rw [List.filter_cons_of_pos hok, List.flatMap_cons, List.count_append, if_pos rfl]

/-! ## §3  The summary -/

/-- A block taken over exactly the successful records that have a value under `f`. -/
def Percentiles.TakenOver (block : Percentiles) (requests : List RequestRecord)
    (f : RequestRecord → Option ℚ) : Prop :=
  ∃ values, block.Describes values ∧
    ∀ v, values.count v = requests.countP fun r => r.ok && (f r == some v)

theorem Percentiles.fromValues_takenOver (run : RunResult) (f : RequestRecord → Option ℚ) :
    ∃ block, fromValues (run.okRequests.filterMap f) = .ok block ∧
      block.TakenOver run.requests f := by
  obtain ⟨block, hblock, hdescribes⟩ := fromValues_describes (run.okRequests.filterMap f)
  exact ⟨block, hblock, _, hdescribes, count_successful run.requests f⟩

/-- What a summary says of a run. -/
structure Summary.Consistent (s : Summary) (run : RunResult) : Prop where
  wall : run.wallSeconds = .ok s.wallS
  total : s.numRequests = run.requests.length
  numOk : s.numOk = run.requests.countP (·.ok)
  sum : (s.numOk : ℤ) + s.numFailed = run.requests.length
  ttft : s.ttftMs.TakenOver run.requests (·.ttftMs)
  tpot : s.tpotMs.TakenOver run.requests (·.tpotMs)
  e2e : s.e2eMs.TakenOver run.requests (·.e2eMs)
  itl : ∃ values, s.itlMs.Describes values ∧ ∀ v, values.count v =
    (run.requests.map fun r => if r.ok then r.itlMs.count v else 0).sum

namespace RunResult

variable (run : RunResult)

theorem perSecond_returns (amount wallS : ℚ) : ∃ v, perSecond amount wallS = .ok v := by
  by_cases h : wallS > 0
  · exact ⟨_, (if_pos h).trans (divide_of_ne h.ne' _)⟩
  · exact ⟨_, if_neg h⟩

theorem fraction_returns (part total : ℕ) : ∃ v, fraction part total = .ok v := by
  by_cases h : total ≠ 0
  · exact ⟨_, (if_pos h).trans (divide_of_ne (Nat.cast_ne_zero.mpr h) _)⟩
  · exact ⟨_, if_neg h⟩

theorem costPer1m_returns (outputTokens : ℤ) (wallS : ℚ) :
    ∃ v, run.costPer1m outputTokens wallS = .ok v := by
  unfold costPer1m
  cases run.gpuPricePerHour with
  | none => exact ⟨_, rfl⟩
  | some price =>
      by_cases h : outputTokens ≤ 0 ∨ wallS ≤ 0
      · exact ⟨_, if_pos h⟩
      · have hpos : (outputTokens : ℚ) ≠ 0 := Int.cast_ne_zero.mpr (by omega)
        refine ⟨some (price * (wallS / 3600) / outputTokens * 1000000), ?_⟩
        dsimp only
        rw [if_neg h, bind_of_ok (divide_of_ne hpos _)]

variable {run}

theorem goodput_returns {wallS : ℚ} (h : run.wallSeconds = .ok wallS) (slo : SLO) :
    ∃ v, run.goodput slo = .ok v := by
  obtain ⟨ratio, hratio⟩ :=
    fraction_returns (run.requests.filter slo.isMetBy).length run.requests.length
  obtain ⟨rate, hrate⟩ := perSecond_returns (run.requests.filter slo.isMetBy).length wallS
  refine ⟨⟨slo, (run.requests.filter slo.isMetBy).length, ratio, rate⟩, ?_⟩
  unfold goodput
  dsimp only
  rw [bind_of_ok h, bind_of_ok hratio, bind_of_ok hrate]

theorem goodputFor_returns {wallS : ℚ} (h : run.wallSeconds = .ok wallS) (slo : Option SLO) :
    ∃ good, (match slo with
      | none => .ok none
      | some slo => (run.goodput slo).map some : Except RecordsFault (Option Goodput)) =
        .ok good := by
  cases slo with
  | none => exact ⟨none, rfl⟩
  | some slo =>
      obtain ⟨good, hgood⟩ := goodput_returns h slo
      exact ⟨some good, congrArg (Except.map some) hgood⟩

/-- Once the wall clock is known, nothing else in a summary can raise. -/
theorem summarize_of_wallSeconds {wallS : ℚ} (h : run.wallSeconds = .ok wallS)
    (slo : Option SLO) : ∃ s, run.summarize slo = .ok s ∧ s.Consistent run := by
  obtain ⟨errorRate, herror⟩ :=
    fraction_returns (run.requests.length - run.okRequests.length) run.requests.length
  obtain ⟨ttft, httft, httftOver⟩ := Percentiles.fromValues_takenOver run (·.ttftMs)
  obtain ⟨itl, hitl, hitlOver⟩ :=
    Percentiles.fromValues_describes (run.okRequests.flatMap (·.itlMs))
  obtain ⟨tpot, htpot, htpotOver⟩ := Percentiles.fromValues_takenOver run (·.tpotMs)
  obtain ⟨e2e, he2e, he2eOver⟩ := Percentiles.fromValues_takenOver run (·.e2eMs)
  obtain ⟨outputRate, houtput⟩ :=
    perSecond_returns ((run.okRequests.map (·.outputTokens)).sum : ℤ) wallS
  obtain ⟨totalRate, htotal⟩ :=
    perSecond_returns ((run.okRequests.map (·.totalTokens)).sum : ℤ) wallS
  obtain ⟨requestRate, hrequest⟩ := perSecond_returns run.okRequests.length wallS
  obtain ⟨cost, hcost⟩ :=
    run.costPer1m_returns (run.okRequests.map (·.outputTokens)).sum wallS
  obtain ⟨good, hgood⟩ := goodputFor_returns h slo
  refine ⟨
    { numRequests := run.requests.length, numOk := run.okRequests.length
      numFailed := (run.requests.length : ℤ) - run.okRequests.length
      errorRate := errorRate, wallS := wallS
      promptTokens := (run.okRequests.map (·.promptTokens)).sum
      outputTokens := (run.okRequests.map (·.outputTokens)).sum
      ttftMs := ttft, itlMs := itl, tpotMs := tpot, e2eMs := e2e
      outputTokS := outputRate, totalTokS := totalRate, reqS := requestRate
      costPer1mOutputTokensUsd := cost, goodput := good }, ?_, ?_⟩
  · unfold summarize
    dsimp only
    rw [bind_of_ok h, bind_of_ok herror, bind_of_ok httft, bind_of_ok hitl, bind_of_ok htpot,
      bind_of_ok he2e, bind_of_ok houtput, bind_of_ok htotal, bind_of_ok hrequest,
      bind_of_ok hcost]
    cases slo with
    | none => exact bind_of_ok hgood _
    | some slo => exact bind_of_ok hgood _
  · exact
      { wall := h, total := rfl, numOk := List.countP_eq_length_filter.symm
        sum := add_sub_cancel _ _, ttft := httftOver, tpot := htpotOver, e2e := he2eOver
        itl := ⟨_, hitlOver, count_gaps run.requests⟩ }

/-- For every list of records and every objective. Unless the last finish time is the number
zero, the wall clock is the span from the first request sent to the last token received and
the summary is returned; and whatever summary is returned is consistent with the records. -/
theorem summary_consistent (run : RunResult) (slo : Option SLO) :
    (run.lastReceived ≠ some 0 →
      run.wallSeconds = .ok (spanSeconds run.firstSent run.lastReceived) ∧
        ∃ s, run.summarize slo = .ok s) ∧
      ∀ s, run.summarize slo = .ok s → s.Consistent run := by
  constructor
  · intro h
    have hwall := wallSeconds_eq h
    obtain ⟨s, hs, -⟩ := summarize_of_wallSeconds hwall slo
    exact ⟨hwall, s, hs⟩
  · intro s hs
    obtain ⟨wallS, hwall⟩ : ∃ wallS, run.wallSeconds = .ok wallS := by
      obtain ⟨wallS, hwall, -⟩ := bind_ok_iff.mp hs
      exact ⟨wallS, hwall⟩
    obtain ⟨s', hs', hconsistent⟩ := summarize_of_wallSeconds hwall slo
    cases hs.symm.trans hs'
    exact hconsistent

/-- Of three requests the first to be sent never ends, one completes, and one fails after its
first token, last of all. -/
def threeOutcomes : RunResult where
  requests := [
    { requestId := "a", tenant := "t", promptTokens := 4, outputTokens := 3
      tSendNs := 1000000000, tFirstNs := some 2000000000, tLastNs := some 4000000000
      itlNs := [1500000000, 500000000], ok := true, error := none, backend := "b"
      lane := Gateway.Lane.stable },
    { requestId := "b", tenant := "u", promptTokens := 2, outputTokens := 0, tSendNs := 500000000
      tFirstNs := none, tLastNs := none, itlNs := [], ok := false, error := some "cancelled"
      backend := "b", lane := Gateway.Lane.stable },
    { requestId := "c", tenant := "t", promptTokens := 1, outputTokens := 1
      tSendNs := 2000000000, tFirstNs := some 3000000000, tLastNs := some 5000000000
      itlNs := [], ok := false, error := some "lost", backend := "b"
      lane := Gateway.Lane.canary }]
  gpuPricePerHour := some 2

theorem summary_consistent_threeOutcomes : ∃ s, threeOutcomes.wallSeconds = .ok (9 / 2) ∧
    threeOutcomes.summarize (some ⟨some 1500, none, none⟩) = .ok s ∧ s.wallS = 9 / 2 ∧
    s.numOk = 1 ∧ s.numFailed = 2 ∧ s.Consistent threeOutcomes := by
  have hlast : threeOutcomes.lastReceived = some 5000000000 := rfl
  have hfirst : threeOutcomes.firstSent = some 500000000 := rfl
  obtain ⟨hreturns, hall⟩ := summary_consistent threeOutcomes (some ⟨some 1500, none, none⟩)
  obtain ⟨hwall, s, hs⟩ := hreturns (by decide)
  rw [hlast, hfirst, show spanSeconds (some 500000000) (some 5000000000) = 9 / 2 by
    norm_num [spanSeconds, nsPerS]] at hwall
  have hconsistent := hall s hs
  have hok : s.numOk = 1 := hconsistent.numOk
  have hsum : (s.numOk : ℤ) + s.numFailed = 3 := hconsistent.sum
  refine ⟨s, hwall, hs, Except.ok.inj (hconsistent.wall.symm.trans hwall), hok, ?_,
    hconsistent⟩
  rw [hok] at hsum
  omega

/-- A run of one request that completed. -/
def answered : RunResult where
  requests := [{
    requestId := "a", tenant := "t", promptTokens := 1, outputTokens := 1, tSendNs := 1000000000
    tFirstNs := some 2000000000, tLastNs := some 2000000000, itlNs := [], ok := true
    error := none, backend := "b", lane := Gateway.Lane.stable }]
  gpuPricePerHour := none

/-- The same run with a request sent a second earlier that failed before any token. -/
def refusedFirst : RunResult where
  requests := {
    requestId := "b", tenant := "t", promptTokens := 1, outputTokens := 0, tSendNs := 0
    tFirstNs := none, tLastNs := none, itlNs := [], ok := false
    error := some "refused", backend := "b", lane := Gateway.Lane.stable } :: answered.requests
  gpuPricePerHour := none

/-- The first request sent starts the clock although it never finished: two seconds, where
the records with a finish time span one. -/
theorem refused_starts_clock :
    refusedFirst.wallSeconds = .ok 2 ∧
      spanSeconds ((refusedFirst.requests.filter (·.tLastNs.isSome)).map (·.tSendNs)).min?
        refusedFirst.lastReceived = 1 := by
  have hlast : refusedFirst.lastReceived = some 2000000000 := rfl
  have hfirst : refusedFirst.firstSent = some 0 := rfl
  have hcompleted :
      ((refusedFirst.requests.filter (·.tLastNs.isSome)).map (·.tSendNs)).min? =
        some 1000000000 := rfl
  constructor
  · rw [wallSeconds_eq (by decide), hlast, hfirst]
    norm_num [spanSeconds, nsPerS]
  · rw [hlast, hcompleted]
    norm_num [spanSeconds, nsPerS]

end RunResult

end TurboServe.Bench
