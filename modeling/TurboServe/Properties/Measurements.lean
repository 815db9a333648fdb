import TurboServe.Bench.Metrics
import TurboServe.Gateway.Usage

/-!
# One stream, measured twice

The gateway's accumulator and the load generator's builder fold the same events at the
same times, and when their figures agree.
-/

namespace TurboServe.Bench

open TurboServe.Gateway

/-! ## §1  The two measurements -/

/-- Events with the nanosecond each is received at. -/
abbrev Received : Type := List (TokenEvent × ℤ)

def seconds (ns : ℤ) : ℚ := ns / 1000000000

/-- The gateway's accumulator of a request that arrived at `a`. -/
def arrived (requestId tenant model backend : String) (lane : Lane) (prompt : ℕ) (a : ℤ) :
    UsageAccumulator where
  requestId := requestId
  tenantId := tenant
  model := model
  backend := backend
  lane := lane
  promptTokens := prompt
  cachedPromptTokens := 0
  arrivalTs := seconds a
  tFirstToken := none
  tFinish := none
  completionTokensSeen := 0
  countedDeltas := 0
  finishReason := none
  estimated := false

def gatewayFold (u : UsageAccumulator) (events : Received) : UsageAccumulator :=
  events.foldl (fun u x => u.onEvent x.1 (seconds x.2)) u

def benchFold (b : RecordBuilder) (events : Received) : RecordBuilder :=
  events.foldl (fun b x => b.observe x.1 x.2) b

/-- The same counts, and the same latencies, each present in both or in neither. -/
structure Agree (u : UsageRecord) (r : RequestRecord) : Prop where
  completion : (u.completionTokens : ℤ) = r.outputTokens
  prompt : (u.promptTokens : ℤ) = r.promptTokens
  ttft : u.ttftS.map (· * 1000) = r.ttftMs
  tpot : u.tpotS.map (· * 1000) = r.tpotMs
  e2e : u.e2eS.map (· * 1000) = r.e2eMs

/-! ## §2  What the folds keep -/

/-- When the first token was received. -/
def firstNs (events : Received) : Option ℤ :=
  (events.find? fun x => RecordBuilder.tokens x.1 ≠ 0).map (·.2)

/-- The tokens of a stream, a text without ids counting for one. -/
def tally (events : Received) : ℕ := (events.map fun x => RecordBuilder.tokens x.1).sum

/-- The token ids of a stream. -/
def idCount (events : Received) : ℕ := (events.map fun x => x.1.numTokens).sum

theorem produced_eq_tokens (e : TokenEvent) :
    UsageAccumulator.produced e = RecordBuilder.tokens e := rfl

theorem firstNs_append (events : Received) (x : TokenEvent × ℤ) :
    firstNs (events ++ [x]) = (firstNs events).or
      (if RecordBuilder.tokens x.1 ≠ 0 then some x.2 else none) := by
  unfold firstNs
  rw [List.find?_append, Option.map_or]
  by_cases h : RecordBuilder.tokens x.1 ≠ 0
  · rw [if_pos h, List.find?_singleton, if_pos (decide_eq_true h)]
    rfl
  · rw [if_neg h, List.find?_singleton, if_neg (by simpa using h)]
    rfl

/-- The accumulator over a stretch that has not finished. -/
structure GatewayTracks (start u : UsageAccumulator) (events : Received) : Prop where
  arrival : u.arrivalTs = start.arrivalTs
  prompt : u.promptTokens = start.promptTokens
  first : u.tFirstToken = (firstNs events).map seconds
  ids : u.completionTokensSeen = idCount events
  deltas : u.countedDeltas = tally events

/-- The builder over such a stretch. -/
structure BenchTracks (start b : RecordBuilder) (events : Received) : Prop where
  send : b.tSendNs = start.tSendNs
  prompt : b.promptTokens = start.promptTokens
  first : b.tFirstNs = firstNs events
  counted : b.countedTokens = tally events
  usage : b.usage = none

theorem idCount_append (events : Received) (x : TokenEvent × ℤ) :
    idCount (events ++ [x]) = idCount events + x.1.numTokens := by
  simp [idCount]

theorem tally_append (events : Received) (x : TokenEvent × ℤ) :
    tally (events ++ [x]) = tally events + RecordBuilder.tokens x.1 := by
  simp [tally]

/-- The first token's time after one more event. -/
theorem first_step (events : Received) (x : TokenEvent × ℤ) :
    (if UsageAccumulator.produced x.1 ≠ 0 ∧ (firstNs events).map seconds = none then
        some (seconds x.2)
      else (firstNs events).map seconds) = (firstNs (events ++ [x])).map seconds := by
  rw [firstNs_append, produced_eq_tokens]
  cases hfirst : firstNs events with
  | some f => simp
  | none => by_cases h : RecordBuilder.tokens x.1 = 0 <;> simp [h]

theorem gatewayTracks (start : UsageAccumulator) (hfirst : start.tFirstToken = none)
    (hids : start.completionTokensSeen = 0) (hdeltas : start.countedDeltas = 0)
    (events : Received) (hopen : ∀ x ∈ events, x.1.finished = false) :
    GatewayTracks start (gatewayFold start events) events := by
  induction events using List.reverseRecOn with
  | nil => exact ⟨rfl, rfl, hfirst, hids, hdeltas⟩
  | append_singleton events x ih =>
      have h := ih fun y hy => hopen y (List.mem_append_left _ hy)
      have hx : x.1.finished = false := hopen x (by simp)
      have hstep : gatewayFold start (events ++ [x]) =
          (gatewayFold start events).onEvent x.1 (seconds x.2) := by
        unfold gatewayFold
        rw [List.foldl_append]
        rfl
      rw [hstep]
      unfold UsageAccumulator.onEvent
      simp only [hx, Bool.false_eq_true, if_false]
      refine ⟨h.arrival, h.prompt, ?_, ?_, ?_⟩
      · dsimp only
        rw [h.first]
        exact first_step events x
      · dsimp only
        rw [h.ids, idCount_append]
      · dsimp only
        rw [h.deltas, tally_append, produced_eq_tokens]

variable {b : RecordBuilder}

theorem accountTokens_fields (b : RecordBuilder) (n : ℕ) (t : ℤ) :
    (b.accountTokens n t).tSendNs = b.tSendNs ∧
      (b.accountTokens n t).promptTokens = b.promptTokens ∧
      (b.accountTokens n t).tFirstNs = b.tFirstNs.or (some t) ∧
      (b.accountTokens n t).countedTokens = b.countedTokens + n ∧
      (b.accountTokens n t).usage = b.usage := by
  unfold RecordBuilder.accountTokens
  cases hfirst : b.tFirstNs with
  | none => exact ⟨rfl, rfl, rfl, rfl, rfl⟩
  | some f => exact ⟨rfl, rfl, rfl, rfl, rfl⟩

/-- One event, for the builder. -/
theorem observe_fields (b : RecordBuilder) (e : TokenEvent) (t : ℤ) :
    (b.observe e t).tSendNs = b.tSendNs ∧
      (b.observe e t).promptTokens = b.promptTokens ∧
      (b.observe e t).tFirstNs =
        b.tFirstNs.or (if RecordBuilder.tokens e ≠ 0 then some t else none) ∧
      (b.observe e t).countedTokens = b.countedTokens + RecordBuilder.tokens e ∧
      (b.observe e t).usage = e.usage.or b.usage ∧
      (e.finished = true → (b.observe e t).tLastNs = some t) := by
  unfold RecordBuilder.observe
  cases e.error with
  | none =>
      obtain ⟨k₁, k₂, k₃, k₄, k₅⟩ := accountTokens_fields b (RecordBuilder.tokens e) t
      by_cases htokens : RecordBuilder.tokens e = 0
      · cases e.usage <;> cases e.finished <;> simp [htokens]
      · cases e.usage <;> cases e.finished <;> simp [htokens, k₁, k₂, k₃, k₄, k₅]
  | some text =>
      -- the error changes none of the counts
      obtain ⟨k₁, k₂, k₃, k₄, k₅⟩ := accountTokens_fields
        { b with ok := false, error := some text } (RecordBuilder.tokens e) t
      by_cases htokens : RecordBuilder.tokens e = 0
      · cases e.usage <;> cases e.finished <;> simp [htokens]
      · cases e.usage <;> cases e.finished <;> simp [htokens, k₁, k₂, k₃, k₄, k₅]

theorem benchTracks (hfirst : b.tFirstNs = none) (hcounted : b.countedTokens = 0)
    (husage : b.usage = none) (events : Received)
    (hopen : ∀ x ∈ events, x.1.usage = none) :
    BenchTracks b (benchFold b events) events := by
  induction events using List.reverseRecOn with
  | nil => exact ⟨rfl, rfl, hfirst, hcounted, husage⟩
  | append_singleton events x ih =>
      have h := ih fun y hy => hopen y (List.mem_append_left _ hy)
      have hx : x.1.usage = none := hopen x (by simp)
      have hstep : benchFold b (events ++ [x]) =
          (benchFold b events).observe x.1 x.2 := by
        unfold benchFold
        rw [List.foldl_append]
        rfl
      obtain ⟨h₁, h₂, h₃, h₄, h₅, -⟩ := observe_fields (benchFold b events) x.1 x.2
      rw [hstep]
      refine ⟨h₁.trans h.send, h₂.trans h.prompt, ?_, ?_, ?_⟩
      · rw [h₃, h.first, firstNs_append]
      · rw [h₄, h.counted, tally_append]
      · rw [h₅, hx, h.usage]
        rfl

/-- The last event, for the accumulator. -/
theorem onEvent_finished (u : UsageAccumulator) {e : TokenEvent} (stamp : ℚ)
    (hf : e.finished = true) :
    (u.onEvent e stamp).arrivalTs = u.arrivalTs ∧
      (u.onEvent e stamp).tFinish = some stamp ∧
      (u.onEvent e stamp).tFirstToken =
        (if UsageAccumulator.produced e ≠ 0 ∧ u.tFirstToken = none then some stamp
          else u.tFirstToken) ∧
      (u.onEvent e stamp).promptTokens =
        (e.usage.bind fun x => UsageAccumulator.reported x.promptTokens).getD u.promptTokens ∧
      (u.onEvent e stamp).completionTokensSeen =
        (e.usage.bind fun x => UsageAccumulator.reported x.completionTokens).getD
          (u.completionTokensSeen + e.numTokens) ∧
      (u.onEvent e stamp).countedDeltas =
        (e.usage.bind fun x => UsageAccumulator.reported x.completionTokens).getD
          (u.countedDeltas + UsageAccumulator.produced e) := by
  unfold UsageAccumulator.onEvent
  simp only [hf, if_true]
  cases e.usage with
  | none => exact ⟨rfl, rfl, rfl, rfl, rfl, rfl⟩
  | some x => exact ⟨rfl, rfl, rfl, rfl, rfl, rfl⟩

/-! ## §3  The two records -/

/-- A stream whose last event is the only one to finish it or to carry usage, with counts
that are not negative. -/
structure OneEnding (init : Received) (last : TokenEvent) : Prop where
  unfinished : ∀ x ∈ init, x.1.finished = false
  unreported : ∀ x ∈ init, x.1.usage = none
  finished : last.finished = true
  prompt : ∀ u, last.usage = some u → ∀ n, u.promptTokens = some n → 0 ≤ n
  completion : ∀ u, last.usage = some u → ∀ n, u.completionTokens = some n → 0 ≤ n

/-- The completion count an event reports. -/
def reportedCompletion (e : TokenEvent) : Option ℤ := e.usage.bind (·.completionTokens)

theorem reported_getD {n : Option ℤ} (h : ∀ k, n = some k → 0 ≤ k) (d : ℕ) :
    (((UsageAccumulator.reported n).getD d : ℕ) : ℤ) = n.getD d := by
  cases n with
  | none => rfl
  | some k =>
      obtain ⟨m, rfl⟩ := Int.eq_ofNat_of_zero_le (h k rfl)
      rfl

/-- Reading a count out of the usage block, through the accumulator's check. -/
theorem usage_getD {usage : Option Usage} (field : Usage → Option ℤ)
    (h : ∀ u, usage = some u → ∀ n, field u = some n → 0 ≤ n) (d : ℕ) :
    (((usage.bind fun u => UsageAccumulator.reported (field u)).getD d : ℕ) : ℤ) =
      (usage.bind field).getD d := by
  cases usage with
  | none => rfl
  | some u => exact reported_getD (h u rfl) d

/-- The record of an accumulator that has seen the end. -/
theorem finish_figures {u : UsageAccumulator} {stamp : ℚ} (h : u.tFinish = some stamp)
    (status : RequestStatus) (now : ℚ) :
    (u.finish status now).1.completionTokens = u.completionTokens ∧
      (u.finish status now).1.promptTokens = u.promptTokens ∧
      (u.finish status now).1.ttftS = u.ttftS ∧
      (u.finish status now).1.e2eS = u.e2eS ∧
      (u.finish status now).1.tpotS = u.tpotS := by
  have hsame : { u with tFinish := some (u.tFinish.getD now) } = u := by
    cases u
    simp only at h
    rw [h]
    rfl
  unfold UsageAccumulator.finish
  rw [hsame]
  exact ⟨rfl, rfl, rfl, rfl, rfl⟩

variable {init : Received} {last : TokenEvent} (requestId tenant model backend : String)
  (lane : Lane) (prompt : ℕ) (t a : ℤ)

/-- The gateway's figures of a stream. -/
theorem gateway_figures (h : OneEnding init last) (status : RequestStatus) (now : ℚ) :
    let events := init ++ [(last, t)]
    let r := ((gatewayFold (arrived requestId tenant model backend lane prompt a)
      events).finish status now).1
    (r.completionTokens : ℤ) = (reportedCompletion last).getD
        ((if idCount events = 0 then tally events else idCount events : ℕ) : ℤ) ∧
      (r.promptTokens : ℤ) = (last.usage.bind (·.promptTokens)).getD prompt ∧
      r.ttftS = (firstNs events).map (fun f => seconds f - seconds a) ∧
      r.e2eS = some (seconds t - seconds a) ∧
      r.tpotS = (firstNs events).bind fun f =>
        if r.completionTokens < 2 then none
        else some ((seconds t - seconds f) / (r.completionTokens - 1 : ℕ)) := by
  intro events r
  have htracks := gatewayTracks (arrived requestId tenant model backend lane prompt a)
    rfl rfl rfl init h.unfinished
  have hstep : gatewayFold (arrived requestId tenant model backend lane prompt a) events =
      (gatewayFold (arrived requestId tenant model backend lane prompt a) init).onEvent
        last (seconds t) := by
    unfold gatewayFold
    rw [List.foldl_append]
    rfl
  obtain ⟨h₁, h₂, h₃, h₄, h₅, h₆⟩ := onEvent_finished
    (gatewayFold (arrived requestId tenant model backend lane prompt a) init) (seconds t)
    h.finished
  rw [← hstep] at h₁ h₂ h₃ h₄ h₅ h₆
  rw [htracks.first, first_step init (last, t)] at h₃
  rw [htracks.arrival] at h₁
  rw [htracks.prompt] at h₄
  rw [htracks.ids, ← idCount_append init (last, t)] at h₅
  rw [htracks.deltas, produced_eq_tokens, ← tally_append init (last, t)] at h₆
  obtain ⟨k₁, k₂, k₃, k₄, k₅⟩ := finish_figures h₂ status now
  have hcount := usage_getD (·.completionTokens) h.completion
  refine ⟨?_, ?_, ?_, ?_, ?_⟩
  · -- a reported count replaces both tallies
    rw [k₁]
    unfold UsageAccumulator.completionTokens reportedCompletion
    rw [h₅, h₆, ← hcount]
    cases (last.usage.bind fun u => UsageAccumulator.reported u.completionTokens) with
    | none => rfl
    | some n => simp
  · rw [k₂, h₄]
    exact usage_getD (·.promptTokens) h.prompt prompt
  · rw [k₃]
    unfold UsageAccumulator.ttftS
    rw [h₃, h₁, Option.map_map]
    rfl
  · rw [k₄]
    unfold UsageAccumulator.e2eS
    rw [h₂, h₁]
    rfl
  · rw [k₅, k₁]
    unfold UsageAccumulator.tpotS
    rw [h₂, h₃]
    cases firstNs events <;> rfl

/-- The load generator's figures of a stream. -/
theorem bench_figures (h : OneEnding init last) :
    let events := init ++ [(last, t)]
    let r := (benchFold (.sent requestId tenant prompt backend lane a) events).build
    r.outputTokens = (reportedCompletion last).getD (tally events : ℕ) ∧
      r.promptTokens = (last.usage.bind (·.promptTokens)).getD prompt ∧
      r.tSendNs = a ∧ r.tFirstNs = firstNs events ∧ r.tLastNs = some t := by
  intro events r
  have htracks := benchTracks (b := .sent requestId tenant prompt backend lane a)
    rfl rfl rfl init h.unreported
  have hstep : benchFold (.sent requestId tenant prompt backend lane a) events =
      (benchFold (.sent requestId tenant prompt backend lane a) init).observe last t := by
    unfold benchFold
    rw [List.foldl_append]
    rfl
  obtain ⟨h₁, h₂, h₃, h₄, h₅, h₆⟩ := observe_fields
    (benchFold (.sent requestId tenant prompt backend lane a) init) last t
  rw [← hstep] at h₁ h₂ h₃ h₄ h₅ h₆
  rw [htracks.first, ← firstNs_append init (last, t)] at h₃
  rw [htracks.counted, ← tally_append init (last, t)] at h₄
  rw [htracks.usage, Option.or_none] at h₅
  refine ⟨?_, ?_, h₁.trans htracks.send, h₃, h₆ h.finished⟩
  · change ((benchFold _ events).usage.bind (·.completionTokens)).getD _ = _
    rw [h₅, h₄]
    rfl
  · change ((benchFold _ events).usage.bind (·.promptTokens)).getD _ = _
    rw [h₅, h₂, htracks.prompt]
    rfl

/-! ## §4  When they agree -/

/-- The tokens are counted one way: the count is reported, or no event has ids, or no
event has text without ids. -/
def Uniform (events : Received) (last : TokenEvent) : Prop :=
  (reportedCompletion last).isSome ∨ (∀ x ∈ events, x.1.tokenIds = []) ∨
    ∀ x ∈ events, x.1.text ≠ "" → x.1.tokenIds ≠ []

/-- A completion of two tokens or more has its first one strictly before its end. -/
def Spread (events : Received) (last : TokenEvent) (t : ℤ) : Prop :=
  2 ≤ (reportedCompletion last).getD (tally events : ℕ) →
    ∀ f, firstNs events = some f → f < t

instance (events : Received) (last : TokenEvent) : Decidable (Uniform events last) := by
  unfold Uniform
  infer_instance

theorem tokens_of_ids (e : TokenEvent) (h : e.text ≠ "" → e.tokenIds ≠ []) :
    RecordBuilder.tokens e = e.numTokens := by
  unfold RecordBuilder.tokens TokenEvent.numTokens
  by_cases hids : e.tokenIds = []
  · have htext : e.text = "" := by
      by_contra hne
      exact h hne hids
    simp [hids, htext]
  · rw [if_neg (by simpa using hids)]

theorem numTokens_le_tokens (e : TokenEvent) : e.numTokens ≤ RecordBuilder.tokens e := by
  unfold RecordBuilder.tokens TokenEvent.numTokens
  split
  · omega
  · exact le_rfl

theorem idCount_le_tally (events : Received) : idCount events ≤ tally events := by
  unfold idCount tally
  exact List.sum_le_sum fun x _ => numTokens_le_tokens x.1

theorem idCount_eq_zero (events : Received) :
    idCount events = 0 ↔ ∀ x ∈ events, x.1.tokenIds = [] := by
  unfold idCount TokenEvent.numTokens
  rw [List.sum_eq_zero_iff, List.forall_mem_map]
  simp only [List.length_eq_zero_iff]

/-- The ids are the whole tally when no text comes without them. -/
theorem idCount_eq_tally (events : Received) :
    idCount events = tally events ↔ ∀ x ∈ events, x.1.text ≠ "" → x.1.tokenIds ≠ [] := by
  induction events with
  | nil => simp [idCount, tally]
  | cons x events ih =>
      have hx := numTokens_le_tokens x.1
      have hrest := idCount_le_tally events
      have hids : idCount (x :: events) = x.1.numTokens + idCount events := rfl
      have htally : tally (x :: events) = RecordBuilder.tokens x.1 + tally events := rfl
      constructor
      · intro h
        have hhead : x.1.numTokens = RecordBuilder.tokens x.1 := by omega
        have htail : idCount events = tally events := by omega
        intro y hy htext hnil
        rcases List.mem_cons.mp hy with rfl | hy
        · rw [RecordBuilder.tokens, TokenEvent.numTokens, hnil, List.length_nil, if_pos rfl,
            if_neg htext] at hhead
          exact zero_ne_one hhead
        · exact ih.mp htail y hy htext hnil
      · intro h
        have hhead := tokens_of_ids x.1 (h x List.mem_cons_self)
        have htail := ih.mpr fun y hy => h y (List.mem_cons_of_mem _ hy)
        omega

/-- The two completion counts are one exactly on a uniform stream. -/
theorem counts_agree_iff (events : Received) (last : TokenEvent) :
    (reportedCompletion last).getD
        ((if idCount events = 0 then tally events else idCount events : ℕ) : ℤ) =
      (reportedCompletion last).getD (tally events : ℕ) ↔ Uniform events last := by
  unfold Uniform
  cases reportedCompletion last with
  | some n => simp
  | none =>
      rw [← idCount_eq_zero, ← idCount_eq_tally]
      by_cases hzero : idCount events = 0
      · simp [hzero]
      · simp [hzero]

theorem seconds_sub_ms (x y : ℤ) :
    (seconds x - seconds y) * 1000 = ((x - y : ℤ) : ℚ) / RequestRecord.nsPerMs := by
  unfold seconds RequestRecord.nsPerMs
  push_cast
  ring

/-- The two slopes, where there is one. -/
theorem slope_ms (f t : ℤ) {n : ℕ} {m : ℤ} (hn : 2 ≤ n) (hm : (n : ℤ) = m) :
    (seconds t - seconds f) / (n - 1 : ℕ) * 1000 =
      ((t - f : ℤ) : ℚ) / ((m - 1 : ℤ) : ℚ) / RequestRecord.nsPerMs := by
  have hcast : ((n - 1 : ℕ) : ℚ) = ((m - 1 : ℤ) : ℚ) := by
    rw [← hm]
    push_cast [show 1 ≤ n by omega]
    ring
  rw [hcast, div_mul_eq_mul_div, seconds_sub_ms, div_right_comm]

variable {requestId tenant model backend lane prompt t a}

/-- The accumulator and the builder, fed one stream at the same times, agree on every
count and latency exactly when the stream counts its tokens one way and its first token
comes before its end. -/
theorem same_measurements (h : OneEnding init last) (status : RequestStatus) (now : ℚ) :
    let events := init ++ [(last, t)]
    Agree ((gatewayFold (arrived requestId tenant model backend lane prompt a)
        events).finish status now).1
      (benchFold (.sent requestId tenant prompt backend lane a) events).build ↔
      Uniform events last ∧ Spread events last t := by
  dsimp only
  obtain ⟨g₁, g₂, g₃, g₄, g₅⟩ := gateway_figures requestId tenant model backend lane
    prompt t a h status now
  obtain ⟨b₁, b₂, b₃, b₄, b₅⟩ := bench_figures requestId tenant backend lane prompt t a h
  constructor
  · intro hagree
    have huniform : Uniform (init ++ [(last, t)]) last := by
      rw [← counts_agree_iff, ← g₁, ← b₁]
      exact hagree.completion
    refine ⟨huniform, fun htwo f hf => ?_⟩
    -- past two tokens the accumulator always has a slope
    by_contra hle
    have hcount := hagree.completion
    have hslope := hagree.tpot
    rw [← b₁, ← hcount] at htwo
    rw [g₅, hf, Option.bind_some, if_neg (by omega)] at hslope
    unfold RequestRecord.tpotMs at hslope
    rw [← hcount, if_neg (by omega), b₄, b₅, hf] at hslope
    dsimp only at hslope
    rw [if_pos (by omega)] at hslope
    exact Option.some_ne_none _ hslope
  · rintro ⟨huniform, hspread⟩
    have hcount := (counts_agree_iff _ last).mpr huniform
    rw [← g₁, ← b₁] at hcount
    refine ⟨hcount, g₂.trans b₂.symm, ?_, ?_, ?_⟩
    · rw [g₃, RequestRecord.ttftMs, b₄, b₃, Option.map_map]
      congr 1
      funext f
      exact seconds_sub_ms f a
    · rw [g₅, RequestRecord.tpotMs, b₄, b₅, ← hcount]
      cases hf : firstNs (init ++ [(last, t)]) with
      | none => simp
      | some f =>
          rw [Option.bind_some]
          by_cases htwo : 2 ≤ ((gatewayFold (arrived requestId tenant model backend lane
              prompt a) (init ++ [(last, t)])).finish status now).1.completionTokens
          · have hlt : f < t := hspread (by rw [← b₁, ← hcount]; exact_mod_cast htwo) f hf
            rw [if_neg (by omega), if_neg (by omega), Option.map_some]
            dsimp only
            rw [if_neg (by omega), slope_ms f t htwo rfl]
          · rw [if_pos (by omega), if_pos (by omega)]
            rfl
    · rw [g₄, RequestRecord.e2eMs, b₅, b₃, Option.map_some, Option.map_some,
        seconds_sub_ms]

/-- Two tokens a second apart, with their ids. -/
def twoTokens : Received :=
  [({ requestId := "r", tokenIds := [5], text := "a" }, 1000000000),
    ({ requestId := "r", tokenIds := [6], text := "b" }, 2000000000)]

/-- A token with its id, then one of text alone. -/
def mixedTokens : Received :=
  [({ requestId := "r", tokenIds := [5], text := "a" }, 1000000000),
    ({ requestId := "r", text := "b" }, 2000000000)]

/-- A terminator without usage. -/
def stopEvent : TokenEvent := { requestId := "r", finished := true, finishReason := some .stop }

theorem same_measurements_two :
    Agree ((gatewayFold (arrived "r" "t" "m" "b" .stable 3 0)
        (twoTokens ++ [(stopEvent, 2500000000)])).finish .ok 0).1
      (benchFold (.sent "r" "t" 3 "b" .stable 0)
        (twoTokens ++ [(stopEvent, 2500000000)])).build := by
  refine (same_measurements ⟨by decide, by decide, rfl, ?_, ?_⟩ .ok 0).mpr
    ⟨.inr (.inr (by decide)), fun _ f hf => ?_⟩
  · rintro u ⟨⟩
  · rintro u ⟨⟩
  · obtain rfl : 1000000000 = f := Option.some_inj.mp hf
    decide

/-- Of ids and then text alone the gateway counts one token and the load generator two; of
two tokens in one instant only the gateway has a slope. -/
theorem mixed_tokens_differ :
    ¬ Agree ((gatewayFold (arrived "r" "t" "m" "b" .stable 3 0)
          (mixedTokens ++ [(stopEvent, 2500000000)])).finish .ok 0).1
        (benchFold (.sent "r" "t" 3 "b" .stable 0)
          (mixedTokens ++ [(stopEvent, 2500000000)])).build ∧
      ¬ Agree ((gatewayFold (arrived "r" "t" "m" "b" .stable 3 0)
          [({ stopEvent with tokenIds := [5, 6] }, 5)]).finish .ok 0).1
        (benchFold (.sent "r" "t" 3 "b" .stable 0)
          [({ stopEvent with tokenIds := [5, 6] }, 5)]).build := by
  constructor
  · intro h
    have hone : (1 : ℤ) = 2 := h.completion
    exact absurd hone (by decide)
  · intro h
    exact absurd h.tpot (by decide +kernel)

end TurboServe.Bench
