import Mathlib.Algebra.Order.BigOperators.Group.List
import TurboServe.Properties.Measurements

/-!
# The inter-token series

What `RecordBuilder.build` returns of a stream observed at non-decreasing times: the series
of the gaps, chunk by chunk, in closed form, and when it has the documented length and mass.
-/

namespace TurboServe.Bench

open TurboServe.Gateway

/-! ## §1  The series in closed form -/

/-- The events with tokens: how many, and when they came. -/
def chunks (events : Received) : List (ℕ × ℤ) :=
  (events.filter fun x => RecordBuilder.tokens x.1 ≠ 0).map fun x =>
    (RecordBuilder.tokens x.1, x.2)

/-- The gaps of the chunks after one received at `prev`. -/
def gapsFrom (prev : ℤ) : List (ℕ × ℤ) → List ℤ
  | [] => []
  | c :: cs => List.replicate c.1 (max (c.2 - prev) 0 / c.1) ++ gapsFrom c.2 cs

/-- When the last chunk came. -/
def lastChunkNs (prev : ℤ) : List (ℕ × ℤ) → ℤ
  | [] => prev
  | c :: cs => lastChunkNs c.2 cs

/-- The nanoseconds that dividing each gap by the tokens of its chunk drops. -/
def dropped (prev : ℤ) : List (ℕ × ℤ) → ℤ
  | [] => 0
  | c :: cs => (c.2 - prev) % c.1 + dropped c.2 cs

theorem gapsFrom_append (prev : ℤ) (cs : List (ℕ × ℤ)) (c : ℕ × ℤ) :
    gapsFrom prev (cs ++ [c]) = gapsFrom prev cs ++
      List.replicate c.1 (max (c.2 - lastChunkNs prev cs) 0 / c.1) := by
  induction cs generalizing prev with
  | nil => simp [gapsFrom, lastChunkNs]
  | cons d cs ih =>
      rw [List.cons_append, gapsFrom, ih, gapsFrom, List.append_assoc]
      rfl

theorem lastChunkNs_append (prev : ℤ) (cs : List (ℕ × ℤ)) (c : ℕ × ℤ) :
    lastChunkNs prev (cs ++ [c]) = c.2 := by
  induction cs generalizing prev with
  | nil => rfl
  | cons d cs ih => exact ih d.2

theorem length_gapsFrom (prev : ℤ) (cs : List (ℕ × ℤ)) :
    (gapsFrom prev cs).length = (cs.map (·.1)).sum := by
  induction cs generalizing prev with
  | nil => rfl
  | cons c cs ih =>
      rw [gapsFrom, List.length_append, List.length_replicate, ih, List.map_cons, List.sum_cons]

theorem gapsFrom_nonneg {prev : ℤ} {cs : List (ℕ × ℤ)} : ∀ g ∈ gapsFrom prev cs, 0 ≤ g := by
  induction cs generalizing prev with
  | nil => exact fun g hg => absurd hg List.not_mem_nil
  | cons c cs ih =>
      intro g hg
      rcases List.mem_append.mp hg with hg | hg
      · rw [List.eq_of_mem_replicate hg]
        exact Int.ediv_nonneg (le_max_right _ _) (Int.natCast_nonneg _)
      · exact ih g hg

/-- The gaps of chunks in the order of time are the time they took, but for what the
divisions drop. -/
theorem sum_gapsFrom {prev : ℤ} {cs : List (ℕ × ℤ)}
    (htimes : (prev :: cs.map (·.2)).Pairwise (· ≤ ·)) :
    (gapsFrom prev cs).sum + dropped prev cs = lastChunkNs prev cs - prev := by
  induction cs generalizing prev with
  | nil => simp [gapsFrom, dropped, lastChunkNs]
  | cons c cs ih =>
      rw [List.map_cons, List.pairwise_cons] at htimes
      have hgap : 0 ≤ c.2 - prev := sub_nonneg.mpr (htimes.1 c.2 List.mem_cons_self)
      have hshare : (c.1 : ℤ) * ((c.2 - prev) / c.1) + (c.2 - prev) % c.1 = c.2 - prev :=
        Int.mul_ediv_add_emod _ _
      have hrest := ih htimes.2
      rw [gapsFrom, dropped, lastChunkNs, List.sum_append, List.sum_replicate, max_eq_left hgap,
        nsmul_eq_mul]
      linarith

theorem sum_gapsFrom_nonneg (prev : ℤ) (cs : List (ℕ × ℤ)) : 0 ≤ (gapsFrom prev cs).sum :=
  List.sum_nonneg gapsFrom_nonneg

/-- The whole series: nothing for the first chunk. -/
def series : List (ℕ × ℤ) → List ℤ
  | [] => []
  | c :: cs => gapsFrom c.2 cs

theorem chunks_append (events : Received) (x : TokenEvent × ℤ) :
    chunks (events ++ [x]) = chunks events ++
      (if RecordBuilder.tokens x.1 ≠ 0 then [(RecordBuilder.tokens x.1, x.2)] else []) := by
  unfold chunks
  rw [List.filter_append, List.map_append]
  by_cases h : RecordBuilder.tokens x.1 ≠ 0
  · rw [if_pos h, List.filter_cons_of_pos (by simpa using h)]
    rfl
  · rw [if_neg h, List.filter_cons_of_neg (by simpa using h)]
    rfl

theorem firstNs_eq_chunks (events : Received) :
    firstNs events = (chunks events).head?.map (·.2) := by
  unfold firstNs chunks
  rw [List.head?_map, List.head?_filter, Option.map_map]
  rfl

theorem tally_eq_chunks (events : Received) : tally events = ((chunks events).map (·.1)).sum := by
  induction events with
  | nil => rfl
  | cons x events ih =>
      unfold tally chunks at ih ⊢
      rw [List.map_cons, List.sum_cons, ih]
      by_cases h : RecordBuilder.tokens x.1 ≠ 0
      · rw [List.filter_cons_of_pos (by simpa using h)]
        rfl
      · rw [List.filter_cons_of_neg (by simpa using h), not_not.mp h, zero_add]

/-! ## §2  What the builder keeps -/

/-- When the last chunk of a stream came. -/
def lastTokenNs (cs : List (ℕ × ℤ)) : Option ℤ :=
  match cs with
  | [] => none
  | c :: cs => some (lastChunkNs c.2 cs)

/-- The last usage block of a stream. -/
def lastUsage (events : Received) : Option Usage := (events.filterMap (·.1.usage)).getLast?

/-- When the last terminating event came. -/
def finishNs (events : Received) : Option ℤ := ((events.filter (·.1.finished)).getLast?).map (·.2)

/-- The series after one more chunk. -/
def extended (b : RecordBuilder) (n : ℕ) (t : ℤ) : List ℤ :=
  match b.tFirstNs with
  | none => b.itlNs
  | some first => b.itlNs ++ List.replicate n (max (t - b.lastEventNs.getD first) 0 / n)

theorem accountTokens_series (b : RecordBuilder) (n : ℕ) (t : ℤ) :
    (b.accountTokens n t).itlNs = extended b n t ∧
      (b.accountTokens n t).lastEventNs = some t ∧
      (b.accountTokens n t).tLastNs = b.tLastNs := by
  unfold RecordBuilder.accountTokens extended
  cases b.tFirstNs with
  | none => exact ⟨rfl, rfl, rfl⟩
  | some first => exact ⟨rfl, rfl, rfl⟩

/-- One event, for the series. -/
theorem observe_series (b : RecordBuilder) (e : TokenEvent) (t : ℤ) :
    (b.observe e t).itlNs =
        (if RecordBuilder.tokens e = 0 then b.itlNs else extended b (RecordBuilder.tokens e) t) ∧
      (b.observe e t).lastEventNs =
        (if RecordBuilder.tokens e = 0 then b.lastEventNs else some t) ∧
      (b.observe e t).tLastNs = (if e.finished then some t else b.tLastNs) := by
  unfold RecordBuilder.observe
  cases e.error with
  | none =>
      obtain ⟨k₁, k₂, k₃⟩ := accountTokens_series b (RecordBuilder.tokens e) t
      by_cases htokens : RecordBuilder.tokens e = 0
      · cases e.usage <;> cases e.finished <;> simp [htokens]
      · cases e.usage <;> cases e.finished <;> simp [htokens, k₁, k₂, k₃]
  | some text =>
      obtain ⟨k₁, k₂, k₃⟩ := accountTokens_series
        { b with ok := false, error := some text } (RecordBuilder.tokens e) t
      by_cases htokens : RecordBuilder.tokens e = 0
      · cases e.usage <;> cases e.finished <;> simp [htokens]
      · cases e.usage <;> cases e.finished <;> simp [htokens, k₁, k₂, k₃, extended]

/-- The builder over a stretch of a stream, from one that has seen nothing. -/
structure SeriesTracks (start b : RecordBuilder) (events : Received) : Prop where
  send : b.tSendNs = start.tSendNs
  first : b.tFirstNs = firstNs events
  last : b.lastEventNs = lastTokenNs (chunks events)
  itl : b.itlNs = series (chunks events)
  counted : b.countedTokens = tally events
  usage : b.usage = lastUsage events
  finish : b.tLastNs = finishNs events

theorem series_append (cs : List (ℕ × ℤ)) (c : ℕ × ℤ) :
    series (cs ++ [c]) = match cs.head? with
      | none => []
      | some d => series cs ++
          List.replicate c.1 (max (c.2 - (lastTokenNs cs).getD d.2) 0 / c.1) := by
  cases cs with
  | nil => rfl
  | cons d cs => exact gapsFrom_append d.2 cs c

theorem lastTokenNs_append (cs : List (ℕ × ℤ)) (c : ℕ × ℤ) :
    lastTokenNs (cs ++ [c]) = some c.2 := by
  cases cs with
  | nil => rfl
  | cons d cs => exact congrArg some (lastChunkNs_append d.2 cs c)

theorem lastUsage_append (events : Received) (x : TokenEvent × ℤ) :
    lastUsage (events ++ [x]) = x.1.usage.or (lastUsage events) := by
  unfold lastUsage
  rw [List.filterMap_append, List.getLast?_append]
  cases hx : x.1.usage with
  | none => rw [List.filterMap_cons, hx]; rfl
  | some u => rw [List.filterMap_cons, hx]; rfl

theorem finishNs_append (events : Received) (x : TokenEvent × ℤ) :
    finishNs (events ++ [x]) = if x.1.finished then some x.2 else finishNs events := by
  unfold finishNs
  rw [List.filter_append, List.getLast?_append]
  cases hx : x.1.finished with
  | false => rw [List.filter_cons_of_neg (by simp [hx])]; rfl
  | true => rw [List.filter_cons, hx]; rfl

theorem seriesTracks (requestId tenant : String) (promptTokens : ℕ) (backend : String)
    (lane : Lane) (sendNs : ℤ) (events : Received) :
    SeriesTracks (.sent requestId tenant promptTokens backend lane sendNs)
      (benchFold (.sent requestId tenant promptTokens backend lane sendNs) events) events := by
  induction events using List.reverseRecOn with
  | nil => exact ⟨rfl, rfl, rfl, rfl, rfl, rfl, rfl⟩
  | append_singleton events x ih =>
      have hstep : benchFold (.sent requestId tenant promptTokens backend lane sendNs)
          (events ++ [x]) = (benchFold (.sent requestId tenant promptTokens backend lane sendNs)
            events).observe x.1 x.2 := by
        unfold benchFold
        rw [List.foldl_append]
        rfl
      rw [hstep]
      obtain ⟨hsend, -, hfirst, hcounted, husage, -⟩ := observe_fields (benchFold
        (.sent requestId tenant promptTokens backend lane sendNs) events) x.1 x.2
      obtain ⟨hitl, hlast, hfinish⟩ := observe_series (benchFold
        (.sent requestId tenant promptTokens backend lane sendNs) events) x.1 x.2
      refine ⟨hsend.trans ih.send, ?_, ?_, ?_, ?_, ?_, ?_⟩
      · rw [hfirst, ih.first, firstNs_append]
      · rw [hlast, ih.last, chunks_append]
        by_cases htokens : RecordBuilder.tokens x.1 = 0
        · rw [if_pos htokens, if_neg (not_not.mpr htokens), List.append_nil]
        · rw [if_neg htokens, if_pos htokens, lastTokenNs_append]
      · rw [hitl, extended, ih.itl, ih.first, ih.last, chunks_append, firstNs_eq_chunks]
        by_cases htokens : RecordBuilder.tokens x.1 = 0
        · rw [if_pos htokens, if_neg (not_not.mpr htokens), List.append_nil]
        · rw [if_neg htokens, if_pos htokens, series_append]
          cases hchunks : chunks events with
          | nil => rfl
          | cons c cs => rfl
      · rw [hcounted, ih.counted, tally_append]
      · rw [husage, ih.usage, lastUsage_append]
      · rw [hfinish, ih.finish, finishNs_append]

/-! ## §3  The record -/

/-- A stream as a client sees it: the events, and perhaps the failure it ends in. -/
structure Stream where
  requestId : String
  tenant : String
  promptTokens : ℕ
  backend : String
  lane : Lane
  sendNs : ℤ
  events : Received
  failure : Option (String × ℤ)
  /-- Nothing is received before what came earlier. -/
  ordered : (sendNs :: (events.map (·.2) ++ (failure.map (·.2)).toList)).Pairwise (· ≤ ·)

namespace Stream

variable (s : Stream)

/-- What the builder makes of the stream. -/
def record : RequestRecord :=
  let b := benchFold (.sent s.requestId s.tenant s.promptTokens s.backend s.lane s.sendNs) s.events
  match s.failure with
  | none => b.build
  | some (error, tNs) => (b.failed error tNs).build

/-- The tokens of the first chunk. -/
def firstChunkTokens : Option ℕ := (chunks s.events).head?.map (·.1)

/-- The completion count the last usage block reports. -/
def reportedTokens : Option ℤ := (lastUsage s.events).bind (·.completionTokens)

/-- When the stream ended: at its failure, else at the last terminating event. -/
def endNs : Option ℤ := (s.failure.map (·.2)).or (finishNs s.events)

/-- The documented length and mass of the series, and the order of the timestamps. -/
structure Documented (r : RequestRecord) : Prop where
  length : (r.itlNs.length : ℤ) = match s.firstChunkTokens with
    | some k => r.outputTokens - k
    | none => 0
  nonneg : ∀ gap ∈ r.itlNs, 0 ≤ gap
  mass : ∀ first last, r.tFirstNs = some first → r.tLastNs = some last →
    r.itlNs.sum ≤ last - first
  order : ∀ last, r.tLastNs = some last → r.tSendNs ≤ last ∧
    ∀ first, r.tFirstNs = some first → r.tSendNs ≤ first ∧ first ≤ last

/-- A stream whose reported count, if it has tokens and reports one, is the count of what
crossed the wire, and whose last token comes before its end, but for less than what the
divisions drop. -/
structure Regular : Prop where
  count : ∀ n, chunks s.events ≠ [] → s.reportedTokens = some n → n = tally s.events
  late : ∀ c cs last, chunks s.events = c :: cs → s.endNs = some last →
    lastChunkNs c.2 cs - dropped c.2 cs ≤ last

theorem record_fields :
    s.record.tSendNs = s.sendNs ∧ s.record.tFirstNs = firstNs s.events ∧
      s.record.tLastNs = s.endNs ∧ s.record.itlNs = series (chunks s.events) ∧
      s.record.outputTokens = s.reportedTokens.getD (tally s.events) := by
  have h := seriesTracks s.requestId s.tenant s.promptTokens s.backend s.lane s.sendNs s.events
  unfold record endNs reportedTokens
  cases s.failure with
  | none =>
      refine ⟨h.send, h.first, h.finish, h.itl, ?_⟩
      dsimp only [RecordBuilder.build]
      rw [h.usage, h.counted]
  | some failure =>
      refine ⟨h.send, h.first, rfl, h.itl, ?_⟩
      dsimp only [RecordBuilder.build, RecordBuilder.failed]
      rw [h.usage, h.counted]

theorem chunk_times_sublist (events : Received) :
    List.Sublist ((chunks events).map (·.2)) (events.map (·.2)) := by
  unfold chunks
  rw [List.map_map]
  exact List.filter_sublist.map _

variable {s}

theorem sendNs_le {t : ℤ} (h : t ∈ s.events.map (·.2) ++ (s.failure.map (·.2)).toList) :
    s.sendNs ≤ t :=
  (List.pairwise_cons.mp s.ordered).1 t h

theorem sendNs_le_end {last : ℤ} (h : s.endNs = some last) : s.sendNs ≤ last := by
  apply sendNs_le
  rw [List.mem_append]
  rcases Option.or_eq_some_iff.mp h with hfail | ⟨-, hfinish⟩
  · exact Or.inr (Option.mem_toList.mpr hfail)
  · obtain ⟨x, hx, hxt⟩ := Option.map_eq_some_iff.mp hfinish
    exact Or.inl (List.mem_map.mpr ⟨x, List.mem_of_mem_filter (List.mem_of_getLast? hx), hxt⟩)

theorem chunk_times_ordered {c : ℕ × ℤ} {cs : List (ℕ × ℤ)} (h : chunks s.events = c :: cs) :
    s.sendNs ≤ c.2 ∧ (c.2 :: cs.map (·.2)).Pairwise (· ≤ ·) := by
  have hsub := chunk_times_sublist s.events
  rw [h, List.map_cons] at hsub
  have hordered := (List.pairwise_cons.mp s.ordered).2
  refine ⟨sendNs_le ?_, ?_⟩
  · exact List.mem_append_left _ (hsub.subset List.mem_cons_self)
  · exact (List.pairwise_append.mp hordered).1.sublist hsub

/-- The series has the documented length and mass exactly for a regular stream. -/
theorem documented_iff (s : Stream) : s.Documented s.record ↔ s.Regular := by
  obtain ⟨hsend, hfirst, hlast, hitl, houtput⟩ := s.record_fields
  rw [firstNs_eq_chunks] at hfirst
  constructor
  · intro h
    constructor
    · intro n hne hreported
      obtain ⟨c, cs, hchunks⟩ := List.exists_cons_of_ne_nil hne
      have hlength := h.length
      have htally := tally_eq_chunks s.events
      rw [hitl, houtput, hreported, firstChunkTokens, hchunks, series, length_gapsFrom] at hlength
      rw [hchunks, List.map_cons, List.sum_cons] at htally
      simp only [List.head?_cons, Option.map_some, Option.getD_some] at hlength
      omega
    · intro c cs last hchunks hend
      rw [hchunks] at hfirst hitl
      have hmass := h.mass c.2 last hfirst (hlast.trans hend)
      rw [hitl, series] at hmass
      have hsum := sum_gapsFrom (chunk_times_ordered hchunks).2
      omega
  · intro h
    have hcases : chunks s.events = [] ∨ ∃ c cs, chunks s.events = c :: cs := by
      cases chunks s.events with
      | nil => exact Or.inl rfl
      | cons c cs => exact Or.inr ⟨c, cs, rfl⟩
    rcases hcases with hchunks | ⟨c, cs, hchunks⟩
    · -- no token: no gap and no first time
      rw [hchunks] at hfirst hitl
      refine ⟨?_, ?_, ?_, ?_⟩
      · rw [hitl, firstChunkTokens, hchunks]
        rfl
      · rw [hitl]
        exact fun gap hgap => absurd hgap List.not_mem_nil
      · intro first last hf
        cases hfirst.symm.trans hf
      · intro last hl
        rw [hsend]
        refine ⟨sendNs_le_end (hlast.symm.trans hl), fun first hf => ?_⟩
        cases hfirst.symm.trans hf
    · have htally := tally_eq_chunks s.events
      rw [hchunks, List.map_cons, List.sum_cons] at htally
      obtain ⟨hsent, htimes⟩ := chunk_times_ordered hchunks
      have hsum := sum_gapsFrom htimes
      have hnonneg := sum_gapsFrom_nonneg c.2 cs
      have hcount : s.record.outputTokens = tally s.events := by
        rw [houtput]
        cases hreported : s.reportedTokens with
        | none => rfl
        | some n => exact h.count n (by rw [hchunks]; exact List.cons_ne_nil c cs) hreported
      rw [hchunks] at hfirst hitl
      have hbound : ∀ last, s.record.tLastNs = some last → (gapsFrom c.2 cs).sum ≤ last - c.2 := by
        intro last hl
        have hlate := h.late c cs last hchunks (hlast.symm.trans hl)
        omega
      refine ⟨?_, ?_, ?_, ?_⟩
      · rw [hitl, hcount, firstChunkTokens, hchunks, series, length_gapsFrom]
        simp only [List.head?_cons, Option.map_some]
        omega
      · rw [hitl]
        exact gapsFrom_nonneg
      · intro first last hf hl
        cases hfirst.symm.trans hf
        rw [hitl]
        exact hbound last hl
      · intro last hl
        rw [hsend]
        refine ⟨sendNs_le_end (hlast.symm.trans hl), fun first hf => ?_⟩
        obtain rfl : c.2 = first := Option.some.inj (hfirst.symm.trans hf)
        have hle := hbound last hl
        exact ⟨hsent, by omega⟩

/-- Two chunks of one token, and a terminator that reports five. -/
def overReported : Stream where
  requestId := "r"
  tenant := "t"
  promptTokens := 1
  backend := "b"
  lane := .stable
  sendNs := 0
  events := [({ requestId := "r", tokenIds := [7] }, 10), ({ requestId := "r", tokenIds := [8] }, 20),
    ({ requestId := "r", finished := true, finishReason := some .stop
       usage := some ⟨none, some 5, none⟩ }, 20)]
  failure := none
  ordered := by decide

/-- One gap where the documentation promises four. -/
theorem overReported_short :
    overReported.record.outputTokens = 5 ∧ overReported.record.itlNs = [10] ∧
      ¬ overReported.Documented overReported.record := by
  have houtput : overReported.record.outputTokens = 5 := rfl
  have hitl : overReported.record.itlNs = [10] := rfl
  have hfirst : overReported.firstChunkTokens = some 1 := rfl
  refine ⟨houtput, hitl, fun h => ?_⟩
  have hlength := h.length
  rw [houtput, hitl, hfirst] at hlength
  exact absurd hlength (by decide)

end Stream

end TurboServe.Bench
