import TurboServe.Runtime.Decoder

/-!
# When stop strings never leak and nothing else is lost

A streaming decoder cuts the text before the stop string it reports, and it reports the
leading one of the first complete text that contains any. The whole text's earliest stop
string is a different one, or is never reported, when it is not yet in that text: an
earlier, longer one was still incomplete, or its last characters stood before an
incomplete character at the end of the request and came out of `finish`, which no
matcher reads.
-/

namespace TurboServe.Runtime

open TurboServe.Core TurboServe.Lib

variable {bytes : TokenId → List UInt8}

/-- What a client of a fresh decoder gets: the text emitted, `finish` included when no
stop string fired, and the stop string that did. -/
def decoded (bytes : TokenId → List UInt8) (stop : List Text)
    (batches : List (List TokenId)) : Text × Option Text :=
  (StreamingDecoder.create stop []).feedAll (byteDecode bytes) batches

/-- The configured stop strings, empty ones dropped. -/
def stopStrings (stop : List Text) : List Text := (StopStringMatcher.create stop).stop

/-- The stop string of the text that starts earliest starts at `i`. -/
structure EarliestAt (S : List Text) (text : Text) (i : ℕ) : Prop where
  hit : ∃ s, Hit S text i s
  le : ∀ j s, Hit S text j s → i ≤ j

/-- What is asked of an emitted text and a reported stop string, `text` being the whole
text: no stop string leaks, nothing is lost of a text without one, and a text with one
is cut immediately before the earliest. -/
structure CutAtStop (S : List Text) (text : Text) (r : Text × Option Text) : Prop where
  no_leak : ∀ i s, ¬ Hit S r.1 i s
  no_loss : (∀ i s, ¬ Hit S text i s) → r.1 = text
  cut : ∀ i, EarliestAt S text i → r.2.isSome ∧ r.1 = text.take i

/-- The earliest stop string of the whole text is already in the first complete text
that contains any stop string, the texts being those of the first `k` batches. -/
def CompletesInTime (bytes : TokenId → List UInt8) (S : List Text)
    (batches : List (List TokenId)) : Prop :=
  ∀ i, EarliestAt S (byteDecode bytes batches.flatten) i →
    ∃ k, FirstWithStop bytes S [] batches k ∧
      ∃ s, Hit S (byteDecode bytes (batches.take k).flatten) i s

theorem decoded_eq (stop : List Text) (batches : List (List TokenId)) :
    decoded bytes stop batches =
      match firstStop bytes (stopStrings stop) [] batches with
      | some (i, s) => ((byteDecode bytes batches.flatten).take i, some s)
      | none => (byteDecode bytes batches.flatten, none) :=
  (StreamingDecoder.streams_create stop).feedAll batches

theorem no_hit_nil {S : List Text} (hS : ∀ s ∈ S, s ≠ []) (i : ℕ) (s : Text) :
    ¬ Hit S [] i s := by
  rintro ⟨hs, h⟩
  have := h.end_le (hS s hs)
  have hpos : 0 < s.length := List.length_pos_iff.mpr (hS s hs)
  simp only [List.length_nil] at this
  omega

theorem firstStop_nil_eq_some {S : List Text} (hS : ∀ s ∈ S, s ≠ [])
    {batches : List (List TokenId)} {i : ℕ} {s : Text} :
    firstStop bytes S [] batches = some (i, s) ↔
      ∃ k, FirstWithStop bytes S [] batches k ∧
        Leads S (byteDecode bytes (batches.take k).flatten) i s := by
  have hnil : byteDecode bytes [] = [] := rfl
  refine firstStop_eq_some hS fun _ => ?_
  rw [hnil]
  exact no_hit_nil hS

/-- A text that is complete after some batches begins the whole text. -/
theorem hit_whole {S : List Text} (hS : ∀ s ∈ S, s ≠ []) {batches : List (List TokenId)}
    {k : ℕ} (hc : Complete (byteDecode bytes (batches.take k).flatten)) {i : ℕ} {s : Text}
    (h : Hit S (byteDecode bytes (batches.take k).flatten) i s) :
    Hit S (byteDecode bytes batches.flatten) i s := by
  have hwhole := byteDecode_complete hc (batches.drop k).flatten
  rw [← List.flatten_append, List.take_append_drop] at hwhole
  rw [hwhole]
  exact h.append hS _

/-- The text before its earliest stop string contains none. -/
theorem EarliestAt.no_hit_take {S : List Text} (hS : ∀ s ∈ S, s ≠ []) {text : Text}
    {i : ℕ} (h : EarliestAt S text i) (j : ℕ) (s : Text) :
    ¬ Hit S (text.take i) j s := by
  intro hj
  obtain ⟨hwhole, hend⟩ := (hit_take hS).mp hj
  have hle := h.le j s hwhole
  have hpos : 0 < s.length := List.length_pos_iff.mpr (hS s hj.1)
  omega

theorem EarliestAt.le_length {S : List Text} (hS : ∀ s ∈ S, s ≠ []) {text : Text}
    {i : ℕ} (h : EarliestAt S text i) : i ≤ text.length := by
  obtain ⟨s, hs⟩ := h.hit
  exact (Nat.le_add_right _ _).trans (hs.2.end_le (hS s hs.1))

theorem EarliestAt.unique {S : List Text} {text : Text} {i j : ℕ}
    (hi : EarliestAt S text i) (hj : EarliestAt S text j) : i = j := by
  obtain ⟨s, hs⟩ := hi.hit
  obtain ⟨u, hu⟩ := hj.hit
  exact le_antisymm (hi.le j u hu) (hj.le i s hs)

theorem earliestAt_of_leads {S : List Text} {text : Text} {i : ℕ} {s : Text}
    (h : Leads S text i s) : EarliestAt S text i :=
  ⟨⟨s, h.hit⟩, h.le⟩

theorem exists_leads {S : List Text} (hS : ∀ s ∈ S, s ≠ []) {text : Text} {i : ℕ}
    {s : Text} (h : Hit S text i s) : ∃ j u, Leads S text j u := by
  cases hsearch : StopStringMatcher.search S text with
  | none => exact absurd h ((StopStringMatcher.search_eq_none hS).mp hsearch i s)
  | some found => exact ⟨_, _, (StopStringMatcher.search_eq_some hS).mp hsearch⟩

/-- In time, the earliest stop string is the one reported. -/
theorem CompletesInTime.firstStop {S : List Text} (hS : ∀ s ∈ S, s ≠ [])
    {batches : List (List TokenId)} (h : CompletesInTime bytes S batches) {i : ℕ}
    (hi : EarliestAt S (byteDecode bytes batches.flatten) i) :
    ∃ s, firstStop bytes S [] batches = some (i, s) := by
  obtain ⟨k, hk, s, hs⟩ := h i hi
  obtain ⟨j, u, hl⟩ := exists_leads hS hs
  have hij : i = j :=
    le_antisymm (hi.le j u (hit_whole hS hk.complete hl.hit)) (hl.le i s hs)
  subst hij
  exact ⟨u, (firstStop_nil_eq_some hS).mpr ⟨k, hk, hl⟩⟩

/-- **When stop strings are cut as promised.** For every byte-level tokenizer, every
token list split into feeds, and every list of stop strings: exactly when the earliest
stop string of the whole text is in the first complete text that contains one. -/
theorem decoded_cutAtStop_iff (bytes : TokenId → List UInt8) (stop : List Text)
    (batches : List (List TokenId)) :
    CutAtStop (stopStrings stop) (byteDecode bytes batches.flatten)
        (decoded bytes stop batches) ↔
      CompletesInTime bytes (stopStrings stop) batches := by
  have hS : ∀ s ∈ stopStrings stop, s ≠ [] := (StopStringMatcher.create stop).stop_ne_nil
  constructor
  · intro h i hi
    obtain ⟨hsome, htext⟩ := h.cut i hi
    rw [decoded_eq] at hsome htext
    rcases hm : firstStop bytes (stopStrings stop) [] batches with _ | ⟨j, s⟩
    · rw [hm] at hsome
      cases hsome
    · rw [hm] at htext
      obtain ⟨k, hk, hl⟩ := (firstStop_nil_eq_some hS).mp hm
      -- cut at the same length, so at the same place
      have hj := (hit_whole hS hk.complete hl.hit).2.end_le (hS s hl.hit.1)
      have hlen := congrArg List.length htext
      have hi' := hi.le_length hS
      simp only [List.length_take] at hlen
      have hij : j = i := by omega
      exact ⟨k, hk, s, hij ▸ hl.hit⟩
  · intro h
    by_cases hany : ∃ i s, Hit (stopStrings stop) (byteDecode bytes batches.flatten) i s
    · obtain ⟨i₀, s₀, hit₀⟩ := hany
      obtain ⟨i, u, hl⟩ := exists_leads hS hit₀
      have hi := earliestAt_of_leads hl
      obtain ⟨s, hm⟩ := h.firstStop hS hi
      have hdecoded : decoded bytes stop batches =
          ((byteDecode bytes batches.flatten).take i, some s) := by
        rw [decoded_eq, hm]
      rw [hdecoded]
      refine ⟨hi.no_hit_take hS, fun hno => absurd hit₀ (hno i₀ s₀), fun j hj => ?_⟩
      rw [hj.unique hi]
      exact ⟨rfl, rfl⟩
    · have hno : ∀ i s, ¬ Hit (stopStrings stop) (byteDecode bytes batches.flatten) i s :=
        fun i s hit => hany ⟨i, s, hit⟩
      have hdecoded : decoded bytes stop batches =
          (byteDecode bytes batches.flatten, none) := by
        rw [decoded_eq]
        rcases hm : firstStop bytes (stopStrings stop) [] batches with _ | ⟨i, s⟩
        · rfl
        · obtain ⟨k, hk, hl⟩ := (firstStop_nil_eq_some hS).mp hm
          exact absurd (hit_whole hS hk.complete hl.hit) (hno i s)
      rw [hdecoded]
      refine ⟨hno, fun _ => rfl, fun i hi => ?_⟩
      obtain ⟨s, hs⟩ := hi.hit
      exact absurd hs (hno i s)

/-- One token `ab` and the first byte of a three-byte character, then the end of the
request: the detokenizer holds all of it back, and `finish` emits the stop string. -/
theorem decoded_leaks :
    ¬ ∀ (bytes : TokenId → List UInt8) (stop : List Text)
      (batches : List (List TokenId)),
      CutAtStop (stopStrings stop) (byteDecode bytes batches.flatten)
        (decoded bytes stop batches) := by
  intro h
  have := (h (fun _ => [0x61, 0x62, 0xE2]) ["ab".toList] [[0]]).no_leak 0 "ab".toList
  revert this
  unfold Hit
  decide +kernel

end TurboServe.Runtime
