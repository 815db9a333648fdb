import TurboServe.Gateway.App

/-!
# What a session does with a whole stream

The accumulator after a list of events, the frames a streamed answer consists of, what
the collector returns, and where an answer that is closed early stops reading.
-/

namespace TurboServe.Gateway

open Lib Lib.Gen

/-! ## §1  Streams that end once -/

/-- The last event, and only the last, is finished. -/
def EndsOnce (events : List TokenEvent) : Prop :=
  ∃ init last, events = init ++ [last] ∧ last.finished = true ∧
    ∀ e ∈ init, e.finished = false

theorem endsOnce_singleton {e : TokenEvent} : EndsOnce [e] ↔ e.finished = true := by
  constructor
  · rintro ⟨init, last, heq, hlast, -⟩
    obtain ⟨-, hlast'⟩ := List.append_inj' ((List.nil_append [e]).trans heq) rfl
    rw [List.singleton_inj.mp hlast']
    exact hlast
  · exact fun h => ⟨[], e, rfl, h, nofun⟩

theorem endsOnce_cons_cons {e e' : TokenEvent} {rest : List TokenEvent} :
    EndsOnce (e :: e' :: rest) ↔ e.finished = false ∧ EndsOnce (e' :: rest) := by
  constructor
  · rintro ⟨init, last, heq, hlast, hinit⟩
    cases init with
    | nil => simp at heq
    | cons a init =>
        obtain ⟨rfl, hrest⟩ := List.cons.inj heq
        exact ⟨hinit e List.mem_cons_self, init, last, hrest, hlast,
          fun x hx => hinit x (List.mem_cons_of_mem _ hx)⟩
  · rintro ⟨he, init, last, heq, hlast, hinit⟩
    refine ⟨e :: init, last, congrArg (e :: ·) heq, hlast, fun x hx => ?_⟩
    rcases List.mem_cons.mp hx with rfl | hx
    · exact he
    · exact hinit x hx

theorem TokenEvent.isError_of_not_finished {e : TokenEvent} (h : e.finished = false) :
    e.isError = false := by
  cases herr : e.isError with
  | false => rfl
  | true => exact absurd (h.symm.trans (e.finished_of_error herr)) (by decide)

/-- The events of an opened stream. -/
def events (first : TokenEvent) (rest : List Pulled) : List TokenEvent :=
  first :: rest.map (·.routed.event)

/-- The terminating event. -/
def lastEvent : TokenEvent → List Pulled → TokenEvent
  | e, [] => e
  | _, p :: rest => lastEvent p.routed.event rest

theorem finished_lastEvent {first : TokenEvent} {rest : List Pulled}
    (h : EndsOnce (events first rest)) : (lastEvent first rest).finished = true := by
  induction rest generalizing first with
  | nil => exact endsOnce_singleton.mp h
  | cons p rest ih => exact ih (endsOnce_cons_cons.mp h).2

theorem lastEvent_mem (first : TokenEvent) (rest : List Pulled) :
    lastEvent first rest ∈ events first rest := by
  induction rest generalizing first with
  | nil => exact List.mem_singleton_self first
  | cons p rest ih => exact List.mem_cons_of_mem _ (ih p.routed.event)

/-! ## §2  The accounting -/

/-- The counts an accumulator reports. -/
def UsageAccumulator.info (a : UsageAccumulator) : UsageInfo where
  promptTokens := a.promptTokens
  completionTokens := a.completionTokens
  totalTokens := a.promptTokens + a.completionTokens
  cachedTokens := if a.cachedPromptTokens = 0 then none else some a.cachedPromptTokens

theorem usageInfo_complete (x : Session) (status : RequestStatus) (d : Draws) :
    usageInfo (x.complete status d).1 = x.accumulator.info := by
  unfold Session.complete
  cases x.finished <;> rfl

/-- The accumulator after the remaining events. -/
def fed (a : UsageAccumulator) (rest : List Pulled) : UsageAccumulator :=
  rest.foldl (fun a p => a.onEvent p.routed.event p.stamp) a

/-- The session after the remaining events. -/
def feedAll (x : Session) (rest : List Pulled) : Session := rest.foldl Session.feed x

theorem feedAll_eq (x : Session) (rest : List Pulled) :
    feedAll x rest = { x with accumulator := fed x.accumulator rest } := by
  induction rest generalizing x with
  | nil => rfl
  | cons p rest ih => exact ih (x.feed p)

/-- Other requests change what they share with a session, not the session. -/
def Apart (x x' : Session) : Prop := ∃ s, x' = { x with state := s }

theorem Apart.accumulator {x x' : Session} (h : Apart x x') :
    x'.accumulator = x.accumulator := by
  obtain ⟨s, rfl⟩ := h
  rfl

/-! ## §3  Streamed answers -/

/-- The frames of the events themselves. -/
def eventFrames (rd : Rendering) : List Pulled → TokenEvent → List Payload
  | [], event =>
      if event.isError then
        [.error { message := failureMessage event, type := "server_error" }]
      else rd.chunks event
  | p :: rest, event => rd.chunks event ++ eventFrames rd rest p.routed.event

/-- The frames of the `finally` block. -/
def closingFrames (rd : Rendering) (b : Body) (usage : UsageInfo) : List Payload :=
  (if b.includeUsage then [rd.usageChunk usage] else []) ++ [.done]

variable {rd : Rendering} {b : Body} {d : Draws}

theorem emits_closeStream (status : RequestStatus) (x : Session) :
    (closeStream rd b d none status x).EmitsWhile Apart
      (closingFrames rd b x.accumulator.info) .returned := by
  unfold closeStream closingFrames
  simp only [usageInfo_complete]
  have h := emitsWhile_yieldAll (R := Apart) (P := fun _ => True) id
    (fun x => (.done x : Gen Session Payload RouteFault)) (fun _ _ _ _ => trivial)
    (fun _ _ => ⟨rfl, rfl⟩)
    ((if b.includeUsage then [rd.usageChunk x.accumulator.info] else []) ++ [.done])
    (s := (x.complete status d).2) trivial
  rw [List.append_nil] at h
  exact h

theorem emits_breakStream (message : String) (x : Session) :
    (breakStream rd b d message x).EmitsWhile Apart
      (.error { message := message, type := "server_error" } ::
        closingFrames rd b x.accumulator.info) .returned := by
  refine ⟨_, rfl, fun x' h => ?_⟩
  rw [← h.accumulator]
  exact emits_closeStream .error x'

/-- Induction on the events that are left; what is fed so far is in the accumulator. -/
theorem emits_streamEvents {first : TokenEvent} {rest : List Pulled} {x : Session}
    (h : EndsOnce (events first rest)) :
    (streamEvents rd b d none rest first x).EmitsWhile Apart
      (eventFrames rd rest first ++ closingFrames rd b (fed x.accumulator rest).info)
      .returned := by
  have hkeep : ∀ a : UsageAccumulator, ∀ y y' : Session, y.accumulator = a → Apart y y' →
      y'.accumulator = a := fun a y y' hy hR => hR.accumulator.trans hy
  induction rest generalizing first x with
  | nil =>
      unfold streamEvents eventFrames
      cases herr : first.isError with
      | true => exact emits_breakStream _ x
      | false =>
          refine emitsWhile_yieldAll _ _ (hkeep x.accumulator) (fun y hy => ?_) _ rfl
          rw [fed, List.foldl_nil, ← hy]
          exact emits_closeStream .ok y
  | cons p rest ih =>
      obtain ⟨hfirst, hrest⟩ := endsOnce_cons_cons.mp h
      unfold streamEvents eventFrames
      rw [TokenEvent.isError_of_not_finished hfirst, List.append_assoc]
      refine emitsWhile_yieldAll _ _ (hkeep x.accumulator) (fun y hy => ?_) _ rfl
      rw [fed, List.foldl_cons, ← hy]
      exact ih (x := y.feed p) hrest

theorem emits_sse {first : TokenEvent} {rest : List Pulled} {x : Session}
    (h : EndsOnce (events first rest)) :
    (sse rd b d none first rest x).EmitsWhile Apart
      (rd.preamble ++
        (eventFrames rd rest first ++ closingFrames rd b (fed x.accumulator rest).info))
      .returned := by
  refine emitsWhile_yieldAll _ _ (P := fun y => y.accumulator = x.accumulator)
    (fun y y' hy hR => hR.accumulator.trans hy) (fun y hy => ?_) _ rfl
  rw [← hy]
  exact emits_streamEvents h

/-! ## §4  Buffered answers -/

theorem join_addPart (parts : List String) (e : TokenEvent) :
    String.join (addPart parts e) = String.join parts ++ e.text := by
  unfold addPart
  split
  · rename_i h
    rw [h, String.append_empty]
  · rw [String.join_append, String.join_cons, String.join_nil, String.append_empty]

theorem collect_eq (first : TokenEvent) (rest : List Pulled) (parts : List String)
    (x : Session) :
    collect none rest first parts x =
      (.ok (String.join parts ++ String.join ((events first rest).map (·.text)),
        lastEvent first rest), feedAll x rest) := by
  induction rest generalizing first parts x with
  | nil =>
      simp only [collect, join_addPart, events, List.map_nil, List.map_cons,
        String.join_cons, String.join_nil, String.append_empty]
      rfl
  | cons p rest ih =>
      rw [collect, ih, join_addPart]
      simp only [events, List.map_cons, String.join_cons, String.append_assoc]
      rfl

/-- The text, the terminating event and the record of a buffered answer. -/
theorem drain_eq (first : TokenEvent) (rest : List Pulled) (x : Session) :
    drain d none first rest x =
      (.ok (String.join ((events first rest).map (·.text)), lastEvent first rest,
        ((feedAll x rest).complete
          (if (lastEvent first rest).isError then .error else .ok) d).1),
        ((feedAll x rest).complete
          (if (lastEvent first rest).isError then .error else .ok) d).2) := by
  unfold drain
  rw [collect_eq]
  simp only [String.join_nil, String.empty_append]

/-! ## §5  Closed early -/

/-- The frames yielded before the terminating event is read. -/
def framesBefore (rd : Rendering) : List Pulled → TokenEvent → ℕ
  | [], _ => 0
  | p :: rest, event => (rd.chunks event).length + framesBefore rd rest p.routed.event

variable (closeAt : ℕ → Bool)

theorem state_closeStream (status : RequestStatus) (x : Session) (k : ℕ) :
    ((closeStream rd b d none status x).consume (fun _ => id) closeAt k).2.2 =
      (x.complete status d).2 :=
  state_consume_yieldAll_id closeAt _ _ k

theorem state_breakStream (message : String) (x : Session) (k : ℕ) :
    ((breakStream rd b d message x).consume (fun _ => id) closeAt k).2.2 =
      (x.complete .error d).2 := by
  unfold breakStream
  rw [Gen.consume]
  split
  · rfl
  · exact state_closeStream closeAt .error x (k + 1)

/-- A stretch of frames before the terminator is read completes as `ok` when it is closed
there, whatever comes after. -/
theorem state_frames (frames : List Payload) (status : RequestStatus) (x : Session)
    (next : Session → Gen Session Payload RouteFault) (k : ℕ) :
    (∃ j, k ≤ j ∧ j < k + frames.length ∧ closeAt j = true) ∧
      ((yieldAll (onClose d status) next frames x).consume (fun _ => id) closeAt k).2.2 =
        (x.complete status d).2 ∨
    (∀ j, k ≤ j → j < k + frames.length → closeAt j = false) ∧
      ((yieldAll (onClose d status) next frames x).consume (fun _ => id) closeAt k).2.2 =
        ((next x).consume (fun _ => id) closeAt (k + frames.length)).2.2 := by
  by_cases h : ∃ j, k ≤ j ∧ j < k + frames.length ∧ closeAt j = true
  · exact Or.inl ⟨h, state_consume_yieldAll_of_closed _ _ closeAt frames x h⟩
  · have hopen : ∀ j, k ≤ j → j < k + frames.length → closeAt j = false := by
      intro j h₁ h₂
      exact Bool.eq_false_iff.mpr fun h₃ => h ⟨j, h₁, h₂, h₃⟩
    exact Or.inr ⟨hopen, state_consume_yieldAll_of_open _ _ frames x hopen⟩

/-- The status of a stream whose terminator was read. -/
def readStatus (last : TokenEvent) : RequestStatus := if last.isError then .error else .ok

/-- Either the stream was closed before its terminator was read, and completed as `ok`, or
it read everything and completed with the terminator's status. -/
theorem state_streamEvents (rd : Rendering) {first : TokenEvent} {rest : List Pulled} {x : Session}
    (h : EndsOnce (events first rest)) (k : ℕ) :
    (∃ j, k ≤ j ∧ j < k + framesBefore rd rest first ∧ closeAt j = true) ∧
      (∃ readSoFar, ((streamEvents rd b d none rest first x).consume (fun _ => id)
        closeAt k).2.2 = ((feedAll x readSoFar).complete .ok d).2) ∨
    (∀ j, k ≤ j → j < k + framesBefore rd rest first → closeAt j = false) ∧
      ((streamEvents rd b d none rest first x).consume (fun _ => id) closeAt k).2.2 =
        ((feedAll x rest).complete (readStatus (lastEvent first rest)) d).2 := by
  induction rest generalizing first x k with
  | nil =>
      refine Or.inr ⟨fun j h₁ h₂ => absurd h₂ (Nat.not_lt.mpr h₁), ?_⟩
      unfold streamEvents readStatus lastEvent
      cases herr : first.isError with
      | true => exact state_breakStream closeAt _ x k
      | false =>
          rcases state_frames (d := d) closeAt (rd.chunks first) .ok x
            (closeStream rd b d none .ok) k with ⟨-, hs⟩ | ⟨-, hs⟩
          · exact hs
          · exact hs.trans (state_closeStream closeAt .ok x _)
  | cons p rest ih =>
      obtain ⟨hfirst, hends⟩ := endsOnce_cons_cons.mp h
      change EndsOnce (events p.routed.event rest) at hends
      unfold streamEvents framesBefore
      rw [TokenEvent.isError_of_not_finished hfirst]
      rcases state_frames (d := d) closeAt (rd.chunks first) .ok x
        (fun x => streamEvents rd b d none rest p.routed.event (x.feed p)) k with
        ⟨⟨j, h₁, h₂, h₃⟩, hs⟩ | ⟨hopen, hs⟩
      · exact Or.inl ⟨⟨j, h₁, by omega, h₃⟩, [], hs⟩
      · rcases ih (x := x.feed p) hends (k + (rd.chunks first).length) with
          ⟨⟨j, h₁, h₂, h₃⟩, readSoFar, hcut⟩ | ⟨hrest, hread⟩
        · exact Or.inl ⟨⟨j, by omega, by omega, h₃⟩, p :: readSoFar, hs.trans hcut⟩
        · refine Or.inr ⟨fun j h₁ h₂ => ?_, hs.trans hread⟩
          by_cases hj : j < k + (rd.chunks first).length
          · exact hopen j h₁ hj
          · exact hrest j (by omega) (by omega)

end TurboServe.Gateway
