import TurboServe.Gateway.Sessions

/-!
# Streamed and buffered answers

Over any stream that ends with its only finished event, a client that reads to the end
gets the frames in the documented order, and what they say is what the buffered answer
to the same stream says.
-/

namespace TurboServe.Gateway

open Lib Lib.Gen

/-! ## §1  What a client reads -/

namespace Payload

/-- The text a frame adds to the answer. -/
def text : Payload → String
  | completion chunk => String.join (chunk.choices.map (·.text))
  | chat chunk => String.join (chunk.choices.map fun c => c.delta.content.getD "")
  | _ => ""

/-- The roles a frame states. -/
def roles : Payload → List String
  | chat chunk => chunk.choices.filterMap (·.delta.role)
  | _ => []

/-- The finish reasons of a frame that are not null. -/
def finishReasons : Payload → List String
  | completion chunk => chunk.choices.filterMap (·.finishReason)
  | chat chunk => chunk.choices.filterMap (·.finishReason)
  | _ => []

def usage : Payload → Option UsageInfo
  | completion chunk => chunk.usage
  | chat chunk => chunk.usage
  | _ => none

/-- The identifier and the time stamp of a chunk. -/
def identity : Payload → Option (String × ℤ)
  | completion chunk => some (chunk.id, chunk.created)
  | chat chunk => some (chunk.id, chunk.created)
  | _ => none

/-- A chunk of text, and of nothing else. -/
structure IsContent (p : Payload) : Prop where
  text : p.text ≠ ""
  roles : p.roles = []
  finishReasons : p.finishReasons = []
  usage : p.usage = none
  identity : p.identity ≠ none

end Payload

namespace Answer

def text : Answer → String
  | completion body => String.join (body.choices.map (·.text))
  | chat body => String.join (body.choices.map (·.message.content))
  | error _ _ => ""

def finishReasons : Answer → List String
  | completion body => body.choices.filterMap (·.finishReason)
  | chat body => body.choices.filterMap (·.finishReason)
  | error _ _ => []

def usage : Answer → Option UsageInfo
  | completion body => body.usage
  | chat body => body.usage
  | error _ _ => none

/-- The status and the message of a failure. -/
def failure : Answer → Option (ℕ × String)
  | error statusCode body => some (statusCode, body.message)
  | _ => none

end Answer

/-- The text of a list of frames, as a client concatenates it. -/
def textOf (frames : List Payload) : String := String.join (frames.map (·.text))

/-- A stream that was read to its end, but for the last frame. -/
structure Frames where
  head : List Payload
  contents : List Payload
  outcome : Payload
  usage : List Payload

def Frames.payloads (f : Frames) : List Payload :=
  f.head ++ f.contents ++ [f.outcome] ++ f.usage ++ [.done]

/-- The frames are framed as documented and say what the buffered answer says; `record`
is what the buffered request was accounted as. -/
structure Agree (ep : Endpoint) (includeUsage : Bool) (record : UsageRecord)
    (answer : Answer) (f : Frames) : Prop where
  head :
    match ep with
    | .completions => f.head = []
    | .chat => ∃ p, f.head = [p] ∧ p.roles = ["assistant"] ∧ p.text = "" ∧
        p.finishReasons = [] ∧ p.usage = none
  contents : ∀ p ∈ f.contents, p.IsContent
  succeeded : answer.failure = none →
    textOf (f.contents ++ [f.outcome]) = answer.text ∧
    (ep = .chat → f.outcome.text = "") ∧
    (∃ reason, f.outcome.finishReasons = [reason] ∧ answer.finishReasons = [reason]) ∧
    f.outcome.usage = none ∧ answer.usage = some (usageInfo record)
  failed : ∀ statusCode message, answer.failure = some (statusCode, message) →
    statusCode = 502 ∧
    f.outcome = .error { message := message, type := "server_error" }
  usage : ∃ p, f.usage = (if includeUsage then [p] else []) ∧
    p.usage = some (usageInfo record) ∧ p.text = "" ∧ p.finishReasons = []
  identity : ∃ stamp, ∀ p ∈ f.payloads, p.identity = some stamp ∨
    (p.identity = none ∧ (p = f.outcome ∧ answer.failure ≠ none ∨ p = .done))
  done : ∀ p ∈ f.head ++ f.contents ++ [f.outcome] ++ f.usage, p ≠ .done

/-! ## §2  The frames of one event -/

/-- What the loop needs of a rendering: an unfinished event is its text, and a terminator
its text and then its reason. -/
structure Renders (ep : Endpoint) (d : Draws) (rd : Rendering) : Prop where
  delta : ∀ e : TokenEvent, e.finished = false →
    (∀ p ∈ rd.chunks e, p.IsContent ∧ p.identity = some (d.id, d.created)) ∧
    textOf (rd.chunks e) = e.text
  terminator : ∀ e : TokenEvent, e.finished = true → ∃ contents outcome,
    rd.chunks e = contents ++ [outcome] ∧
    (∀ p ∈ contents, p.IsContent ∧ p.identity = some (d.id, d.created)) ∧
    textOf (contents ++ [outcome]) = e.text ∧
    (ep = .chat → outcome.text = "") ∧
    outcome.finishReasons = (openaiFinishReason e.finishReason).toList ∧
    outcome.usage = none ∧ outcome.identity = some (d.id, d.created)

theorem textOf_append (fs gs : List Payload) :
    textOf (fs ++ gs) = textOf fs ++ textOf gs := by
  unfold textOf
  rw [List.map_append, String.join_append]

theorem textOf_singleton (p : Payload) : textOf [p] = p.text := by
  simp only [textOf, List.map_cons, List.map_nil, String.join_cons, String.join_nil,
    String.append_empty]

theorem renders_completion (b : Body) (d : Draws) :
    Renders .completions d (completionRendering b d) := by
  refine ⟨fun e he => ?_, fun e he => ?_⟩
  · unfold completionRendering
    by_cases ht : e.text = ""
    · simp [he, ht, textOf]
    · simp only [ht, he, ne_eq, not_false_eq_true, true_or, if_true]
      refine ⟨fun p hp => ?_, ?_⟩
      · rw [List.mem_singleton.mp hp]
        exact ⟨⟨by simpa [Payload.text] using ht, rfl, rfl, rfl, nofun⟩, rfl⟩
      · rw [textOf_singleton]
        simp [Payload.text]
  · refine ⟨[], .completion
      { id := d.id, created := d.created, model := b.model
        choices := [⟨e.text, openaiFinishReason e.finishReason⟩] }, ?_, nofun, ?_, nofun, ?_,
      rfl, rfl⟩
    · simp [completionRendering, he]
    · rw [List.nil_append, textOf_singleton]
      simp [Payload.text]
    · cases hr : openaiFinishReason e.finishReason <;> simp [Payload.finishReasons]

theorem renders_chat (b : Body) (d : Draws) : Renders .chat d (chatRendering b d) := by
  have hcontent : ∀ e : TokenEvent,
      (∀ p ∈ (if e.text ≠ "" then [chatChunk b d { content := some e.text } none] else []),
        p.IsContent ∧ p.identity = some (d.id, d.created)) ∧
      textOf (if e.text ≠ "" then [chatChunk b d { content := some e.text } none] else []) =
        e.text := by
    intro e
    by_cases ht : e.text = ""
    · simp [ht, textOf]
    · rw [if_pos ht]
      refine ⟨fun p hp => ?_, ?_⟩
      · rw [List.mem_singleton.mp hp]
        exact ⟨⟨by simpa [chatChunk, Payload.text] using ht, rfl, rfl, rfl, nofun⟩, rfl⟩
      · rw [textOf_singleton]
        simp [chatChunk, Payload.text]
  refine ⟨fun e he => ?_, fun e he => ?_⟩
  · have h := hcontent e
    simp only [chatRendering, he, Bool.false_eq_true, if_false, List.append_nil]
    exact h
  · obtain ⟨h₁, h₂⟩ := hcontent e
    refine ⟨_, chatChunk b d {} (openaiFinishReason e.finishReason), ?_, h₁, ?_,
      fun _ => rfl, ?_, rfl, rfl⟩
    · simp only [chatRendering, he, if_true]
    · rw [textOf_append, h₂, textOf_singleton]
      simp [chatChunk, Payload.text]
    · cases hr : openaiFinishReason e.finishReason <;>
        simp [chatChunk, Payload.finishReasons]

theorem renders (ep : Endpoint) (b : Body) (d : Draws) :
    Renders ep d (ep.rendering b d) := by
  cases ep with
  | completions => exact renders_completion b d
  | chat => exact renders_chat b d

/-! ## §3  The frames of a stream -/

/-- Induction on the events: the frames before the last one are content, and the last
one is the error or has the reason. -/
theorem exists_eventFrames {ep : Endpoint} {d : Draws} {rd : Rendering}
    (hrd : Renders ep d rd) {first : TokenEvent} {rest : List Pulled}
    (h : EndsOnce (events first rest)) :
    ∃ contents outcome, eventFrames rd rest first = contents ++ [outcome] ∧
      (∀ p ∈ contents, p.IsContent ∧ p.identity = some (d.id, d.created)) ∧
      ((lastEvent first rest).isError = true →
        outcome = .error { message := failureMessage (lastEvent first rest)
                           type := "server_error" }) ∧
      ((lastEvent first rest).isError = false →
        textOf (contents ++ [outcome]) = String.join ((events first rest).map (·.text)) ∧
        (ep = .chat → outcome.text = "") ∧
        outcome.finishReasons =
          (openaiFinishReason (lastEvent first rest).finishReason).toList ∧
        outcome.usage = none ∧ outcome.identity = some (d.id, d.created)) := by
  induction rest generalizing first with
  | nil =>
      have hfirst := endsOnce_singleton.mp h
      unfold eventFrames lastEvent
      cases herr : first.isError with
      | true =>
          exact ⟨[], _, rfl, fun p hp => (by cases hp), fun _ => rfl,
            fun hfalse => (by cases hfalse)⟩
      | false =>
          obtain ⟨contents, outcome, hchunks, hcontents, htext, hrest⟩ :=
            hrd.terminator first hfirst
          refine ⟨contents, outcome, hchunks, hcontents, fun htrue => (by cases htrue),
            fun _ => ⟨?_, hrest⟩⟩
          rw [htext]
          simp [events]
  | cons p rest ih =>
      obtain ⟨hfirst, hends⟩ := endsOnce_cons_cons.mp h
      obtain ⟨hdelta, htext⟩ := hrd.delta first hfirst
      obtain ⟨contents, outcome, hframes, hcontents, herror, hok⟩ := ih hends
      refine ⟨rd.chunks first ++ contents, outcome, ?_, ?_, herror, fun hlast => ?_⟩
      · rw [eventFrames, hframes, List.append_assoc]
      · intro q hq
        rcases List.mem_append.mp hq with hq | hq
        · exact hdelta q hq
        · exact hcontents q hq
      · obtain ⟨hjoin, hrest⟩ := hok hlast
        refine ⟨?_, hrest⟩
        rw [List.append_assoc, textOf_append, htext, hjoin]
        simp only [events, List.map_cons, String.join_cons]

/-! ## §4  The buffered answer -/

/-- A stream that failed is answered with its message. -/
theorem answer_failed (ep : Endpoint) (b : Body) (d : Draws) (text : String)
    {last : TokenEvent} (record : UsageRecord) (h : last.isError = true) :
    (ep.answer b d text last record).failure = some (502, failureMessage last) := by
  cases ep <;> simp [Endpoint.answer, completionAnswer, chatAnswer, badGateway, h,
    Answer.failure]

theorem answer_succeeded (ep : Endpoint) (b : Body) (d : Draws) (text : String)
    {last : TokenEvent} (record : UsageRecord) (h : last.isError = false) :
    (ep.answer b d text last record).failure = none ∧
      (ep.answer b d text last record).text = text ∧
      (ep.answer b d text last record).finishReasons =
        (openaiFinishReason last.finishReason).toList ∧
      (ep.answer b d text last record).usage = some (usageInfo record) := by
  cases hr : openaiFinishReason last.finishReason <;>
    cases ep <;> simp [Endpoint.answer, completionAnswer, chatAnswer, h, hr,
      Answer.failure, Answer.text, Answer.finishReasons, Answer.usage]

/-- A finish reason is never lost. -/
theorem openaiFinishReason_ne_none {reason : Option Core.FinishReason}
    (h : reason ≠ none) : ∃ name, (openaiFinishReason reason).toList = [name] := by
  cases reason with
  | none => exact absurd rfl h
  | some reason => cases reason <;> exact ⟨_, rfl⟩

/-! ## §5  Agreement -/

/-- The chunk with the usage. -/
theorem usageChunk_spec (ep : Endpoint) (b : Body) (d : Draws) (usage : UsageInfo) :
    ((ep.rendering b d).usageChunk usage).usage = some usage ∧
      ((ep.rendering b d).usageChunk usage).text = "" ∧
      ((ep.rendering b d).usageChunk usage).finishReasons = [] ∧
      ((ep.rendering b d).usageChunk usage).identity = some (d.id, d.created) := by
  cases ep <;> exact ⟨rfl, rfl, rfl, rfl⟩

theorem identity_preamble (ep : Endpoint) (b : Body) (d : Draws) :
    ∀ p ∈ (ep.rendering b d).preamble, p.identity = some (d.id, d.created) := by
  cases ep with
  | completions => exact nofun
  | chat =>
      intro p hp
      rw [List.mem_singleton.mp hp]
      rfl

/-- The frames of a session and what the buffered answer would be. -/
theorem agree_of_session (ep : Endpoint) (b : Body) (d d' : Draws) {first : TokenEvent}
    {rest : List Pulled} {usage : UsageInfo} {record : UsageRecord}
    (h : EndsOnce (events first rest))
    (hreason : (lastEvent first rest).isError = true ∨
      (lastEvent first rest).finishReason ≠ none)
    (hrecord : usageInfo record = usage) :
    ∃ f : Frames, f.payloads = (ep.rendering b d).preamble ++
        (eventFrames (ep.rendering b d) rest first ++
          closingFrames (ep.rendering b d) b usage) ∧
      Agree ep b.includeUsage record
        (ep.answer b d' (String.join ((events first rest).map (·.text)))
          (lastEvent first rest) record) f := by
  obtain ⟨contents, outcome, hframes, hcontents, herror, hok⟩ :=
    exists_eventFrames (renders ep b d) h
  obtain ⟨hinfo, hutext, hureason, huid⟩ := usageChunk_spec ep b d usage
  have hpre := identity_preamble ep b d
  have husages : ∀ p ∈ (if b.includeUsage then [(ep.rendering b d).usageChunk usage]
      else []), p.identity = some (d.id, d.created) := by
    intro p hp
    split at hp
    · rw [List.mem_singleton.mp hp]
      exact huid
    · cases hp
  -- the outcome is a chunk, or the error frame of a failed answer
  have houtcome : outcome.identity = some (d.id, d.created) ∨
      (outcome.identity = none ∧ outcome ≠ .done ∧
        (ep.answer b d' (String.join ((events first rest).map (·.text)))
          (lastEvent first rest) record).failure ≠ none) := by
    cases herr : (lastEvent first rest).isError with
    | true =>
        refine Or.inr ?_
        rw [herror herr, answer_failed ep b d' _ record herr]
        exact ⟨rfl, nofun, nofun⟩
    | false => exact Or.inl (hok herr).2.2.2.2
  have hdone : ∀ p : Payload, p.identity = some (d.id, d.created) → p ≠ .done := by
    rintro p hp rfl
    cases hp
  refine ⟨⟨(ep.rendering b d).preamble, contents, outcome,
    if b.includeUsage then [(ep.rendering b d).usageChunk usage] else []⟩, ?_, ?_⟩
  · simp only [Frames.payloads, hframes, closingFrames, List.append_assoc]
  · refine ⟨?_, fun p hp => (hcontents p hp).1, fun hnone => ?_, fun statusCode message hm => ?_,
      ⟨_, rfl, hinfo.trans (congrArg some hrecord.symm), hutext, hureason⟩,
      ⟨(d.id, d.created), fun p hp => ?_⟩, fun p hp => ?_⟩
    · cases ep with
      | completions => rfl
      | chat => exact ⟨_, rfl, rfl, rfl, rfl, rfl⟩
    · cases herr : (lastEvent first rest).isError with
      | true =>
          rw [answer_failed ep b d' _ record herr] at hnone
          cases hnone
      | false =>
          obtain ⟨htext, hchat, hreasons, houtusage, -⟩ := hok herr
          obtain ⟨-, hatext, hareasons, hausage⟩ := answer_succeeded ep b d'
            (String.join ((events first rest).map (·.text))) record herr
          obtain ⟨name, hname⟩ := openaiFinishReason_ne_none
            (hreason.resolve_left (by rw [herr]; decide))
          exact ⟨htext.trans hatext.symm, hchat,
            ⟨name, hreasons.trans hname, hareasons.trans hname⟩, houtusage, hausage⟩
    · cases herr : (lastEvent first rest).isError with
      | true =>
          rw [answer_failed ep b d' _ record herr] at hm
          obtain ⟨rfl, rfl⟩ := Prod.mk.inj (Option.some_inj.mp hm)
          exact ⟨rfl, herror herr⟩
      | false =>
          rw [(answer_succeeded ep b d' _ record herr).1] at hm
          cases hm
    · simp only [Frames.payloads, List.mem_append, List.mem_singleton] at hp
      rcases hp with (((hp | hp) | rfl) | hp) | rfl
      · exact Or.inl (hpre p hp)
      · exact Or.inl (hcontents p hp).2
      · exact houtcome.imp_right fun ho => ⟨ho.1, Or.inl ⟨rfl, ho.2.2⟩⟩
      · exact Or.inl (husages p hp)
      · exact Or.inr ⟨rfl, Or.inr rfl⟩
    · simp only [List.mem_append, List.mem_singleton] at hp
      rcases hp with ((hp | hp) | rfl) | hp
      · exact hdone p (hpre p hp)
      · exact hdone p (hcontents p hp).2
      · exact houtcome.elim (hdone p) fun ho => ho.2.1
      · exact hdone p (husages p hp)

/-- Read to the end, a streamed answer has the documented frames and says what the
buffered answer to the same stream says, whatever other requests do in between. -/
theorem streamed_agrees_buffered (ep : Endpoint) (b : Body) (d d' : Draws)
    (s : GatewayState) (o : Opening) (r : Routing)
    (others : ℕ → GatewayState → GatewayState)
    (hends : EndsOnce (r.events.map (·.routed.event)))
    (hreason : ∀ p ∈ r.events, p.routed.event.finished = true →
      p.routed.event.isError = true ∨ p.routed.event.finishReason ≠ none)
    (hfault : r.fault = none) :
    ∃ x first rest text last record, ∃ f : Frames,
      openSession s o r = .ok (x, first, rest) ∧
      (drain d' r.fault first rest x).1 = .ok (text, last, record) ∧
      ((ep.stream b d r.fault first rest x).consume
        (fun k x => { x with state := others k x.state }) (fun _ => false) 0).1 =
          f.payloads ∧
      ((ep.stream b d r.fault first rest x).consume
        (fun k x => { x with state := others k x.state }) (fun _ => false) 0).2.1 =
          .returned ∧
      Agree ep b.includeUsage record (ep.answer b d' text last record) f := by
  cases hevents : r.events with
  | nil =>
      obtain ⟨init, last, heq, -⟩ := hends
      rw [hevents] at heq
      simp at heq
  | cons p rest =>
      rw [hevents] at hends hreason
      have hopen : ∃ x, openSession s o r = .ok (x, p.routed.event, rest) := by
        unfold openSession
        rw [hevents]
        exact ⟨_, rfl⟩
      obtain ⟨x, hopen⟩ := hopen
      have hlast : (lastEvent p.routed.event rest).isError = true ∨
          (lastEvent p.routed.event rest).finishReason ≠ none := by
        have hmem := lastEvent_mem p.routed.event rest
        obtain ⟨p', hp', heq⟩ := List.mem_map.mp (show lastEvent p.routed.event rest ∈
          (p :: rest).map (·.routed.event) from hmem)
        rw [← heq]
        exact hreason p' hp' (by rw [heq]; exact finished_lastEvent hends)
      have hdrain := drain_eq (d := d') p.routed.event rest x
      have hrecord : usageInfo ((feedAll x rest).complete
          (if (lastEvent p.routed.event rest).isError then .error else .ok) d').1 =
            (fed x.accumulator rest).info := by
        rw [usageInfo_complete, feedAll_eq]
      obtain ⟨f, hf, hagree⟩ := agree_of_session ep b d d' hends hlast hrecord
      have hemits : (ep.stream b d none p.routed.event rest x).EmitsWhile Apart f.payloads
          .returned := by
        rw [hf]
        cases ep with
        | completions => exact emits_sse hends
        | chat => exact emits_sse hends
      obtain ⟨hout, hexit⟩ := hemits.consume
        (fun k x => { x with state := others k x.state })
        (fun k x => ⟨others k x.state, rfl⟩) 0
      rw [hfault]
      exact ⟨x, p.routed.event, rest, _, _, _, f, hopen, congrArg Prod.fst hdrain, hout,
        hexit, hagree⟩

/-- A tenant without quotas. -/
def freeLimiter (tenant : String) : TenantLimiter where
  tenantId := tenant
  maxConcurrency := none
  tpm := none
  inFlight := 0
  rejected := 0
  tokensCharged := 0
  inFlight_le := nofun

/-- A gateway that has served nothing yet. -/
def freshGateway : GatewayState where
  limiters := freeLimiter
  metrics := ⟨[], [], [], [], [], [], [], fun _ _ => 0⟩
  prices := fun _ => none
  totals := fun _ => none

def someDraws : Draws := ⟨"x", 0, 3, 3⟩

def someOpening : Opening := ⟨⟨"r", "t", "m"⟩, 1, false, 0⟩

def pulled (e : TokenEvent) (stamp : ℚ) : Pulled := ⟨⟨e, "a", .stable, 1⟩, stamp⟩

def hello : TokenEvent := { requestId := "r", tokenIds := [5], text := "he" }

/-- A terminator that carries the last text. -/
def world : TokenEvent :=
  { requestId := "r", tokenIds := [6], text := "llo", finished := true
    finishReason := some .stop }

theorem streamed_agrees_buffered_hello :
    EndsOnce ([pulled hello 1, pulled world 2].map (·.routed.event)) ∧
    ∃ f : Frames, ∃ record,
      Agree .chat true record (chatAnswer ⟨"m", true⟩ someDraws "hello" world record) f := by
  have hends : EndsOnce ([pulled hello 1, pulled world 2].map (·.routed.event)) :=
    ⟨[hello], world, rfl, rfl, by decide⟩
  obtain ⟨x, first, rest, text, last, record, f, hopen, hdrain, -, -, hagree⟩ :=
    streamed_agrees_buffered .chat ⟨"m", true⟩ someDraws someDraws freshGateway someOpening
      ⟨[pulled hello 1, pulled world 2], none⟩ (fun _ => id) hends
      (by
        intro p hp hfin
        simp only [List.mem_cons, List.not_mem_nil, or_false] at hp
        rcases hp with rfl | rfl
        · cases hfin
        · exact Or.inr nofun)
      rfl
  obtain ⟨rfl, rfl, rfl⟩ : _ ∧ _ ∧ _ := by
    simpa only [openSession, Except.ok.injEq, Prod.mk.injEq] using hopen
  rw [drain_eq] at hdrain
  obtain ⟨rfl, rfl, -⟩ : _ ∧ _ ∧ _ := by
    simpa only [Except.ok.injEq, Prod.mk.injEq] using hdrain
  exact ⟨hends, f, record, hagree⟩

end TurboServe.Gateway
