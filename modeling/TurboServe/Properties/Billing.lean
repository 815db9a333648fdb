import TurboServe.Properties.Framing

/-!
# The accounting of admitted requests

Whether a request that passed its quotas is accounted exactly once, in every ledger and
with the status of how it ended: so it is exactly when it was routed, nothing completes
it again, its terminator was read and is no abort, and a chat stream is not closed at
its role chunk when its only event is an error.
-/

namespace TurboServe.Gateway

open Lib Lib.Gen

/-! ## §1  What is written -/

namespace Session

/-- Each completion counts the request. -/
theorem requests_complete (x : Session) (status : RequestStatus) (d : Draws) :
    (x.complete status d).2.state.metrics.requestsTotal =
      x.state.metrics.requestsTotal ++
        [(⟨x.accumulator.tenantId, x.accumulator.model, x.accumulator.backend,
          x.accumulator.lane⟩, status)] := by
  unfold complete
  cases x.finished <;> rfl

/-- The labels of an accumulator stay. -/
def labels (x : Session) : RequestLabels :=
  ⟨x.accumulator.tenantId, x.accumulator.model, x.accumulator.backend, x.accumulator.lane⟩

theorem labels_complete (x : Session) (status : RequestStatus) (d : Draws) :
    (x.complete status d).2.labels = x.labels := by
  unfold complete
  cases x.finished <;> rfl

end Session

theorem labels_onEvent (a : UsageAccumulator) (e : TokenEvent) (stamp : ℚ) :
    (a.onEvent e stamp).tenantId = a.tenantId ∧ (a.onEvent e stamp).model = a.model ∧
      (a.onEvent e stamp).backend = a.backend ∧ (a.onEvent e stamp).lane = a.lane := by
  unfold UsageAccumulator.onEvent
  simp only
  split
  · split <;> exact ⟨rfl, rfl, rfl, rfl⟩
  · exact ⟨rfl, rfl, rfl, rfl⟩

theorem labels_feedAll (x : Session) (rest : List Pulled) :
    (feedAll x rest).labels = x.labels := by
  induction rest generalizing x with
  | nil => rfl
  | cons p rest ih =>
      obtain ⟨h₁, h₂, h₃, h₄⟩ :=
        labels_onEvent x.accumulator p.routed.event p.stamp
      refine (ih (x.feed p)).trans ?_
      simp only [Session.labels, Session.feed, h₁, h₂, h₃, h₄]

/-- Further completions count the request again, each once. -/
theorem requests_further (further : List RequestStatus) (d : Draws) (x : Session) :
    (further.foldl (fun x status => (x.complete status d).2) x).state.metrics.requestsTotal =
      x.state.metrics.requestsTotal ++ further.map fun status => (x.labels, status) := by
  induction further generalizing x with
  | nil => exact (List.append_nil _).symm
  | cons status further ih =>
      rw [List.foldl_cons, ih, x.requests_complete, x.labels_complete, List.map_cons,
        List.append_assoc]
      rfl

/-! ## §2  Exactly once -/

/-- The frames before the terminator of a stream is read. -/
def Endpoint.framesBefore (ep : Endpoint) (b : Body) (d : Draws) (first : TokenEvent)
    (rest : List Pulled) : ℕ :=
  (ep.rendering b d).preamble.length +
    Gateway.framesBefore (ep.rendering b d) rest first

/-- The terminating event is read before the client closes the stream, if it does. -/
def Mode.Reads (ep : Endpoint) (b : Body) (d : Draws) (first : TokenEvent)
    (rest : List Pulled) : Mode → Prop
  | buffered => True
  | streamed close => rest = [] ∨ ∀ k ∈ close, ep.framesBefore b d first rest ≤ k

instance (ep : Endpoint) (b : Body) (d : Draws) (first : TokenEvent) (rest : List Pulled)
    (mode : Mode) : Decidable (mode.Reads ep b d first rest) :=
  match mode with
  | .buffered => inferInstanceAs (Decidable True)
  | .streamed _ => inferInstanceAs (Decidable (_ ∨ _))

/-- An abort, or an error. -/
def Spoiled (last : TokenEvent) : Prop :=
  last.isError = true ∨ last.finishReason = some .abort

instance (last : TokenEvent) : Decidable (Spoiled last) :=
  inferInstanceAs (Decidable (_ ∨ _))

/-- How a request ended: a terminator that was read decides; without one the request
failed if it was never routed, and was given up by its client otherwise. -/
def truth (ep : Endpoint) (mode : Mode) (b : Body) (d : Draws) (r : Routing) :
    RequestStatus :=
  match r.events with
  | [] => .error
  | p :: rest =>
      if mode.Reads ep b d p.routed.event rest then
        if Spoiled (lastEvent p.routed.event rest) then .error else .ok
      else .cancelled

/-- The tokens of a request whose terminator was read. -/
def tokensOf (o : Opening) (r : Routing) : ℕ :=
  match r.events with
  | [] => 0
  | p :: _ => (fed (o.accumulator p.routed) r.events).completionTokens

/-- From `s` to `s'` a request is accounted once: in `requests_total`, in the tenant's
totals if it was routed, in its token bucket, and no longer among those in flight. -/
structure AccountedOnce (ep : Endpoint) (mode : Mode) (b : Body) (d : Draws) (o : Opening)
    (r : Routing) (s s' : GatewayState) : Prop where
  published : ∃ record : UsageRecord, record.tenantId = o.req.tenantId ∧
    record.model = o.req.model ∧ record.status = truth ep mode b d r ∧
    (truth ep mode b d r ≠ .cancelled → record.completionTokens = tokensOf o r) ∧
    s'.metrics.requestsTotal = s.metrics.requestsTotal ++
      [(⟨record.tenantId, record.model, record.backend, record.lane⟩, record.status)] ∧
    (r.events ≠ [] → s'.totals = Function.update s.totals o.req.tenantId
      (some ((s.totalsFor o.req.tenantId).add record))) ∧
    s'.limiters = Function.update s.limiters o.req.tenantId
      ((s.limiters o.req.tenantId).chargeTokens record.completionTokens d.chargeAt)
  unrouted : r.events = [] → s'.totals = s.totals
  gauge : s'.metrics.inflightRequests = s.metrics.inflightRequests

/-- The requests the gateway accounts right. -/
structure Regular (ep : Endpoint) (mode : Mode) (further : List RequestStatus) (b : Body)
    (d : Draws) (r : Routing) : Prop where
  once : further = []
  routed : ∃ p rest, r.events = p :: rest ∧ mode.Reads ep b d p.routed.event rest ∧
    ((lastEvent p.routed.event rest).isError = true ∨
      (lastEvent p.routed.event rest).finishReason ≠ some .abort) ∧
    ¬ (ep = .chat ∧ mode = .streamed (some 0) ∧
      (lastEvent p.routed.event rest).isError = true)

/-! ## §3  How an answer completes -/

theorem framesBefore_nil (rd : Rendering) (first : TokenEvent) :
    framesBefore rd [] first = 0 := rfl

/-- A frame before any event is the role chunk. -/
theorem preamble_length_le (ep : Endpoint) (b : Body) (d : Draws) :
    (ep.rendering b d).preamble.length = if ep = .chat then 1 else 0 := by
  cases ep <;> rfl

/-- Every answer completes its session once; a stream that reads its terminator does so
with the terminator's status, but for a chat closed at its role chunk. -/
theorem answered_eq (ep : Endpoint) (mode : Mode) (b : Body) (d : Draws)
    (first : TokenEvent) (rest : List Pulled) (x : Session)
    (h : EndsOnce (events first rest)) :
    ∃ readSoFar status, mode.answered ep b d none first rest x =
        ((feedAll x readSoFar).complete status d).2 ∧
      (mode.Reads ep b d first rest → readSoFar = rest ∧
        status = if ep = .chat ∧ mode = .streamed (some 0) then .ok
          else readStatus (lastEvent first rest)) ∧
      (¬ mode.Reads ep b d first rest → status = .ok) := by
  cases mode with
  | buffered =>
      refine ⟨rest, readStatus (lastEvent first rest), ?_, fun _ => ⟨rfl, ?_⟩,
        fun hr => absurd trivial hr⟩
      · rw [Mode.answered, drain_eq]
        rfl
      · rw [if_neg (fun hc => nomatch hc.2)]
  | streamed close =>
      have hstream : ep.stream b d none first rest x =
          sse (ep.rendering b d) b d none first rest x := by
        cases ep <;> rfl
      rw [Mode.answered, hstream]
      have hlen := preamble_length_le ep b d
      rcases state_frames (d := d) (fun k => decide (close = some k))
        (ep.rendering b d).preamble .ok x
        (streamEvents (ep.rendering b d) b d none rest first) 0 with
        ⟨⟨j, -, hj, hclose⟩, hs⟩ | ⟨hopen, hs⟩
      · -- closed at the role chunk
        rw [decide_eq_true_eq] at hclose
        rw [hlen] at hj
        have hchat : ep = .chat := by
          by_contra hne
          rw [if_neg hne] at hj
          omega
        rw [if_pos hchat] at hj
        obtain rfl : j = 0 := by omega
        refine ⟨[], .ok, hs, fun hr => ⟨?_, ?_⟩, fun _ => rfl⟩
        · rcases hr with hr | hr
          · exact hr.symm
          · have := hr 0 hclose
            rw [Endpoint.framesBefore, hlen, if_pos hchat] at this
            omega
        · rw [if_pos ⟨hchat, by rw [hclose]⟩]
      · have hnot : ¬ (ep = .chat ∧ Mode.streamed close = .streamed (some 0)) := by
          rintro ⟨hchat, hmode⟩
          obtain rfl := Mode.streamed.inj hmode
          have := hopen 0 (Nat.le_refl 0) (by rw [hlen, if_pos hchat]; decide)
          simp at this
        rcases state_streamEvents (b := b) (d := d) (fun k => decide (close = some k))
          (ep.rendering b d) (x := x) h
          (0 + (ep.rendering b d).preamble.length) with
          ⟨⟨j, h₁, h₂, hclose⟩, readSoFar, hcut⟩ | ⟨hlater, hread⟩
        · rw [decide_eq_true_eq] at hclose
          refine ⟨readSoFar, .ok, hs.trans hcut, fun hr => ?_, fun _ => rfl⟩
          rcases hr with rfl | hr
          · rw [framesBefore_nil] at h₂
            omega
          · have := hr j hclose
            rw [Endpoint.framesBefore] at this
            omega
        · refine ⟨rest, readStatus (lastEvent first rest), hs.trans hread,
            fun _ => ⟨rfl, (if_neg hnot).symm⟩, fun hr => absurd (Or.inr ?_) hr⟩
          intro k hk
          by_contra hlt
          rw [Endpoint.framesBefore, Nat.not_le] at hlt
          by_cases hpre : k < 0 + (ep.rendering b d).preamble.length
          · have := hopen k (Nat.zero_le k) hpre
            rw [decide_eq_false_iff_not] at this
            exact this hk
          · have := hlater k (by omega) (by omega)
            rw [decide_eq_false_iff_not] at this
            exact this hk

/-! ## §4  When it is accounted right -/

/-- The session a routed request opens. -/
theorem openSession_cons {s : GatewayState} {o : Opening} {r : Routing} {p : Pulled}
    {rest : List Pulled} (h : r.events = p :: rest) :
    openSession s o r = .ok (({ state := s.incInflight o.req.tenantId o.req.model
                                req := o.req, accumulator := o.accumulator p.routed :
        Session }).feed p, p.routed.event, rest) := by
  unfold openSession
  rw [h]

/-- What the first completion of a session publishes. -/
theorem complete_open (s : GatewayState) (o : Opening) {a : UsageAccumulator}
    (htenant : a.tenantId = o.req.tenantId) (hmodel : a.model = o.req.model)
    (status : RequestStatus) (d : Draws) :
    let y : Session :=
      { state := s.incInflight o.req.tenantId o.req.model, req := o.req, accumulator := a }
    ∃ record : UsageRecord, record.tenantId = o.req.tenantId ∧
      record.model = o.req.model ∧ record.status = status ∧
      record.completionTokens = a.completionTokens ∧
      (y.complete status d).2.state.metrics.requestsTotal = s.metrics.requestsTotal ++
        [(⟨record.tenantId, record.model, record.backend, record.lane⟩, record.status)] ∧
      (y.complete status d).2.state.totals = Function.update s.totals o.req.tenantId
        (some ((s.totalsFor o.req.tenantId).add record)) ∧
      (y.complete status d).2.state.limiters = Function.update s.limiters o.req.tenantId
        ((s.limiters o.req.tenantId).chargeTokens record.completionTokens d.chargeAt) ∧
      (y.complete status d).2.state.metrics.inflightRequests =
        s.metrics.inflightRequests := by
  intro y
  refine ⟨(y.complete status d).1, htenant, hmodel, rfl, rfl, rfl, ?_, rfl, ?_⟩
  · change Function.update s.totals a.tenantId (some ((s.totalsFor a.tenantId).add _)) = _
    rw [htenant]
    rfl
  · funext tenant model
    simp only [y, Session.complete, Bool.false_eq_true, if_false, GatewayState.decInflight,
      GatewayState.record, GatewayState.chargeTokens, GatewayState.incInflight,
      GatewayMetrics.decInflight, GatewayMetrics.incInflight, GatewayMetrics.recordRequest,
      GatewayMetrics.addInflight, UsageAccumulator.finish, htenant, hmodel]
    by_cases ht : tenant = o.req.tenantId
    · subst ht
      by_cases hm : model = o.req.model
      · subst hm
        simp only [Function.update_self]
        omega
      · simp only [Function.update_self, Function.update_of_ne hm]
    · simp only [Function.update_of_ne ht]

theorem truth_cons {ep : Endpoint} {mode : Mode} {b : Body} {d : Draws} {r : Routing}
    {p : Pulled} {rest : List Pulled} (h : r.events = p :: rest) :
    truth ep mode b d r =
      if mode.Reads ep b d p.routed.event rest then
        if Spoiled (lastEvent p.routed.event rest) then .error else .ok
      else .cancelled := by
  unfold truth
  rw [h]

theorem regular_of_accounted {ep : Endpoint} {mode : Mode} {further : List RequestStatus}
    {b : Body} {d : Draws} {s : GatewayState} {o : Opening} {r : Routing}
    (hdom : r.events = [] ∨ EndsOnce (r.events.map (·.routed.event)) ∧ r.fault = none)
    (h : AccountedOnce ep mode b d o r s (ep.serve mode further b d s o r)) :
    Regular ep mode further b d r := by
  obtain ⟨record, -, -, hstatus, -, hrequests, -, -⟩ := h.published
  cases hevents : r.events with
  | nil =>
      -- a request that is not routed is not counted
      have hserve : ep.serve mode further b d s o r = s := by
        unfold Endpoint.serve openSession
        rw [hevents]
        cases r.fault <;> rfl
      rw [hserve] at hrequests
      have := congrArg List.length hrequests
      rw [List.length_append, List.length_singleton] at this
      omega
  | cons p rest =>
      obtain ⟨hends, hfault⟩ := hdom.resolve_left (by rw [hevents]; nofun)
      rw [hevents] at hends
      unfold Endpoint.serve at hrequests
      rw [openSession_cons hevents, hfault] at hrequests
      obtain ⟨readSoFar, status, hanswered, hreads, hcut⟩ :=
        answered_eq ep mode b d p.routed.event rest
          (Session.feed { state := s.incInflight o.req.tenantId o.req.model
                          req := o.req, accumulator := o.accumulator p.routed } p) hends
      simp only [hanswered] at hrequests
      rw [requests_further, Session.requests_complete, List.append_assoc, feedAll_eq]
        at hrequests
      obtain ⟨hone, hfurther⟩ := List.cons.inj (List.append_cancel_left hrequests)
      have htruth : status = truth ep mode b d r :=
        (Prod.mk.inj hone).2.trans hstatus
      rw [truth_cons hevents] at htruth
      refine ⟨List.map_eq_nil_iff.mp hfurther, p, rest, hevents, ?_⟩
      by_cases hr : mode.Reads ep b d p.routed.event rest
      · obtain ⟨-, hread⟩ := hreads hr
        rw [if_pos hr, hread] at htruth
        by_cases hspoiled : Spoiled (lastEvent p.routed.event rest)
        · rw [if_pos hspoiled] at htruth
          split at htruth
          · cases htruth
          · rename_i hrole
            have herr : (lastEvent p.routed.event rest).isError = true := by
              unfold readStatus at htruth
              split at htruth
              · assumption
              · cases htruth
            exact ⟨hr, Or.inl herr, fun hc => hrole ⟨hc.1, hc.2.1⟩⟩
        · exact ⟨hr, Or.inr fun ha => hspoiled (Or.inr ha), fun hc =>
            hspoiled (Or.inl hc.2.2)⟩
      · rw [if_neg hr, hcut hr] at htruth
        cases htruth

theorem accounted_of_regular {ep : Endpoint} {mode : Mode} {further : List RequestStatus}
    {b : Body} {d : Draws} (s : GatewayState) (o : Opening) {r : Routing}
    (hdom : r.events = [] ∨ EndsOnce (r.events.map (·.routed.event)) ∧ r.fault = none)
    (h : Regular ep mode further b d r) :
    AccountedOnce ep mode b d o r s (ep.serve mode further b d s o r) := by
  obtain ⟨rfl, p, rest, hevents, hr, hlast, hrole⟩ := h
  obtain ⟨hends, hfault⟩ := hdom.resolve_left (by rw [hevents]; nofun)
  rw [hevents] at hends
  obtain ⟨readSoFar, status, hanswered, hreads, -⟩ :=
    answered_eq ep mode b d p.routed.event rest
      (Session.feed { state := s.incInflight o.req.tenantId o.req.model
                      req := o.req, accumulator := o.accumulator p.routed } p) hends
  obtain ⟨rfl, hstatus⟩ := hreads hr
  have htruth : status = truth ep mode b d r := by
    rw [truth_cons hevents, if_pos hr, hstatus]
    by_cases herr : (lastEvent p.routed.event readSoFar).isError = true
    · have hspoiled : Spoiled (lastEvent p.routed.event readSoFar) := Or.inl herr
      rw [if_neg fun hc => hrole ⟨hc.1, hc.2, herr⟩, if_pos hspoiled, readStatus,
        if_pos herr]
    · have hclean : ¬ Spoiled (lastEvent p.routed.event readSoFar) :=
        fun hc => hc.elim herr (hlast.resolve_left herr)
      rw [if_neg hclean, readStatus, if_neg herr]
      split <;> rfl
  have hserve : ep.serve mode [] b d s o r =
      ((Session.complete { state := s.incInflight o.req.tenantId o.req.model
                           req := o.req
                           accumulator := fed (o.accumulator p.routed) (p :: readSoFar) }
        status d).2).state := by
    unfold Endpoint.serve
    rw [openSession_cons hevents, hfault]
    simp only [List.foldl_nil, hanswered, feedAll_eq]
    rfl
  have hlabels := labels_feedAll
    { state := s, req := o.req, accumulator := o.accumulator p.routed } (p :: readSoFar)
  rw [feedAll_eq] at hlabels
  obtain ⟨record, h₁, h₂, h₃, h₄, h₅, h₆, h₇, h₈⟩ := complete_open s o
    (congrArg RequestLabels.tenant hlabels) (congrArg RequestLabels.model hlabels) status d
  rw [hserve]
  refine ⟨⟨record, h₁, h₂, h₃.trans htruth, fun _ => h₄.trans ?_, h₅, fun _ => h₆, h₇⟩,
    fun hnil => ?_, h₈⟩
  · unfold tokensOf
    rw [hevents]
  · rw [hevents] at hnil
    cases hnil

/-- An admitted request is accounted exactly once if and only if it was routed, is not
completed again, its terminator was read and is no abort, and it is no chat closed at its
role chunk with an error for its only event. -/
theorem accounted_once_iff (ep : Endpoint) (mode : Mode) (further : List RequestStatus)
    (b : Body) (d : Draws) (s : GatewayState) (o : Opening) (r : Routing)
    (hdom : r.events = [] ∨ EndsOnce (r.events.map (·.routed.event)) ∧ r.fault = none) :
    AccountedOnce ep mode b d o r s (ep.serve mode further b d s o r) ↔
      Regular ep mode further b d r :=
  ⟨regular_of_accounted hdom, accounted_of_regular s o hdom⟩

theorem accounted_once_iff_hello :
    AccountedOnce .chat .buffered ⟨"m", true⟩ someDraws someOpening
      ⟨[pulled hello 1, pulled world 2], none⟩ freshGateway
      (Endpoint.chat.serve .buffered [] ⟨"m", true⟩ someDraws freshGateway someOpening
        ⟨[pulled hello 1, pulled world 2], none⟩) :=
  (accounted_once_iff .chat .buffered [] ⟨"m", true⟩ someDraws freshGateway someOpening
    ⟨[pulled hello 1, pulled world 2], none⟩
    (Or.inr ⟨⟨[hello], world, rfl, rfl, by decide⟩, rfl⟩)).mpr
    ⟨rfl, _, _, rfl, trivial, Or.inr (by decide), by decide⟩

/-! ## §5  The five ways to break it -/

def aborted : TokenEvent :=
  { requestId := "r", finished := true, finishReason := some .abort }

def failedAtOnce : TokenEvent := .failure "r" "gone" none

/-- A second `complete`; a client that leaves before the terminator; an abort; a request
that no replica took; a chat left at its role chunk when its only event is an error. -/
theorem accounted_once_fails :
    (¬ AccountedOnce .chat .buffered ⟨"m", true⟩ someDraws someOpening
      ⟨[pulled hello 1, pulled world 2], none⟩ freshGateway
      (Endpoint.chat.serve .buffered [.ok] ⟨"m", true⟩ someDraws freshGateway someOpening
        ⟨[pulled hello 1, pulled world 2], none⟩)) ∧
    (¬ AccountedOnce .chat (.streamed (some 1)) ⟨"m", true⟩ someDraws someOpening
      ⟨[pulled hello 1, pulled world 2], none⟩ freshGateway
      (Endpoint.chat.serve (.streamed (some 1)) [] ⟨"m", true⟩ someDraws freshGateway
        someOpening ⟨[pulled hello 1, pulled world 2], none⟩)) ∧
    (¬ AccountedOnce .completions .buffered ⟨"m", true⟩ someDraws someOpening
      ⟨[pulled aborted 1], none⟩ freshGateway
      (Endpoint.completions.serve .buffered [] ⟨"m", true⟩ someDraws freshGateway
        someOpening ⟨[pulled aborted 1], none⟩)) ∧
    (¬ AccountedOnce .completions .buffered ⟨"m", true⟩ someDraws someOpening
      ⟨[], some (.rateLimited "t" (some 1))⟩ freshGateway
      (Endpoint.completions.serve .buffered [] ⟨"m", true⟩ someDraws freshGateway
        someOpening ⟨[], some (.rateLimited "t" (some 1))⟩)) ∧
    ¬ AccountedOnce .chat (.streamed (some 0)) ⟨"m", true⟩ someDraws someOpening
      ⟨[pulled failedAtOnce 1], none⟩ freshGateway
      (Endpoint.chat.serve (.streamed (some 0)) [] ⟨"m", true⟩ someDraws freshGateway
        someOpening ⟨[pulled failedAtOnce 1], none⟩) := by
  have hhello : EndsOnce ([pulled hello 1, pulled world 2].map (·.routed.event)) :=
    ⟨[hello], world, rfl, rfl, by decide⟩
  have haborted : EndsOnce ([pulled aborted 1].map (·.routed.event)) :=
    endsOnce_singleton.mpr rfl
  have hfailed : EndsOnce ([pulled failedAtOnce 1].map (·.routed.event)) :=
    endsOnce_singleton.mpr rfl
  refine ⟨fun h => ?_, fun h => ?_, fun h => ?_, fun h => ?_, fun h => ?_⟩
  · exact absurd (regular_of_accounted (Or.inr ⟨hhello, rfl⟩) h).once (by decide)
  · obtain ⟨p, rest, hevents, hr, -⟩ :=
      (regular_of_accounted (Or.inr ⟨hhello, rfl⟩) h).routed
    obtain ⟨rfl, rfl⟩ := List.cons.inj hevents
    exact absurd hr (by decide)
  · obtain ⟨p, rest, hevents, -, hlast, -⟩ :=
      (regular_of_accounted (Or.inr ⟨haborted, rfl⟩) h).routed
    obtain ⟨rfl, rfl⟩ := List.cons.inj hevents
    exact absurd hlast (by decide)
  · obtain ⟨p, rest, hevents, -⟩ := (regular_of_accounted (Or.inl rfl) h).routed
    cases hevents
  · obtain ⟨p, rest, hevents, -, -, hrole⟩ :=
      (regular_of_accounted (Or.inr ⟨hfailed, rfl⟩) h).routed
    obtain ⟨rfl, rfl⟩ := List.cons.inj hevents
    exact hrole ⟨rfl, rfl, rfl⟩

end TurboServe.Gateway
