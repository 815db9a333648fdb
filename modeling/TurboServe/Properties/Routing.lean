import TurboServe.Lib.Transition
import TurboServe.Gateway.Routing
import TurboServe.Gateway.Sessions

/-!
# The streaming contract of the router

One replica, no repeated replica, retries only before the first event, a balanced
concurrency slot: these hold for every behaviour of the replicas. That a stream that
yielded ends in its only terminator, and that one that did not raises, holds exactly
when the replica the router settles on ends its stream as the backend protocol asks.
-/

namespace TurboServe.Gateway

open Lib Lib.Gen Request

/-! ## §1  Well-ended streams -/

/-- A replica's stream ends once: normally after its only finished event, or by an
exception with no finished event before it. -/
def Behaviour.WellEnded (b : Behaviour) : Prop :=
  match b.ending with
  | .normal => EndsOnce b.events
  | _ => ∀ e ∈ b.events, e.finished = false

/-- Nothing yielded and an exception, or a stream that returns after its only finished
event. -/
structure Terminated (outs : List RoutedEvent) (exit : Exit RouteFault) : Prop where
  raises : outs = [] → ∃ fault, exit = .raised fault
  returns : outs ≠ [] → exit = .returned ∧ EndsOnce (outs.map (·.event))

theorem endsOnce_append_failure {events : List TokenEvent} {last : TokenEvent}
    (hlast : last.finished = true) :
    EndsOnce (events ++ [last]) ↔ ∀ e ∈ events, e.finished = false := by
  constructor
  · rintro ⟨init, last', heq, -, hinit⟩
    obtain ⟨rfl, -⟩ := List.append_inj' heq rfl
    exact hinit
  · exact fun h => ⟨events, last, rfl, hlast, h⟩

theorem map_event_routed (events : List TokenEvent) (attempt : ℕ) (e : BackendEntry) :
    (events.map (routed e attempt)).map (·.event) = events := by
  simp [Function.comp_def, routed]

/-- What the client gets of the replica that serves is terminated exactly when the
replica ends its stream well. -/
theorem terminated_iff (q : Request) (attempt : ℕ) (e : BackendEntry) :
    Terminated (q.delivered attempt e) (q.exitOf e) ↔ (q.behave e.name).WellEnded := by
  unfold delivered exitOf closing Behaviour.WellEnded
  cases hev : (q.behave e.name).events with
  | nil =>
      cases hen : (q.behave e.name).ending with
      | normal =>
          constructor
          · exact fun h => (nomatch (h.raises rfl).choose_spec)
          · rintro ⟨init, last, heq, -⟩
            simp at heq
      | backendError exc =>
          exact iff_of_true ⟨fun _ => ⟨_, rfl⟩, fun h => absurd rfl h⟩ nofun
      | exception text =>
          exact iff_of_true ⟨fun _ => ⟨_, rfl⟩, fun h => absurd rfl h⟩ nofun
  | cons event rest =>
      have hfail : ∀ exc, (q.failureEvent e attempt exc).event.finished = true :=
        fun _ => rfl
      have hmap := map_event_routed (event :: rest) attempt e
      cases hen : (q.behave e.name).ending with
      | normal =>
          simp only [List.append_nil]
          constructor
          · intro h
            have := (h.returns (by simp)).2
            rwa [hmap] at this
          · exact fun h => ⟨fun hn => by simp at hn, fun _ => ⟨rfl, by rwa [hmap]⟩⟩
      | backendError exc =>
          rw [← endsOnce_append_failure (hfail exc)]
          constructor
          · intro h
            have := (h.returns (by simp)).2
            rwa [List.map_append, hmap] at this
          · exact fun h => ⟨fun hn => by simp at hn,
              fun _ => ⟨rfl, by rwa [List.map_append, hmap]⟩⟩
      | exception text =>
          rw [← endsOnce_append_failure (hfail (wrap e text))]
          constructor
          · intro h
            have := (h.returns (by simp)).2
            rwa [List.map_append, hmap] at this
          · exact fun h => ⟨fun hn => by simp at hn,
              fun _ => ⟨rfl, by rwa [List.map_append, hmap]⟩⟩

/-! ## §2  The contract -/

/-- The contract of one request. `others` is what happens to the shared state while the
stream is suspended, `closeAt` where its consumer closes it. -/
structure Keeps (q : Request) (s : Server) (called : List String) : Prop where
  calls : (q.generate s).state.calls =
    s.calls ++ called.map fun name => (q.req.requestId, name)
  noLaterCall : ∀ closeAt, ((q.generate s).consume (fun _ => id) closeAt 0).2.2.calls =
    (q.generate s).state.calls
  nodup : called.Nodup
  bounded : called.length ≤ q.maxAttempts
  retried : ∀ name ∈ called.dropLast, (q.behave name).retries = true
  oneReplica : ∀ others closeAt, ∀ r ∈ ((q.generate s).consume others closeAt 0).1,
    called.getLast? = some r.backend
  noRaise : ∀ others closeAt, ((q.generate s).consume others closeAt 0).1 ≠ [] →
    ∀ fault, ((q.generate s).consume others closeAt 0).2.1 ≠ .raised fault
  terminated : ∀ others, Terminated ((q.generate s).consume others (fun _ => false) 0).1
    ((q.generate s).consume others (fun _ => false) 0).2.1
  slot : ∀ closeAt tenant,
    ((q.generate s).consume (fun _ => id) closeAt 0).2.2.inFlight tenant =
      s.inFlight tenant

/-- The replica the router settles on once the tenant's gate is passed: the first one
selected whose call is not a retryable failure before any event. -/
def SettlesOn (q : Request) (s : Server) (e : BackendEntry) : Prop :=
  match s.limiters q.req.tenantId with
  | none => ∃ called, Serves q 1 [] q.maxAttempts s called (some e)
  | some l => ∃ l', l.tryAcquireSlot = some l' ∧
      ∃ called, Serves q 1 [] q.maxAttempts (s.setLimiter q.req.tenantId l') called (some e)

/-- All of a request but its termination, for the outcome of its gate and its loop. -/
structure Outcome (q : Request) (s : Server) (called : List String) (outs : List RoutedEvent)
    (exit : Exit RouteFault) : Prop where
  emits : (q.generate s).Emits outs exit
  calls : (q.generate s).state.calls =
    s.calls ++ called.map fun name => (q.req.requestId, name)
  steady : (q.generate s).Steady (·.calls)
  nodup : called.Nodup
  bounded : called.length ≤ q.maxAttempts
  retried : ∀ name ∈ called.dropLast, (q.behave name).retries = true
  oneReplica : ∀ r ∈ outs, called.getLast? = some r.backend
  noRaise : outs ≠ [] → exit = .returned

theorem Outcome.keeps {q : Request} {s : Server} {called : List String}
    {outs : List RoutedEvent} {exit : Exit RouteFault} (h : Outcome q s called outs exit)
    (ht : Terminated outs exit) : Keeps q s called := by
  refine ⟨h.calls, fun closeAt => h.steady.consume closeAt 0, h.nodup, h.bounded, h.retried,
    fun others closeAt r hr => ?_, fun others closeAt hne fault hf => ?_,
    fun others => ?_, fun closeAt tenant => ?_⟩
  · exact h.oneReplica r ((h.emits.consume_prefix others closeAt 0).subset hr)
  · have houts : outs ≠ [] := by
      rintro rfl
      exact hne (List.prefix_nil.mp (h.emits.consume_prefix others closeAt 0))
    rcases h.emits.consume_exit others closeAt 0 with he | he
    · rw [he, h.noRaise houts] at hf
      cases hf
    · rw [he] at hf
      cases hf
  · obtain ⟨h₁, h₂⟩ := h.emits.consume others 0
    rw [h₁, h₂]
    exact ht
  · have := (q.counts_generate s).consume (fun u => Nat.zero_le _) closeAt 0 tenant
    exact this

/-- The outcome of the loop, in a state reached from `s` without touching the log. -/
theorem outcome_of_serves {q : Request} {s s₀ : Server} {gated : Bool}
    {called : List String} {final : Option BackendEntry}
    (hg : q.generate s = q.attempts gated 1 [] none q.maxAttempts s₀)
    (hcalls : s₀.calls = s.calls) (h : Serves q 1 [] q.maxAttempts s₀ called final) :
    ∃ outs exit, Outcome q s called outs exit ∧
      (final = none → Terminated outs exit) ∧
      ∀ e, final = some e → outs = q.delivered called.length e ∧ exit = q.exitOf e := by
  obtain ⟨hsome, hnone⟩ := h.emits gated none
  obtain ⟨hr₁, hr₂, -⟩ := h.retries
  have hcall := h.calls gated none
  have hsteady := h.steady gated none
  rw [← hg] at hcall hsteady
  rw [hcalls] at hcall
  have hnd : called.Nodup := by simpa using h.nodup List.nodup_nil
  cases final with
  | none =>
      obtain ⟨fault, he⟩ := hnone rfl
      rw [← hg] at he
      exact ⟨[], _, ⟨he, hcall, hsteady, hnd, h.length_le, hr₁, nofun, fun hn => absurd rfl hn⟩,
        fun _ => ⟨fun _ => ⟨fault, rfl⟩, fun hn => absurd rfl hn⟩, nofun⟩
  | some e =>
      have he := hsome e rfl
      rw [← hg, Nat.add_sub_cancel_left] at he
      obtain ⟨hlast, -⟩ := hr₂ e rfl
      refine ⟨_, _, ⟨he, hcall, hsteady, hnd, h.length_le, hr₁, fun r hr => ?_, fun hn => ?_⟩,
        nofun, fun e' he' => ?_⟩
      · rw [hlast]
        exact congrArg some (backend_of_mem_delivered hr).symm
      · exact exitOf_of_delivered hn
      · obtain rfl := Option.some_inj.mp he'
        exact ⟨rfl, rfl⟩

/-- Every request has an outcome: terminated when the router settles on no replica, and
what the replica delivers when it settles on one. -/
theorem exists_outcome (q : Request) (s : Server) :
    ∃ called outs exit, Outcome q s called outs exit ∧
      ((∀ e, ¬ SettlesOn q s e) → Terminated outs exit) ∧
      ∀ e, SettlesOn q s e → outs = q.delivered called.length e ∧ exit = q.exitOf e := by
  unfold SettlesOn
  cases hl : s.limiters q.req.tenantId with
  | none =>
      have hg : q.generate s = q.attempts false 1 [] none q.maxAttempts s := by
        rw [generate, hl]
      obtain ⟨called, final, hs⟩ := q.exists_serves 1 q.maxAttempts [] s
      obtain ⟨outs, exit, ho, hnone, hsome⟩ := outcome_of_serves hg rfl hs
      refine ⟨called, outs, exit, ho, fun hno => ?_, fun e he => ?_⟩
      · cases final with
        | none => exact hnone rfl
        | some e => exact absurd ⟨called, hs⟩ (hno e)
      · obtain ⟨called', hs'⟩ := he
        exact hsome e (hs.unique hs').2
  | some l =>
      cases hacq : l.tryAcquireSlot with
      | none =>
          have hg : q.generate s = .raised (.rateLimited q.req.tenantId l.maxConcurrency)
              (s.setLimiter q.req.tenantId l.reject) := by
            rw [generate, hl]
            simp only [hacq]
          refine ⟨[], [], .raised (.rateLimited q.req.tenantId l.maxConcurrency),
            ⟨?_, ?_, ?_, .nil, Nat.zero_le _, nofun, nofun, fun hn => absurd rfl hn⟩,
            fun _ => ⟨fun _ => ⟨_, rfl⟩, fun hn => absurd rfl hn⟩,
            fun e ⟨l', hl', _⟩ => (nomatch hacq.symm.trans hl')⟩
          · rw [hg]
            exact ⟨rfl, rfl⟩
          · rw [hg]
            exact (List.append_nil _).symm
          · rw [hg]
            trivial
      | some l' =>
          have hg : q.generate s = q.attempts true 1 [] none q.maxAttempts
              (s.setLimiter q.req.tenantId l') := by
            rw [generate, hl]
            simp only [hacq]
          obtain ⟨called, final, hs⟩ :=
            q.exists_serves 1 q.maxAttempts [] (s.setLimiter q.req.tenantId l')
          obtain ⟨outs, exit, ho, hnone, hsome⟩ := outcome_of_serves hg rfl hs
          refine ⟨called, outs, exit, ho, fun hno => ?_, fun e he => ?_⟩
          · cases final with
            | none => exact hnone rfl
            | some e => exact absurd ⟨l', hacq, called, hs⟩ (hno e)
          · obtain ⟨l'', hl'', called', hs'⟩ := he
            obtain rfl := Option.some_inj.mp (hacq.symm.trans hl'')
            exact hsome e (hs.unique hs').2

/-! ## §3  Any number of requests -/

/-- Any number of requests over one server, which starts with no request in flight. -/
def requests : TransitionSystem (Server × List (Live Server RoutedEvent RouteFault String)) where
  init p := (∀ tenant, p.1.inFlight tenant = 0) ∧ p.2 = []
  step := PoolStep Server.inFlight fun holder s g =>
    ∃ q : Request, g = q.generate s ∧ holder = q.holder (s.limiters q.req.tenantId).isSome

theorem counted_of_reachable {p : Server × List (Live Server RoutedEvent RouteFault String)}
    (h : requests.Reachable p) : Counted (f := Server.inFlight) p := by
  induction h with
  | init h =>
      obtain ⟨hzero, hnil⟩ := h
      refine ⟨fun u => ?_, fun x hx => ?_⟩
      · rw [hzero u, hnil]
        rfl
      · rw [hnil] at hx
        cases hx
  | step _ hs ih =>
      refine ih.step ?_ hs
      rintro holder s g ⟨q, rfl, rfl⟩
      exact q.counts_generate s

/-! ## §4  When the contract is kept -/

/-- The contract of a request is kept exactly when the replica the router settles on, if
any, ends its stream well; and over any interleaving of requests each tenant's count is
the number of its suspended streams, within its limit. -/
theorem generate_contract (q : Request) (s : Server) :
    ((∃ called, Keeps q s called) ↔
      ∀ e, SettlesOn q s e → (q.behave e.name).WellEnded) ∧
    ∀ p, requests.Reachable p → ∀ tenant l, p.1.limiters tenant = some l →
      l.inFlight = (p.2.filter fun x => x.holder = some tenant).length ∧
      ∀ m ∈ l.maxConcurrency, l.inFlight ≤ m := by
  refine ⟨?_, fun p hp tenant l hl => ⟨?_, l.inFlight_le⟩⟩
  · obtain ⟨called, outs, exit, ho, hnone, hsome⟩ := exists_outcome q s
    constructor
    · rintro ⟨called', hk⟩ e he
      obtain ⟨rfl, rfl⟩ := hsome e he
      have ht := hk.terminated fun _ => id
      obtain ⟨h₁, h₂⟩ := ho.emits.consume (fun _ => id) 0
      rw [h₁, h₂] at ht
      exact (terminated_iff q _ e).mp ht
    · intro hwell
      by_cases hset : ∃ e, SettlesOn q s e
      · obtain ⟨e, he⟩ := hset
        obtain ⟨rfl, rfl⟩ := hsome e he
        exact ⟨called, ho.keeps ((terminated_iff q _ e).mpr (hwell e he))⟩
      · exact ⟨called, ho.keeps (hnone fun e he => hset ⟨e, he⟩)⟩
  · have hcount := (counted_of_reachable hp).count tenant
    rw [Server.inFlight, hl] at hcount
    rw [← List.countP_eq_length_filter]
    refine hcount.trans ?_
    clear hcount hp
    induction p.2 with
    | nil => rfl
    | cons x live ih =>
        rw [List.map_cons, List.sum_cons, ih, List.countP_cons]
        unfold held
        by_cases hx : x.holder = some tenant
        · simp [hx, Nat.add_comm]
        · simp [hx]

/-! ## §5  The three ways to break it -/

/-- One healthy replica that does `b`, for a tenant without a limiter. -/
def oneReplica (b : Behaviour) : Request where
  req := { requestId := "r", tenantId := "t", model := "m" }
  lane := none
  maxAttempts := 3
  healthTtlS := 5
  tStart := 0
  outside := fun _ => ⟨0, id, fun _ => true, none, 0, 0, 0, 0, 0⟩
  behave := fun _ => b
  one_le_maxAttempts := Nat.le_add_right 1 2

def oneReplicaServer : Server where
  pools := fun model =>
    if model = "m" then
      some { model := "m", entries := [{ name := "a" }], names_nodup := List.nodup_singleton _ }
    else none
  limiters := fun _ => none
  calls := []
  observations := []

def token : TokenEvent := { requestId := "r", tokenIds := [1], text := "x" }

def stop : TokenEvent :=
  { requestId := "r", finished := true, finishReason := some .stop }

def broken : BackendError := { cls := .streamInterrupted, message := "gone" }

/-- A stream without a terminator, an empty stream that ends normally, and a stream that
fails after its terminator. -/
theorem generate_breaks_contract :
    (¬ ∃ called, Keeps (oneReplica ⟨[token], .normal⟩) oneReplicaServer called) ∧
    (¬ ∃ called, Keeps (oneReplica ⟨[], .normal⟩) oneReplicaServer called) ∧
    ¬ ∃ called, Keeps (oneReplica ⟨[token, stop], .backendError broken⟩) oneReplicaServer
      called := by
  refine ⟨?_, ?_, ?_⟩
  · rintro ⟨called, h⟩
    obtain ⟨-, init, last, heq, hlast, -⟩ := (h.terminated fun _ => id).returns (by decide)
    have hevents : init ++ [last] = [token] := heq.symm
    obtain ⟨-, htoken⟩ := List.append_inj' (hevents.trans (List.nil_append _).symm) rfl
    rw [List.singleton_inj.mp htoken] at hlast
    cases hlast
  · rintro ⟨called, h⟩
    obtain ⟨fault, hfault⟩ := (h.terminated fun _ => id).raises (by decide)
    cases hfault
  · rintro ⟨called, h⟩
    obtain ⟨-, init, last, heq, -, hinit⟩ := (h.terminated fun _ => id).returns (by decide)
    have hevents : init ++ [last] =
        [token, stop] ++ [TokenEvent.failure "r" broken.str (some .abort)] := heq.symm
    obtain ⟨rfl, -⟩ := List.append_inj' hevents rfl
    exact absurd (hinit stop (by decide)) (by decide)

end TurboServe.Gateway
