import TurboServe.Properties.Routing

/-!
# What the canary controller is told

One observation per attempt, on the lane of its replica, and when its verdict is that of
the replica's stream.
-/

namespace TurboServe.Gateway

open Lib Lib.Gen

/-! ## §1  Verdicts -/

/-- The stream ends with a terminating event that is not an error. -/
def Behaviour.endsWell (b : Behaviour) : Bool :=
  match b.ending, b.events.getLast? with
  | .normal, some last => last.finished && !last.isError
  | _, _ => false

/-- The stream ends normally, and no event was an error. -/
def Behaviour.passes (b : Behaviour) : Bool :=
  b.ending = .normal && !b.events.any (·.isError)

/-- A stream that ends normally has an error event or a terminating last one, and no error
event before a terminating one that is none. -/
def Behaviour.Conclusive (b : Behaviour) : Prop :=
  b.ending = .normal →
    ((∃ e ∈ b.events, e.isError = true) ∨ ∃ last ∈ b.events.getLast?, last.finished = true) ∧
    ∀ last ∈ b.events.getLast?, last.finished = true → last.isError = false →
      ∀ e ∈ b.events, e.isError = false

theorem Behaviour.passes_eq_endsWell_iff (b : Behaviour) :
    b.passes = b.endsWell ↔ b.Conclusive := by
  obtain ⟨events, ending⟩ := b
  cases ending with
  | backendError e => exact ⟨fun _ => nofun, fun _ => rfl⟩
  | exception text => exact ⟨fun _ => nofun, fun _ => rfl⟩
  | normal =>
      have hpasses : passes ⟨events, .normal⟩ = !events.any (·.isError) := Bool.true_and _
      rw [hpasses]
      unfold Conclusive endsWell
      cases hlast : events.getLast? with
      | none =>
          obtain rfl := List.getLast?_eq_none_iff.mp hlast
          simp
      | some last =>
          have hmem : last ∈ events := List.mem_of_getLast? hlast
          dsimp only
          cases hany : events.any (·.isError) with
          | true =>
              obtain ⟨e, he, herr⟩ := List.any_eq_true.mp hany
              constructor
              · intro h _
                refine ⟨Or.inl ⟨e, he, herr⟩, ?_⟩
                rintro _ ⟨rfl⟩ hf hok
                simp [hf, hok] at h
              · intro h
                cases hf : last.finished with
                | false => rfl
                | true =>
                    cases hok : last.isError with
                    | true => rfl
                    | false =>
                        have hnone := (h rfl).2 last rfl hf hok e he
                        exact absurd herr (by simp [hnone])
          | false =>
              have hnone : ∀ e ∈ events, e.isError = false := by
                intro e he
                exact Bool.eq_false_iff.mpr (List.any_eq_false.mp hany e he)
              rw [hnone last hmem, Bool.not_false, Bool.and_true]
              constructor
              · intro h _
                exact ⟨Or.inr ⟨last, rfl, h.symm⟩, fun _ _ _ _ => hnone⟩
              · intro h
                rcases (h rfl).1 with ⟨e, he, herr⟩ | ⟨_, ⟨rfl⟩, hf⟩
                · exact absurd herr (by simp [hnone e he])
                · exact hf.symm

namespace Request

variable (q : Request)

/-! ## §2  Attempts -/

/-- The replicas called, as the loop over the attempts selects them. -/
def called (attempt : ℕ) (tried : List String) : ℕ → Server → List BackendEntry
  | 0, _ => []
  | left + 1, s =>
      match q.select attempt tried s with
      | (.error _, _) => []
      | (.ok e, s') =>
          match q.behave e.name with
          | ⟨[], .backendError exc⟩ =>
              if exc.retryable then
                e :: called (attempt + 1) (tried ++ [e.name]) left
                  (q.failed attempt e exc (s'.call q.req.model q.req.requestId e))
              else [e]
          | _ => [e]

/-- The replicas one request calls. -/
def attempted (s : Server) : List BackendEntry :=
  match s.limiters q.req.tenantId with
  | none => q.called 1 [] q.maxAttempts s
  | some l =>
      match l.tryAcquireSlot with
      | none => []
      | some l' => q.called 1 [] q.maxAttempts (s.setLimiter q.req.tenantId l')

variable {q}

theorem observations_select {attempt : ℕ} {tried : List String} {s s' : Server}
    {res : Except RouteFault BackendEntry} (h : q.select attempt tried s = (res, s')) :
    s'.observations = s.observations := by
  unfold select at h
  split at h
  · obtain ⟨-, rfl⟩ := Prod.mk.inj h
    rfl
  · simp only at h
    split at h <;>
    · obtain ⟨-, rfl⟩ := Prod.mk.inj h
      rfl

/-- What an attempt's end tells the controller. -/
def observation (q : Request) (attempt : ℕ) (e : BackendEntry) (started ok : Bool) :
    Observation :=
  if ok then
    ⟨e.lane, true,
      if started then some ((q.outside attempt).firstAt - q.tStart) else none,
      some ((q.outside attempt).endedAt - q.tStart)⟩
  else ⟨e.lane, false, none, none⟩

theorem observation_said (attempt : ℕ) (e : BackendEntry) (started ok : Bool) :
    ((q.observation attempt e started ok).lane, (q.observation attempt e started ok).ok) =
      (e.lane, ok) := by
  unfold observation
  cases ok <;> rfl

theorem observations_failed (attempt : ℕ) (e : BackendEntry) (exc : BackendError)
    (started : Bool) (s : Server) : (q.failed attempt e exc s).observations =
      s.observations ++ [q.observation attempt e started false] := by
  unfold failed Server.markFailure
  split <;> rfl

theorem observations_ended (attempt : ℕ) (e : BackendEntry) (started streamError : Bool)
    (s : Server) : (q.ended attempt e started streamError s).observations =
      s.observations ++ [q.observation attempt e started !streamError] := by
  unfold ended
  cases streamError <;> rfl

theorem observations_leave (gated : Bool) (s : Server) :
    (q.leave gated s).observations = s.observations := by
  unfold leave Server.leaveGate
  split <;> rfl

/-- The end of a stream is observed once. -/
theorem appends_finish (gated : Bool) (attempt : ℕ) (e : BackendEntry) (streamError : Bool)
    (s : Server) : (q.finish gated attempt e streamError s).Appends (·.observations) s
      [q.observation attempt e true ((q.behave e.name).ending = .normal && !streamError)] := by
  unfold finish
  cases (q.behave e.name).ending with
  | normal => exact (observations_leave gated _).trans (observations_ended ..)
  | backendError exc =>
      refine ⟨[_], [], rfl, observations_failed attempt e exc true s, fun s' => ?_⟩
      exact (observations_leave gated s').trans (List.append_nil _).symm
  | exception text =>
      refine ⟨[_], [], rfl, observations_failed attempt e (wrap e text) true s, fun s' => ?_⟩
      exact (observations_leave gated s').trans (List.append_nil _).symm

theorem appends_stream (gated : Bool) (attempt : ℕ) (e : BackendEntry)
    (events : List TokenEvent) (streamError : Bool) (s : Server) :
    (q.stream gated attempt e events streamError s).Appends (·.observations) s
      [q.observation attempt e true ((q.behave e.name).ending = .normal &&
        !(streamError || events.any (·.isError)))] := by
  induction events generalizing streamError s with
  | nil =>
      rw [List.any_nil, Bool.or_false]
      exact appends_finish gated attempt e streamError s
  | cons event rest ih =>
      rw [List.any_cons, ← Bool.or_assoc]
      exact ⟨[], _, rfl, (List.append_nil _).symm, fun s' => ih _ s'⟩

/-- An attempt on a replica that is not retried away, after the loop has called it. -/
theorem appends_served (gated : Bool) (attempt : ℕ) (e : BackendEntry) {left : ℕ}
    {tried : List String} {lastError : Option BackendError} {s s' : Server}
    (hsel : q.select attempt tried s = (.ok e, s'))
    (hr : (q.behave e.name).retries = false) :
    ∃ started, (q.attempts gated attempt tried lastError (left + 1) s).Appends
      (·.observations) s
      [q.observation attempt e started (q.behave e.name).passes] := by
  have hcall : (s'.call q.req.model q.req.requestId e).observations = s.observations :=
    (observations_select hsel : s'.observations = s.observations)
  simp only [attempts, hsel]
  have hpasses : (q.behave e.name).passes = ((q.behave e.name).ending = .normal &&
      !(q.behave e.name).events.any (·.isError)) := rfl
  rw [hpasses]
  unfold Behaviour.retries at hr
  cases hev : (q.behave e.name).events with
  | cons event rest =>
      exact ⟨true, (appends_stream gated attempt e (event :: rest) false _).of_eq hcall⟩
  | nil =>
      rw [hev] at hr
      refine ⟨false, Gen.Appends.of_eq hcall ?_⟩
      cases hen : (q.behave e.name).ending with
      | normal => exact (observations_leave gated _).trans (observations_ended ..)
      | exception text => exact (observations_leave gated _).trans (observations_failed ..)
      | backendError exc =>
          rw [hen] at hr
          simp only at hr
          simp only [hr, Bool.false_eq_true, if_false]
          exact (observations_leave gated _).trans (observations_failed ..)

theorem called_of_served {attempt left : ℕ} {tried : List String} {s s' : Server}
    {e : BackendEntry} (hsel : q.select attempt tried s = (.ok e, s'))
    (hr : (q.behave e.name).retries = false) : q.called attempt tried (left + 1) s = [e] := by
  rw [called, hsel]
  dsimp only
  split
  · next exc hb =>
      rw [hb] at hr
      exact if_neg (Bool.eq_false_iff.mp hr)
  · rfl

theorem called_of_retried {attempt left : ℕ} {tried : List String} {s s' : Server}
    {e : BackendEntry} {exc : BackendError}
    (hsel : q.select attempt tried s = (.ok e, s'))
    (hb : q.behave e.name = ⟨[], .backendError exc⟩) (hr : exc.retryable = true) :
    q.called attempt tried (left + 1) s = e :: q.called (attempt + 1) (tried ++ [e.name]) left
      (q.failed attempt e exc (s'.call q.req.model q.req.requestId e)) := by
  simp only [called, hsel, hb, hr, if_true]

/-- Every attempt is observed once, on its lane. -/
theorem appends_attempts (gated : Bool) (attempt : ℕ) (tried : List String)
    (lastError : Option BackendError) (left : ℕ) (s : Server) :
    ∃ xs, (q.attempts gated attempt tried lastError left s).Appends (·.observations) s xs ∧
      xs.map (fun x => (x.lane, x.ok)) = (q.called attempt tried left s).map
        fun e => (e.lane, (q.behave e.name).passes) := by
  induction left generalizing attempt tried lastError s with
  | zero =>
      exact ⟨[], (observations_leave gated s).trans (List.append_nil _).symm, rfl⟩
  | succ left ih =>
      rcases hsel : q.select attempt tried s with ⟨res, s'⟩
      cases res with
      | error fault =>
          refine ⟨[], ?_, ?_⟩
          · simp only [attempts, hsel]
            exact ((observations_leave gated s').trans (observations_select hsel)).trans
              (List.append_nil _).symm
          · rw [called, hsel]
            rfl
      | ok e =>
          cases hr : (q.behave e.name).retries with
          | false =>
              obtain ⟨started, happ⟩ := appends_served gated attempt e hsel hr
              refine ⟨_, happ, ?_⟩
              rw [called_of_served hsel hr]
              exact congrArg (fun said => [said]) (observation_said ..)
          | true =>
              obtain ⟨exc, hb, hexc⟩ := Behaviour.of_retries hr
              obtain ⟨xs, happ, hxs⟩ := ih (attempt + 1) (tried ++ [e.name]) (some exc)
                (q.failed attempt e exc (s'.call q.req.model q.req.requestId e))
              have hfailed := observations_failed (q := q) attempt e exc false
                (s'.call q.req.model q.req.requestId e)
              have hcall : (s'.call q.req.model q.req.requestId e).observations =
                  s.observations :=
                (observations_select hsel : s'.observations = s.observations)
              rw [hcall] at hfailed
              refine ⟨q.observation attempt e false false :: xs, ?_, ?_⟩
              · simp only [attempts, hsel, hb, hexc, if_true]
                exact happ.of_append hfailed
              · have hpasses : (q.behave e.name).passes = false := by
                  rw [hb]
                  rfl
                rw [called_of_retried hsel hb hexc, List.map_cons, List.map_cons, hxs,
                  observation_said, hpasses]

/-- The attempts are the calls of the loop. -/
theorem serves_called (attempt left : ℕ) (tried : List String) (s : Server) :
    ∃ final, Serves q attempt tried left s ((q.called attempt tried left s).map (·.name))
      final := by
  induction left generalizing attempt tried s with
  | zero => exact ⟨none, .exhausted⟩
  | succ left ih =>
      rcases hsel : q.select attempt tried s with ⟨res, s'⟩
      cases res with
      | error fault =>
          rw [called, hsel]
          exact ⟨none, .refused hsel⟩
      | ok e =>
          cases hr : (q.behave e.name).retries with
          | false =>
              rw [called_of_served hsel hr]
              exact ⟨some e, .served hsel hr⟩
          | true =>
              obtain ⟨exc, hb, hexc⟩ := Behaviour.of_retries hr
              obtain ⟨final, hnext⟩ := ih (attempt + 1) (tried ++ [e.name])
                (q.failed attempt e exc (s'.call q.req.model q.req.requestId e))
              rw [called_of_retried hsel hb hexc]
              exact ⟨final, .retried hsel hb hexc hnext⟩

/-! ## §3  A request -/

/-- Whatever happens at its suspensions, a request that is not closed reports each of its
attempts once, on the lane of its replica, and with the verdict of the replica's stream. -/
def Truthful (q : Request) (s : Server) : Prop :=
  ∃ xs, (q.generate s).Appends (·.observations) s xs ∧
    xs.map (fun x => (x.lane, x.ok)) =
      (q.attempted s).map fun e => (e.lane, (q.behave e.name).endsWell)

/-- What the loop calls and reports, in a state reached without touching either log. -/
theorem reports_of_attempts {s s₀ : Server} {gated : Bool}
    (hg : q.generate s = q.attempts gated 1 [] none q.maxAttempts s₀)
    (hcalls : s₀.calls = s.calls) (hobs : s₀.observations = s.observations) :
    ((q.generate s).consume (fun _ => id) (fun _ => false) 0).2.2.calls = s.calls ++
        (q.called 1 [] q.maxAttempts s₀).map (fun e => (q.req.requestId, e.name)) ∧
      ∃ xs, (q.generate s).Appends (·.observations) s xs ∧
        xs.map (fun x => (x.lane, x.ok)) = (q.called 1 [] q.maxAttempts s₀).map
          fun e => (e.lane, (q.behave e.name).passes) := by
  obtain ⟨final, hserves⟩ := q.serves_called 1 q.maxAttempts [] s₀
  constructor
  · rw [hg, (hserves.steady gated none).consume, hserves.calls, hcalls, List.map_map]
    rfl
  · obtain ⟨xs, happ, hxs⟩ := q.appends_attempts gated 1 [] none q.maxAttempts s₀
    rw [hg]
    exact ⟨xs, happ.of_eq hobs, hxs⟩

theorem reports_of_generate (s : Server) :
    ((q.generate s).consume (fun _ => id) (fun _ => false) 0).2.2.calls =
        s.calls ++ (q.attempted s).map (fun e => (q.req.requestId, e.name)) ∧
      ∃ xs, (q.generate s).Appends (·.observations) s xs ∧
        xs.map (fun x => (x.lane, x.ok)) =
          (q.attempted s).map fun e => (e.lane, (q.behave e.name).passes) := by
  unfold attempted
  cases hl : s.limiters q.req.tenantId with
  | none =>
      have hg : q.generate s = q.attempts false 1 [] none q.maxAttempts s := by
        rw [generate, hl]
      exact reports_of_attempts hg rfl rfl
  | some l =>
      cases hacq : l.tryAcquireSlot with
      | none =>
          have hg : q.generate s = .raised (.rateLimited q.req.tenantId l.maxConcurrency)
              (s.setLimiter q.req.tenantId l.reject) := by
            rw [generate, hl]
            simp only [hacq]
          rw [hg]
          dsimp only
          rw [hacq]
          refine ⟨(List.append_nil _).symm, [], (List.append_nil _).symm, rfl⟩
      | some l' =>
          have hg : q.generate s = q.attempts true 1 [] none q.maxAttempts
              (s.setLimiter q.req.tenantId l') := by
            rw [generate, hl]
            simp only [hacq]
          dsimp only
          rw [hacq]
          exact reports_of_attempts hg rfl rfl

/-- The attempts of a request are its calls, and the controller is told the truth about
them exactly if their streams are conclusive. -/
theorem truthful_iff (q : Request) (s : Server) :
    ((q.generate s).consume (fun _ => id) (fun _ => false) 0).2.2.calls =
        s.calls ++ (q.attempted s).map (fun e => (q.req.requestId, e.name)) ∧
      (Truthful q s ↔ ∀ e ∈ q.attempted s, (q.behave e.name).Conclusive) := by
  obtain ⟨hcalls, xs, happ, hxs⟩ := q.reports_of_generate s
  refine ⟨hcalls, ?_⟩
  have htrue : Truthful q s ↔ ∀ e ∈ q.attempted s,
      (q.behave e.name).passes = (q.behave e.name).endsWell := by
    constructor
    · rintro ⟨ys, happ', hys⟩ e he
      obtain rfl := happ.unique happ'
      exact congrArg Prod.snd (List.map_inj_left.mp (hxs.symm.trans hys) e he)
    · intro h
      refine ⟨xs, happ, hxs.trans (List.map_inj_left.mpr fun e he => ?_)⟩
      exact congrArg (Prod.mk e.lane) (h e he)
  rw [htrue]
  exact forall₂_congr fun e _ => (q.behave e.name).passes_eq_endsWell_iff

/-- An empty stream counts as a success. -/
theorem untruthful_empty : ¬ ∀ (q : Request) (s : Server), Truthful q s := by
  intro h
  obtain ⟨xs, happ, hxs⟩ := h (oneReplica ⟨[], .normal⟩) oneReplicaServer
  have hlog := happ.consume 0
  have hobs : (((oneReplica ⟨[], .normal⟩).generate oneReplicaServer).consume (fun _ => id)
      (fun _ => false) 0).2.2.observations = [⟨.stable, true, none, some 0⟩] := by
    decide +kernel
  rw [hobs] at hlog
  obtain rfl : [⟨.stable, true, none, some 0⟩] = xs := hlog.trans (List.nil_append xs)
  revert hxs
  decide +kernel

end Request

end TurboServe.Gateway
