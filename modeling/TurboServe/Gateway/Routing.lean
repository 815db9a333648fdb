import TurboServe.Gateway.Router

/-!
# Runs of the router's generator

The replicas one request is sent to, what it yields and how it ends, and the
concurrency slot it holds meanwhile.
-/

namespace TurboServe.Gateway

open Lib Lib.Gen

/-! ## §1  What a served attempt delivers -/

theorem Behaviour.of_retries {b : Behaviour} (h : b.retries = true) :
    ∃ exc, b = ⟨[], .backendError exc⟩ ∧ exc.retryable = true := by
  unfold retries at h
  split at h
  · rename_i e hev hen
    exact ⟨e, by cases b; simp_all, h⟩
  · cases h

namespace Request

variable (q : Request)

/-- The in-band failure after a replica's events, if its stream did not end normally. -/
def closing (attempt : ℕ) (e : BackendEntry) : List RoutedEvent :=
  match (q.behave e.name).ending with
  | .normal => []
  | .backendError exc => [q.failureEvent e attempt exc]
  | .exception text => [q.failureEvent e attempt (wrap e text)]

/-- What the client gets of a replica that is not retried away. -/
def delivered (attempt : ℕ) (e : BackendEntry) : List RoutedEvent :=
  match (q.behave e.name).events with
  | [] => []
  | events => events.map (routed e attempt) ++ q.closing attempt e

def exitOf (e : BackendEntry) : Exit RouteFault :=
  match (q.behave e.name).events, (q.behave e.name).ending with
  | [], .backendError exc => .raised (.backend exc)
  | [], .exception text => .raised (.backend (wrap e text))
  | _, _ => .returned

/-- The loop over the attempts: the replicas called from here on, and the one that is
not retried away, if any. -/
inductive Serves (q : Request) : ℕ → List String → ℕ → Server → List String →
    Option BackendEntry → Prop where
  | exhausted {attempt : ℕ} {tried : List String} {s : Server} :
      Serves q attempt tried 0 s [] none
  | refused {attempt left : ℕ} {tried : List String} {s s' : Server} {fault : RouteFault}
      (h : q.select attempt tried s = (.error fault, s')) :
      Serves q attempt tried (left + 1) s [] none
  | served {attempt left : ℕ} {tried : List String} {s s' : Server} {e : BackendEntry}
      (h : q.select attempt tried s = (.ok e, s'))
      (hr : (q.behave e.name).retries = false) :
      Serves q attempt tried (left + 1) s [e.name] (some e)
  | retried {attempt left : ℕ} {tried called : List String} {s s' : Server}
      {e : BackendEntry} {exc : BackendError} {final : Option BackendEntry}
      (h : q.select attempt tried s = (.ok e, s'))
      (hb : q.behave e.name = ⟨[], .backendError exc⟩) (hr : exc.retryable = true)
      (hnext : Serves q (attempt + 1) (tried ++ [e.name]) left
        (q.failed attempt e exc (s'.call q.req.model q.req.requestId e)) called final) :
      Serves q attempt tried (left + 1) s (e.name :: called) final

theorem exists_serves (attempt left : ℕ) (tried : List String) (s : Server) :
    ∃ called final, Serves q attempt tried left s called final := by
  induction left generalizing attempt tried s with
  | zero => exact ⟨[], none, .exhausted⟩
  | succ left ih =>
      rcases hsel : q.select attempt tried s with ⟨res, s'⟩
      cases res with
      | error fault => exact ⟨[], none, .refused hsel⟩
      | ok e =>
          cases hr : (q.behave e.name).retries with
          | false => exact ⟨_, _, .served hsel hr⟩
          | true =>
              obtain ⟨exc, hb, hexc⟩ := Behaviour.of_retries hr
              obtain ⟨called, final, hnext⟩ := ih (attempt + 1) (tried ++ [e.name])
                (q.failed attempt e exc (s'.call q.req.model q.req.requestId e))
              exact ⟨_, _, .retried hsel hb hexc hnext⟩

/-! ## §2  The replicas tried -/

theorem pick_mem (draw upto : ℚ) (e : BackendEntry) (rest : List BackendEntry) :
    pick draw upto e rest ∈ e :: rest := by
  induction rest generalizing upto e with
  | nil => exact List.mem_singleton_self e
  | cons e' rest ih =>
      rw [pick]
      split
      · exact List.mem_cons_self
      · exact List.mem_cons_of_mem _ (ih _ e')

theorem mem_candidates_of_selectFrom {o : Outside} {lane : Option Lane}
    {exclude : List String} {p : ModelPool} {e : BackendEntry}
    (h : selectFrom o lane exclude p = some e) : ∃ l, e ∈ p.candidates l exclude := by
  unfold selectFrom at h
  simp only at h
  split at h
  · rename_i e' rest hc
    obtain rfl := Option.some_inj.mp h
    exact ⟨_, hc ▸ pick_mem ..⟩
  · split at h
    · rename_i e' rest hc
      obtain rfl := Option.some_inj.mp h
      exact ⟨_, hc ▸ pick_mem ..⟩
    · cases h

variable {q}

/-- A selected replica has not been tried. -/
theorem not_mem_of_select {attempt : ℕ} {tried : List String} {s s' : Server}
    {e : BackendEntry} (h : q.select attempt tried s = (.ok e, s')) : e.name ∉ tried := by
  unfold select at h
  split at h
  · cases h
  · simp only at h
    split at h
    · rename_i e' he'
      obtain rfl := Except.ok.inj (Prod.mk.inj h).1
      obtain ⟨l, hl⟩ := mem_candidates_of_selectFrom he'
      have := (List.mem_filter.mp hl).2
      simp only [decide_eq_true_eq] at this
      exact this.2.2
    · cases h

theorem limiters_of_select {attempt : ℕ} {tried : List String} {s s' : Server}
    {res : Except RouteFault BackendEntry} (h : q.select attempt tried s = (res, s')) :
    s'.limiters = s.limiters ∧ s'.calls = s.calls := by
  unfold select at h
  split at h
  · obtain ⟨-, rfl⟩ := Prod.mk.inj h
    exact ⟨rfl, rfl⟩
  · simp only at h
    split at h <;>
    · obtain ⟨-, rfl⟩ := Prod.mk.inj h
      exact ⟨rfl, rfl⟩

namespace Serves

variable {attempt left : ℕ} {tried called : List String} {s : Server}
  {final : Option BackendEntry}

/-- The loop is deterministic. -/
theorem unique {called' : List String} {final' : Option BackendEntry}
    (h : Serves q attempt tried left s called final)
    (h' : Serves q attempt tried left s called' final') : called = called' ∧ final = final' := by
  induction h generalizing called' final' with
  | exhausted =>
      cases h'
      exact ⟨rfl, rfl⟩
  | refused hsel =>
      cases h' with
      | refused => exact ⟨rfl, rfl⟩
      | served hsel' => cases hsel.symm.trans hsel'
      | retried hsel' => cases hsel.symm.trans hsel'
  | served hsel hr =>
      cases h' with
      | refused hsel' => cases hsel.symm.trans hsel'
      | served hsel' =>
          cases hsel.symm.trans hsel'
          exact ⟨rfl, rfl⟩
      | retried hsel' hb hexc =>
          cases hsel.symm.trans hsel'
          rw [hb] at hr
          exact Bool.noConfusion (hexc.symm.trans hr)
  | retried hsel hb hexc _ ih =>
      cases h' with
      | refused hsel' => cases hsel.symm.trans hsel'
      | served hsel' hr =>
          cases hsel.symm.trans hsel'
          rw [hb] at hr
          exact Bool.noConfusion (hexc.symm.trans hr)
      | retried hsel' hb' _ hnext =>
          cases hsel.symm.trans hsel'
          cases hb.symm.trans hb'
          obtain ⟨rfl, rfl⟩ := ih hnext
          exact ⟨rfl, rfl⟩

theorem length_le (h : Serves q attempt tried left s called final) :
    called.length ≤ left := by
  induction h with
  | exhausted => exact Nat.le_refl 0
  | refused => exact Nat.zero_le _
  | served => simp
  | retried _ _ _ _ ih => simpa using ih

theorem nodup (h : Serves q attempt tried left s called final) (hnd : tried.Nodup) :
    (tried ++ called).Nodup := by
  induction h with
  | exhausted => simpa using hnd
  | refused => simpa using hnd
  | served hsel => exact List.nodup_append.mpr ⟨hnd, List.nodup_singleton _, by
      intro a ha b hb hab
      rw [List.mem_singleton.mp hb] at hab
      exact not_mem_of_select hsel (hab ▸ ha)⟩
  | @retried attempt left tried called s s' e exc final hsel _ _ _ ih =>
      have hnd' : (tried ++ [e.name]).Nodup :=
        List.nodup_append.mpr ⟨hnd, List.nodup_singleton _, by
          intro a ha b hb hab
          rw [List.mem_singleton.mp hb] at hab
          exact not_mem_of_select hsel (hab ▸ ha)⟩
      simpa using ih hnd'

/-- Every replica but the one that serves was retried away. -/
theorem retries (h : Serves q attempt tried left s called final) :
    (∀ name ∈ called.dropLast, (q.behave name).retries = true) ∧
    (∀ e, final = some e → called.getLast? = some e.name ∧
      (q.behave e.name).retries = false) ∧
    (final = none → ∀ name ∈ called, (q.behave name).retries = true) := by
  induction h with
  | exhausted => exact ⟨nofun, nofun, fun _ => nofun⟩
  | refused => exact ⟨nofun, nofun, fun _ => nofun⟩
  | served hsel hr =>
      refine ⟨nofun, fun e he => ?_, nofun⟩
      obtain rfl := Option.some_inj.mp he
      exact ⟨rfl, hr⟩
  | @retried attempt left tried called s s' e exc final hsel hb hr _ ih =>
      have hre : (q.behave e.name).retries = true := by rw [hb]; exact hr
      obtain ⟨ih₁, ih₂, ih₃⟩ := ih
      refine ⟨fun name hname => ?_, fun e' he' => ?_, fun hn name hname => ?_⟩
      · cases called with
        | nil => cases hname
        | cons c called =>
            rw [List.dropLast_cons_of_ne_nil (List.cons_ne_nil _ _)] at hname
            rcases List.mem_cons.mp hname with rfl | hname
            · exact hre
            · exact ih₁ name hname
      · obtain ⟨hlast, hr'⟩ := ih₂ e' he'
        refine ⟨?_, hr'⟩
        rw [List.getLast?_cons, hlast]
        rfl
      · rcases List.mem_cons.mp hname with rfl | hname
        · exact hre
        · exact ih₃ hn name hname

end Serves

/-! ## §3  What is yielded -/

theorem emits_finish (gated : Bool) (attempt : ℕ) (e : BackendEntry) (streamError : Bool)
    (s : Server) :
    (q.finish gated attempt e streamError s).Emits (q.closing attempt e) .returned := by
  unfold finish closing
  cases (q.behave e.name).ending with
  | normal => exact ⟨rfl, rfl⟩
  | backendError exc => exact ⟨[], rfl, fun _ => ⟨rfl, rfl⟩⟩
  | exception text => exact ⟨[], rfl, fun _ => ⟨rfl, rfl⟩⟩

theorem emits_stream (gated : Bool) (attempt : ℕ) (e : BackendEntry)
    (events : List TokenEvent) (streamError : Bool) (s : Server) :
    (q.stream gated attempt e events streamError s).Emits
      (events.map (routed e attempt) ++ q.closing attempt e) .returned := by
  induction events generalizing streamError s with
  | nil => exact emits_finish gated attempt e streamError s
  | cons event rest ih =>
      exact ⟨_, rfl, fun s' => ih (streamError || event.isError) s'⟩

theorem backend_of_mem_delivered {attempt : ℕ} {e : BackendEntry} {r : RoutedEvent}
    (h : r ∈ q.delivered attempt e) : r.backend = e.name := by
  unfold delivered at h
  split at h
  · cases h
  · rcases List.mem_append.mp h with h | h
    · obtain ⟨event, -, rfl⟩ := List.mem_map.mp h
      rfl
    · unfold closing at h
      split at h
      · cases h
      · rw [List.mem_singleton.mp h]
        rfl
      · rw [List.mem_singleton.mp h]
        rfl

/-- A stream that yielded does not raise. -/
theorem exitOf_of_delivered {attempt : ℕ} {e : BackendEntry}
    (h : q.delivered attempt e ≠ []) : q.exitOf e = .returned := by
  unfold delivered at h
  unfold exitOf
  cases hev : (q.behave e.name).events with
  | nil =>
      rw [hev] at h
      exact absurd rfl h
  | cons event rest => rfl

/-- One request: what it yields, how it ends and whom it called follow from the replica
the loop settles on. -/
theorem Serves.emits {attempt left : ℕ} {tried called : List String} {s : Server}
    {final : Option BackendEntry} (h : Serves q attempt tried left s called final)
    (gated : Bool) (lastError : Option BackendError) :
    (∀ e, final = some e →
      (q.attempts gated attempt tried lastError left s).Emits
        (q.delivered (attempt + called.length - 1) e) (q.exitOf e)) ∧
    (final = none → ∃ fault,
      (q.attempts gated attempt tried lastError left s).Emits [] (.raised fault)) := by
  induction h generalizing lastError with
  | exhausted => exact ⟨nofun, fun _ => ⟨_, rfl, rfl⟩⟩
  | refused hsel =>
      refine ⟨nofun, fun _ => ?_⟩
      simp only [attempts, hsel]
      exact ⟨_, rfl, rfl⟩
  | @served attempt left tried s s' e hsel hr =>
      refine ⟨fun e' he' => ?_, nofun⟩
      obtain rfl := Option.some_inj.mp he'
      simp only [attempts, hsel, List.length_singleton, Nat.add_sub_cancel]
      unfold delivered exitOf
      unfold Behaviour.retries at hr
      cases hev : (q.behave e.name).events with
      | cons event rest => exact emits_stream gated attempt e (event :: rest) false _
      | nil =>
          rw [hev] at hr
          cases hen : (q.behave e.name).ending with
          | normal => exact ⟨rfl, rfl⟩
          | exception text => exact ⟨rfl, rfl⟩
          | backendError exc =>
              rw [hen] at hr
              simp only at hr
              simp only [hr, Bool.false_eq_true, if_false]
              exact ⟨rfl, rfl⟩
  | @retried attempt left tried called s s' e exc final hsel hb hr _ ih =>
      simp only [attempts, hsel, hb, hr, if_true]
      obtain ⟨ih₁, ih₂⟩ := ih (some exc)
      refine ⟨fun e' he' => ?_, ih₂⟩
      have hlen : attempt + (e.name :: called).length - 1 =
          attempt + 1 + called.length - 1 := by
        rw [List.length_cons]
        omega
      rw [hlen]
      exact ih₁ e' he'

theorem calls_failed (attempt : ℕ) (e : BackendEntry) (exc : BackendError) (s : Server) :
    (q.failed attempt e exc s).limiters = s.limiters ∧
      (q.failed attempt e exc s).calls = s.calls := by
  unfold failed Server.markFailure
  split <;> exact ⟨rfl, rfl⟩

theorem calls_ended (attempt : ℕ) (e : BackendEntry) (started streamError : Bool)
    (s : Server) :
    (q.ended attempt e started streamError s).limiters = s.limiters ∧
      (q.ended attempt e started streamError s).calls = s.calls := by
  unfold ended
  split <;> exact ⟨rfl, rfl⟩

theorem calls_leave (gated : Bool) (s : Server) : (q.leave gated s).calls = s.calls := by
  unfold leave Server.leaveGate
  split <;> rfl

theorem Serves.calls {attempt left : ℕ} {tried called : List String} {s : Server}
    {final : Option BackendEntry} (h : Serves q attempt tried left s called final)
    (gated : Bool) (lastError : Option BackendError) :
    (q.attempts gated attempt tried lastError left s).state.calls =
      s.calls ++ called.map fun name => (q.req.requestId, name) := by
  induction h generalizing lastError with
  | exhausted => simp [attempts, Gen.state, calls_leave]
  | refused hsel => simp [attempts, hsel, Gen.state, calls_leave, (limiters_of_select hsel).2]
  | @served attempt left tried s s' e hsel hr =>
      have hcall : (s'.call q.req.model q.req.requestId e).calls =
          s.calls ++ [(q.req.requestId, e.name)] := by
        rw [← (limiters_of_select hsel).2]
        rfl
      simp only [attempts, hsel, List.map_cons, List.map_nil, ← hcall]
      unfold Behaviour.retries at hr
      cases hev : (q.behave e.name).events with
      | cons event rest => rfl
      | nil =>
          rw [hev] at hr
          cases hen : (q.behave e.name).ending with
          | normal => exact (calls_leave gated _).trans (calls_ended ..).2
          | exception text => exact (calls_leave gated _).trans (calls_failed ..).2
          | backendError exc =>
              rw [hen] at hr
              simp only at hr
              simp only [hr, Bool.false_eq_true, if_false]
              exact (calls_leave gated _).trans (calls_failed ..).2
  | @retried attempt left tried called s s' e exc final hsel hb hr _ ih =>
      simp only [attempts, hsel, hb, hr, if_true]
      rw [ih (some exc), (calls_failed ..).2]
      simp only [Server.call, (limiters_of_select hsel).2, List.map_cons, List.append_assoc,
        List.singleton_append]

theorem steady_finish (gated : Bool) (attempt : ℕ) (e : BackendEntry) (streamError : Bool)
    (s : Server) : (q.finish gated attempt e streamError s).Steady (·.calls) := by
  unfold finish
  cases (q.behave e.name).ending with
  | normal => trivial
  | backendError exc =>
      exact fun s' => ⟨calls_leave gated s', calls_leave gated s', trivial⟩
  | exception text =>
      exact fun s' => ⟨calls_leave gated s', calls_leave gated s', trivial⟩

theorem state_finish (gated : Bool) (attempt : ℕ) (e : BackendEntry) (streamError : Bool)
    (s : Server) : (q.finish gated attempt e streamError s).state.calls = s.calls := by
  unfold finish
  cases (q.behave e.name).ending with
  | normal => exact (calls_leave gated _).trans (calls_ended ..).2
  | backendError exc => exact (calls_failed ..).2
  | exception text => exact (calls_failed ..).2

theorem steady_stream (gated : Bool) (attempt : ℕ) (e : BackendEntry)
    (events : List TokenEvent) (streamError : Bool) (s : Server) :
    (q.stream gated attempt e events streamError s).Steady (·.calls) ∧
      (q.stream gated attempt e events streamError s).state.calls = s.calls := by
  induction events generalizing streamError s with
  | nil => exact ⟨steady_finish .., state_finish ..⟩
  | cons event rest ih =>
      refine ⟨fun s' => ?_, rfl⟩
      obtain ⟨h₁, h₂⟩ := ih (streamError || event.isError) s'
      exact ⟨calls_leave gated s', h₂, h₁⟩

/-- No replica is called after the first event. -/
theorem Serves.steady {attempt left : ℕ} {tried called : List String} {s : Server}
    {final : Option BackendEntry} (h : Serves q attempt tried left s called final)
    (gated : Bool) (lastError : Option BackendError) :
    (q.attempts gated attempt tried lastError left s).Steady (·.calls) := by
  induction h generalizing lastError with
  | exhausted => trivial
  | refused hsel =>
      simp only [attempts, hsel]
      trivial
  | @served attempt left tried s s' e hsel hr =>
      simp only [attempts, hsel]
      cases hev : (q.behave e.name).events with
      | cons event rest => exact (steady_stream gated attempt e (event :: rest) false _).1
      | nil =>
          unfold Behaviour.retries at hr
          rw [hev] at hr
          cases hen : (q.behave e.name).ending with
          | normal => trivial
          | exception text => trivial
          | backendError exc =>
              rw [hen] at hr
              simp only at hr
              simp only [hr, Bool.false_eq_true, if_false]
              trivial
  | retried hsel hb hr _ ih =>
      simp only [attempts, hsel, hb, hr, if_true]
      exact ih _

end Request

/-! ## §4  The concurrency slot -/

/-- A tenant's in-flight count; 0 without a limiter. -/
def Server.inFlight (tenant : String) (s : Server) : ℕ :=
  ((s.limiters tenant).map (·.inFlight)).getD 0

theorem Server.inFlight_congr {s s' : Server} (h : s'.limiters = s.limiters)
    (tenant : String) : s'.inFlight tenant = s.inFlight tenant := by
  unfold Server.inFlight
  rw [h]

namespace Request

variable (q : Request)

/-- Whose slot the generator holds, if it passed a gate. -/
def holder (gated : Bool) : Option String := if gated then some q.req.tenantId else none

variable {q}

theorem moves_of_limiters {s s' : Server} (h : s'.limiters = s.limiters)
    (x : Option String) : Moves Server.inFlight x x s s' := by
  intro u
  rw [Server.inFlight_congr h]

/-- Leaving the gate gives back what the generator holds. -/
theorem moves_leave {gated : Bool} {s : Server}
    (h : ∀ u, held (q.holder gated) u ≤ s.inFlight u) :
    Moves Server.inFlight (q.holder gated) none s (q.leave gated s) := by
  intro u
  unfold leave Server.leaveGate holder
  cases gated with
  | false => rfl
  | true =>
      have hu := h u
      simp only [holder, if_true, held, Option.some_inj, reduceCtorEq, if_false,
        Nat.add_zero] at hu ⊢
      unfold Server.inFlight at hu ⊢
      simp only [Function.update_apply]
      by_cases htu : q.req.tenantId = u
      · subst htu
        simp only [if_true] at hu ⊢
        cases hl : s.limiters q.req.tenantId with
        | none =>
            rw [hl] at hu
            cases hu
        | some l =>
            rw [hl] at hu
            simp only [Option.map_some, Option.getD_some, TenantLimiter.releaseSlot] at hu ⊢
            omega
      · simp only [if_neg htu, if_neg (Ne.symm htu), Nat.add_zero]

/-- Leaving the gate after steps that left the limiters alone. -/
theorem moves_end {gated : Bool} {s s' : Server}
    (h : ∀ u, held (q.holder gated) u ≤ s.inFlight u) (hl : s'.limiters = s.limiters) :
    Moves Server.inFlight (q.holder gated) none s (q.leave gated s') := by
  refine (moves_of_limiters hl _).trans (moves_leave fun u => ?_)
  rw [Server.inFlight_congr hl]
  exact h u

theorem counts_finish {gated : Bool} {s : Server}
    (h : ∀ u, held (q.holder gated) u ≤ s.inFlight u) (attempt : ℕ) (e : BackendEntry)
    (streamError : Bool) :
    (q.finish gated attempt e streamError s).Counts Server.inFlight (q.holder gated)
      (q.holder gated) s := by
  unfold finish
  cases (q.behave e.name).ending with
  | normal => exact moves_end h (calls_ended ..).1
  | backendError exc =>
      exact ⟨moves_of_limiters (calls_failed ..).1 _, fun s' hs' =>
        ⟨moves_leave hs', moves_leave hs'⟩⟩
  | exception text =>
      exact ⟨moves_of_limiters (calls_failed ..).1 _, fun s' hs' =>
        ⟨moves_leave hs', moves_leave hs'⟩⟩

theorem counts_stream {gated : Bool} {s : Server}
    (h : ∀ u, held (q.holder gated) u ≤ s.inFlight u) (attempt : ℕ) (e : BackendEntry)
    (events : List TokenEvent) (streamError : Bool) :
    (q.stream gated attempt e events streamError s).Counts Server.inFlight
      (q.holder gated) (q.holder gated) s := by
  induction events generalizing streamError s with
  | nil => exact counts_finish h attempt e streamError
  | cons event rest ih =>
      exact ⟨moves_of_limiters rfl _, fun s' hs' =>
        ⟨moves_leave hs', ih hs' (streamError || event.isError)⟩⟩

theorem Serves.counts {attempt left : ℕ} {tried called : List String} {s : Server}
    {final : Option BackendEntry} (hserves : Serves q attempt tried left s called final)
    {gated : Bool} (h : ∀ u, held (q.holder gated) u ≤ s.inFlight u)
    (lastError : Option BackendError) :
    (q.attempts gated attempt tried lastError left s).Counts Server.inFlight
      (q.holder gated) (q.holder gated) s := by
  induction hserves generalizing lastError with
  | exhausted => exact moves_leave h
  | refused hsel =>
      simp only [attempts, hsel]
      exact moves_end h (limiters_of_select hsel).1
  | @served attempt left tried s s' e hsel hr =>
      simp only [attempts, hsel]
      have hl : (s'.call q.req.model q.req.requestId e).limiters = s.limiters :=
        (limiters_of_select hsel).1
      cases hev : (q.behave e.name).events with
      | cons event rest =>
          refine Counts.of_moves (moves_of_limiters hl _) (counts_stream (fun u => ?_) ..)
          rw [Server.inFlight_congr hl]
          exact h u
      | nil =>
          unfold Behaviour.retries at hr
          rw [hev] at hr
          cases hen : (q.behave e.name).ending with
          | normal => exact moves_end h ((calls_ended ..).1.trans hl)
          | exception text => exact moves_end h ((calls_failed ..).1.trans hl)
          | backendError exc =>
              rw [hen] at hr
              simp only at hr
              simp only [hr, Bool.false_eq_true, if_false]
              exact moves_end h ((calls_failed ..).1.trans hl)
  | @retried attempt left tried called s s' e exc final hsel hb hr _ ih =>
      simp only [attempts, hsel, hb, hr, if_true]
      have hl : (q.failed attempt e exc (s'.call q.req.model q.req.requestId e)).limiters =
          s.limiters := (calls_failed ..).1.trans (limiters_of_select hsel).1
      refine Counts.of_moves (moves_of_limiters hl _) (ih (fun u => ?_) (some exc))
      rw [Server.inFlight_congr hl]
      exact h u

/-- Taking a slot. -/
theorem moves_acquire {s : Server} {tenant : String} {l l' : TenantLimiter}
    (hl : s.limiters tenant = some l) (hl' : l.tryAcquireSlot = some l') :
    Moves Server.inFlight none (some tenant) s (s.setLimiter tenant l') := by
  intro u
  unfold TenantLimiter.tryAcquireSlot at hl'
  split at hl'
  · obtain rfl := Option.some_inj.mp hl'
    unfold Server.inFlight Server.setLimiter
    simp only [Function.update_apply, held, Option.some_inj, reduceCtorEq, if_false]
    by_cases hu : u = tenant
    · subst hu
      simp only [if_true, Option.map_some, Option.getD_some, hl]
    · simp only [if_neg hu, if_neg (Ne.symm hu), Nat.add_zero]
  · cases hl'

/-- Counting a refusal leaves the slots. -/
theorem moves_reject {s : Server} {tenant : String} {l : TenantLimiter}
    (hl : s.limiters tenant = some l) :
    Moves Server.inFlight none none s (s.setLimiter tenant l.reject) := by
  intro u
  unfold Server.inFlight Server.setLimiter
  simp only [Function.update_apply]
  by_cases hu : u = tenant
  · subst hu
    simp only [if_true, hl]
    rfl
  · simp only [if_neg hu]

variable (q) in
/-- A request of a limited tenant holds one of its slots at every yield. -/
theorem counts_generate (s : Server) :
    (q.generate s).Counts Server.inFlight
      (q.holder (s.limiters q.req.tenantId).isSome) none s := by
  unfold generate
  cases hl : s.limiters q.req.tenantId with
  | none =>
      obtain ⟨called, final, hs⟩ := exists_serves q 1 q.maxAttempts [] s
      exact hs.counts (fun u => Nat.zero_le _) none
  | some l =>
      simp only [Option.isSome_some]
      cases hacq : l.tryAcquireSlot with
      | none => exact moves_reject hl
      | some l' =>
          have hm := moves_acquire hl hacq
          obtain ⟨called, final, hs⟩ :=
            exists_serves q 1 q.maxAttempts [] (s.setLimiter q.req.tenantId l')
          refine Counts.of_moves hm (hs.counts (fun u => ?_) none)
          have hu := hm u
          have hnone : held (none : Option String) u = 0 := rfl
          simp only [holder, if_true]
          omega

end Request

end TurboServe.Gateway
