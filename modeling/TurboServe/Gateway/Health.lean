import TurboServe.Lib.Transition
import TurboServe.Gateway.Router

/-!
# Health probes in flight

`gateway/router.py`: refreshing a pool awaits one probe after the other, and several
calls do so at once. Between two awaits of one call, other calls apply their verdicts,
and requests that fail on a replica take it out. The log says what happened in which
order; nothing in the router reads it.
-/

namespace TurboServe.Gateway

open TurboServe.Lib

/-- What happened to a replica. A verdict names the place of its probe's start. -/
inductive HealthEvent where
  | probed (name : String)
  | verdict (begun : ℕ) (name : String) (healthy : Bool)
  | failed (name : String)
  | returned (name : String)
deriving DecidableEq

/-- What a pool is refreshed for: to select a replica, or for a report. -/
inductive Purpose where
  | select (lane : Option Lane) (exclude : List String)
  | report

/-- A refresh that awaits the probe of `name`, with the time it started at and the
replicas it has not looked at yet. -/
structure Refresh where
  now : ℚ
  purpose : Purpose
  name : String
  begun : ℕ
  rest : List String

structure Health where
  pool : ModelPool
  refreshes : List Refresh
  log : List HealthEvent

namespace Health

variable (ttl : ℚ) (s : Health)

def record (e : HealthEvent) : Health := { s with log := s.log ++ [e] }

def isFresh (now : ℚ) (name : String) : Bool :=
  s.pool.entries.any fun e => e.name = name ∧ e.isFresh now ttl

/-- The probe of a replica is started. -/
def probe (now : ℚ) (purpose : Purpose) (name : String) (rest : List String) : Health :=
  { s with
    refreshes := s.refreshes ++ [⟨now, purpose, name, s.log.length, rest⟩]
    log := s.log ++ [.probed name] }

/-- Choose, once no replica is left to refresh. -/
def choose (o : Outside) : Purpose → Health
  | .report => s
  | .select lane exclude =>
      match selectFrom o lane exclude s.pool with
      | some e => s.record (.returned e.name)
      | none => s

/-- A refresh up to its next await. -/
def proceed (o : Outside) (now : ℚ) (purpose : Purpose) (names : List String) : Health :=
  match names.dropWhile (s.isFresh ttl now) with
  | name :: rest => s.probe now purpose name rest
  | [] => s.choose o purpose

/-- A probe returned, or raised, which counts as unhealthy. -/
def applyVerdict (i : ℕ) (r : Refresh) (healthy : Bool) : Health where
  pool := s.pool.updateNamed r.name (fun e =>
    { e with
      healthy := healthy, checkedAt := some r.now
      consecutiveFailures := if healthy then 0 else e.consecutiveFailures }) fun _ => rfl
  refreshes := s.refreshes.eraseIdx i
  log := s.log ++ [.verdict r.begun r.name healthy]

/-- `_mark_failure` -/
def markFailure (name : String) (exc : BackendError) (at_ : ℚ) : Health :=
  if exc.cls.isNonRetryable then s
  else
    { s with
      pool := s.pool.updateNamed name (fun e =>
        { e with
          consecutiveFailures := e.consecutiveFailures + 1
          healthy := false, checkedAt := some at_ }) fun e => Eq.refl e.name
      log := s.log ++ [.failed name] }

/-- What the requests and the probes of a pool do, in any order. -/
inductive Input where
  | refresh (o : Outside) (purpose : Purpose)
  | verdict (i : ℕ) (healthy : Bool) (o : Outside)
  | cancel (i : ℕ)
  | failure (name : String) (exc : BackendError) (at_ : ℚ)
  | call (name : String)
  | complete (name : String)

def step : Input → Health
  | .refresh o purpose => s.proceed ttl o o.now purpose (s.pool.entries.map (·.name))
  | .verdict i healthy o =>
      match s.refreshes[i]? with
      | some r => (s.applyVerdict i r healthy).proceed ttl o r.now r.purpose r.rest
      | none => s
  | .cancel i => { s with refreshes := s.refreshes.eraseIdx i }
  | .failure name exc at_ => s.markFailure name exc at_
  | .call name =>
      { s with
        pool := s.pool.updateNamed name (fun e => { e with served := e.served + 1 })
          fun e => Eq.refl e.name }
  | .complete name =>
      { s with
        pool := s.pool.updateNamed name (fun e => { e with consecutiveFailures := 0 })
          fun e => Eq.refl e.name }

/-- Any pool, before anything happened. -/
def start (pool : ModelPool) : Health := ⟨pool, [], []⟩

end Health

/-- The runs of a pool whose steps meet `P`. -/
def healthRuns (ttl : ℚ) (P : Health → Health.Input → Prop) : TransitionSystem Health where
  init s := ∃ pool, s = .start pool
  step s s' := ∃ input, P s input ∧ s' = s.step ttl input

theorem healthRuns_foldl {ttl : ℚ} {P : Health → Health.Input → Prop}
    (hP : ∀ s input, P s input) {s : Health} (h : (healthRuns ttl P).Reachable s)
    (inputs : List Health.Input) :
    (healthRuns ttl P).Reachable (inputs.foldl (fun s input => s.step ttl input) s) := by
  induction inputs generalizing s with
  | nil => exact h
  | cons input rest ih => exact ih (.step h ⟨input, hP s input, rfl⟩)

end TurboServe.Gateway
