import TurboServe.Lib.Transition

/-!
# The in-process engine

`gateway/backends/local_engine.py`: the engine is built on first use, under a lock and in
a worker thread, and closed by `close`, which does not take the lock. A call of `generate`
is where its last await left it.
-/

namespace TurboServe.Gateway

open TurboServe.Lib

inductive EngineStatus where
  | live
  | closing
  | closed
deriving DecidableEq

/-- What a call of `generate` awaits. -/
inductive Phase where
  /-- the lock -/
  | queued
  /-- the worker thread that loads the model, with the lock -/
  | loading
  /-- `start` of an engine that was there, without the lock -/
  | starting (engine : ℕ)
  /-- `start` of an engine found under the lock -/
  | restarting (engine : ℕ)
  /-- `start` of the engine it has built, with the lock -/
  | storing (engine : ℕ)
  | generating (engine : ℕ)
  | ended
deriving DecidableEq

/-- The call is inside `async with self._lock`. -/
def Phase.holds : Phase → Bool
  | .loading | .restarting _ | .storing _ => true
  | _ => false

/-- An engine on which a call started to generate, and whether a `close` had returned. -/
structure Start where
  engine : ℕ
  afterClose : Bool
deriving DecidableEq

/-- The backend, every engine that was built, and the calls in flight: `generate` as
phases, and `close` as the engines it awaits. -/
structure LocalEngine where
  engine : Option ℕ
  closed : Bool
  locked : Bool
  engines : List EngineStatus
  calls : List Phase
  closing : List ℕ
  closeReturned : Bool
  starts : List Start
deriving DecidableEq

namespace LocalEngine

/-- Built without an engine. -/
def init : LocalEngine := ⟨none, false, false, [], [], [], false, []⟩

variable (s : LocalEngine)

def goTo (i : ℕ) (c : Phase) : LocalEngine := { s with calls := s.calls.set i c }

def unlock : LocalEngine := { s with locked := false }

/-- `engine.generate`, which a closed engine refuses. -/
def generate (i e : ℕ) : LocalEngine :=
  if s.engines[e]? = some .live then
    { s.goTo i (.generating e) with starts := s.starts ++ [⟨e, s.closeReturned⟩] }
  else s.goTo i .ended

/-- `_ensure_engine` up to its first await. -/
def call : LocalEngine :=
  if s.closed then s
  else
    match s.engine with
    | some e => { s with calls := s.calls ++ [.starting e] }
    | none => { s with calls := s.calls ++ [.queued] }

/-- The lock is taken, and only then is the engine looked at again. -/
def acquire (i : ℕ) : LocalEngine :=
  if s.calls[i]? = some .queued ∧ s.locked = false then
    match s.engine with
    | some e => { s.goTo i (.restarting e) with locked := true }
    | none => { s.goTo i .loading with locked := true }
  else s

/-- The worker thread is done: with an engine, or with an exception. -/
def loaded (i : ℕ) (ok : Bool) : LocalEngine :=
  if s.calls[i]? = some .loading then
    if ok then
      { s.goTo i (.storing s.engines.length) with engines := s.engines ++ [.live] }
    else (s.goTo i .ended).unlock
  else s

/-- `start` is done; it raises on a closed engine. -/
def started (i : ℕ) : LocalEngine :=
  match s.calls[i]? with
  | some (.starting e) => s.generate i e
  | some (.restarting e) =>
      if s.engines[e]? = some .live then
        -- the attribute is read again
        match s.engine with
        | some e' => s.unlock.generate i e'
        | none => s.unlock.goTo i .ended
      else s.unlock.goTo i .ended
  | some (.storing e) =>
      if s.engines[e]? = some .live then
        { s.unlock with engine := some e }.generate i e
      else s.unlock.goTo i .ended
  | _ => s

/-- The stream is over. -/
def finish (i : ℕ) : LocalEngine :=
  match s.calls[i]? with
  | some (.generating _) => s.goTo i .ended
  | _ => s

/-- `close` up to its await. -/
def close : LocalEngine :=
  if s.closed then { s with closeReturned := true }
  else
    match s.engine with
    | none => { s with closed := true, closeReturned := true }
    | some e =>
        { s with
          closed := true, engine := none
          engines := s.engines.set e .closing, closing := s.closing ++ [e] }

/-- The engine's `close` is done. -/
def closeDone (j : ℕ) : LocalEngine :=
  match s.closing[j]? with
  | some e =>
      { s with
        engines := s.engines.set e .closed, closing := s.closing.eraseIdx j
        closeReturned := true }
  | none => s

inductive Input where
  | call
  | acquire (i : ℕ)
  | loaded (i : ℕ) (ok : Bool)
  | started (i : ℕ)
  | finish (i : ℕ)
  | close
  | closeDone (j : ℕ)

def step : Input → LocalEngine
  | .call => s.call
  | .acquire i => s.acquire i
  | .loaded i ok => s.loaded i ok
  | .started i => s.started i
  | .finish i => s.finish i
  | .close => s.close
  | .closeDone j => s.closeDone j

end LocalEngine

/-- The runs of a backend whose steps meet `P`. -/
def localRuns (P : LocalEngine → LocalEngine.Input → Prop) : TransitionSystem LocalEngine where
  init s := s = .init
  step s s' := ∃ input, P s input ∧ s' = s.step input

theorem localRuns_foldl {P : LocalEngine → LocalEngine.Input → Prop}
    (hP : ∀ s input, P s input) {s : LocalEngine} (h : (localRuns P).Reachable s)
    (inputs : List LocalEngine.Input) :
    (localRuns P).Reachable (inputs.foldl (fun s input => s.step input) s) := by
  induction inputs generalizing s with
  | nil => exact h
  | cons input rest ih => exact ih (.step h ⟨input, hP s input, rfl⟩)

end TurboServe.Gateway
