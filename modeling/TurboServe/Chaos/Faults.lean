import Mathlib.Data.Prod.Lex
import Mathlib.Data.List.Lex
import Mathlib.Data.Char
import Mathlib.Algebra.Order.Floor.Ring
import Mathlib.Data.Rat.Floor
import Mathlib.Order.Interval.Finset.Nat

/-!
# Fault schedules

`chaos/faults.py`: what a fault must satisfy, and the expansion of a schedule into a timeline
of actions on the replicas of a fleet, with the windows in which it leaves no replica serving.
What the fields of a fault are checked for makes sense of any numbers that compare; the
timeline has rational moments.
-/

namespace TurboServe.Chaos

/-! ## §1  Faults -/

inductive FaultKind : Type where
  | kill
  | latency
  | error
  | partition
deriving DecidableEq

/-- The comparisons of a number of seconds, milliseconds or a probability. -/
class Comparable (F : Type) where
  ofNat : ℕ → F
  lt : F → F → Bool
  le : F → F → Bool

instance : Comparable ℚ where
  ofNat n := n
  lt a b := decide (a < b)
  le a b := decide (a ≤ b)

section Checked

variable {F : Type} [Comparable F]

open Comparable

/-- Seconds between a replica being killed and being started again. -/
def defaultRestartDelayS (F : Type) [Comparable F] : F := ofNat 2

/-- Seconds of drain before the kill. -/
def defaultGraceS (F : Type) [Comparable F] : F := ofNat 0

/-- One fault specification, before it is checked. -/
structure FaultFields (F : Type) [Comparable F] where
  kind : FaultKind
  everyS : Option F := none
  startS : Option F := none
  atS : Option F := none
  forS : Option F := none
  restartDelayS : F := defaultRestartDelayS F
  graceS : F := defaultGraceS F
  probability : F := ofNat 0
  latencyMs : F := ofNat 0
  target : Option (List Char) := none
  raw : List Char := []
deriving DecidableEq

/-- What is wrong with a fault, or with what a schedule is expanded for. -/
inductive FaultError : Type where
  | negativeDelay
  | probabilityRange
  | killEvery
  | killStart
  | partitionAt
  | partitionFor
  | latencyMs
  | latencyProbability
  | errorProbability
  | duration
  | noWorkers
  | unknownWorker (target : List Char) (workers : List (List Char))
deriving DecidableEq

/-- `__post_init__` -/
def FaultFields.check (f : FaultFields F) : Option FaultError :=
  if lt f.restartDelayS (ofNat 0) || lt f.graceS (ofNat 0) then some .negativeDelay
  else if !(le (ofNat 0) f.probability && le f.probability (ofNat 1)) then some .probabilityRange
  else
    match f.kind with
    | .kill =>
        if f.everyS.all fun every => le every (ofNat 0) then some .killEvery
        else if f.startS.any fun start => lt start (ofNat 0) then some .killStart
        else none
    | .partition =>
        if f.atS.isNone then some .partitionAt
        else if f.forS.all fun length => le length (ofNat 0) then some .partitionFor
        else none
    | .latency =>
        if le f.latencyMs (ofNat 0) then some .latencyMs
        else if le f.probability (ofNat 0) then some .latencyProbability
        else none
    | .error => if le f.probability (ofNat 0) then some .errorProbability else none

/-- A fault that was accepted. -/
structure Fault (F : Type) [Comparable F] extends FaultFields F where
  accepted : toFaultFields.check = none

/-- An ordered set of faults, with at most one of the kinds that are simply on. -/
structure FaultSchedule (F : Type) [Comparable F] where
  faults : List (Fault F)
  single : ∀ kind ∈ [FaultKind.latency, .error], faults.countP (·.kind = kind) ≤ 1

end Checked

/-! ## §2  The timeline -/

inductive FaultAction : Type where
  | drain
  | kill
  | restart
  | partitionStart
  | partitionEnd
deriving DecidableEq

/-- Tie-break order of events with one moment: recoveries come before disruptions. -/
def FaultAction.order : FaultAction → ℕ
  | .restart => 0
  | .partitionEnd => 1
  | .drain => 2
  | .kill => 3
  | .partitionStart => 4

/-- The actions that make a replica unable to take new traffic; the others undo them. -/
def FaultAction.isDown : FaultAction → Bool
  | .drain | .kill | .partitionStart => true
  | .restart | .partitionEnd => false

/-- One dated instruction. -/
structure FaultEvent where
  tS : ℚ
  action : FaultAction
  target : List Char
  kind : FaultKind
deriving DecidableEq

/-- A seeded generator: `randrange k n` is its draw number `k`, out of `n` values. -/
structure Generator where
  randrange : ℕ → ℕ → ℕ
  randrange_lt : ∀ k n, 0 < n → randrange k n < n

namespace FaultSchedule

/-- When a fault first fires. -/
def firstAtS (f : FaultFields ℚ) : ℚ :=
  match f.kind, f.everyS with
  | .kill, some every => f.startS.getD every
  | _, _ => f.atS.getD 0

/-- `fault.target or other` -/
def orTarget (target : Option (List Char)) (other : List Char) : List Char :=
  match target with
  | some (c :: cs) => c :: cs
  | _ => other

/-- The events of one kill. -/
def killOnce (f : FaultFields ℚ) (target : List Char) (moment : ℚ) : List FaultEvent :=
  let killedAt := moment + f.graceS
  (if 0 < f.graceS then [⟨moment, .drain, target, f.kind⟩] else []) ++
    [⟨killedAt, .kill, target, f.kind⟩, ⟨killedAt + f.restartDelayS, .restart, target, f.kind⟩]

/-- The loop of `_kill_events` over the occurrences, while `moment` is before the end. -/
def killLoop (f : FaultFields ℚ) (everyS durationS : ℚ) (workers : List (List Char))
    (offset : ℕ) : ℕ → ℕ → ℚ → List FaultEvent
  | 0, _, _ => []
  | fuel + 1, occurrence, moment =>
      if moment < durationS then
        let target := orTarget f.target (workers.getD ((offset + occurrence) % workers.length) [])
        killOnce f target moment ++
          killLoop f everyS durationS workers offset fuel (occurrence + 1) (moment + everyS)
      else []

/-- `_kill_events`; the occurrences before the end are `⌈(durationS - first) / everyS⌉`. -/
def killEvents (f : FaultFields ℚ) (durationS : ℚ) (workers : List (List Char)) (offset : ℕ) :
    List FaultEvent :=
  match f.everyS with
  | none => []
  | some everyS =>
      if everyS ≤ 0 then []
      else
        killLoop f everyS durationS workers offset ⌈(durationS - firstAtS f) / everyS⌉₊ 0
          (firstAtS f)

/-- `_partition_events`, and the draws made by then. -/
def partitionEvents (f : FaultFields ℚ) (durationS : ℚ) (workers : List (List Char))
    (rng : Generator) (draws : ℕ) : List FaultEvent × ℕ :=
  match f.atS, f.forS with
  | some atS, some forS =>
      if durationS ≤ atS then ([], draws)
      else
        let target := orTarget f.target (workers.getD (rng.randrange draws workers.length) [])
        let drawn := if f.target.all (· = []) then 1 else 0
        ([⟨atS, .partitionStart, target, f.kind⟩, ⟨atS + forS, .partitionEnd, target, f.kind⟩],
          draws + drawn)
  | _, _ => ([], draws)

/-- The loop of `events` over the faults, `draws` being the draws made so far. -/
def expand (durationS : ℚ) (workers : List (List Char)) (rng : Generator) :
    List (Fault ℚ) → ℕ → Except FaultError (List FaultEvent)
  | [], _ => .ok []
  | f :: fs, draws =>
      if f.target.any fun target => decide (target ∉ workers) then
        .error (.unknownWorker (f.target.getD []) workers)
      else
        match f.kind with
        | .kill => do
            let rest ← expand durationS workers rng fs (draws + 1)
            .ok (killEvents f.toFaultFields durationS workers
              (rng.randrange draws workers.length) ++ rest)
        | .partition => do
            let drawn := partitionEvents f.toFaultFields durationS workers rng draws
            let rest ← expand durationS workers rng fs drawn.2
            .ok (drawn.1 ++ rest)
        | _ => expand durationS workers rng fs draws

/-- The order of the timeline. -/
def before (a b : FaultEvent) : Bool :=
  decide (toLex (a.tS, toLex (a.action.order, a.target)) ≤
    toLex (b.tS, toLex (b.action.order, b.target)))

/-- `events` -/
def events (s : FaultSchedule ℚ) (durationS : ℚ) (workers : List (List Char))
    (rng : Generator) : Except FaultError (List FaultEvent) :=
  if durationS ≤ 0 then .error .duration
  else if workers = [] then .error .noWorkers
  else do
    let expanded ← expand durationS workers rng s.faults 0
    .ok (expanded.mergeSort before)

end FaultSchedule

/-! ## §3  Outages -/

/-- The loop of `outage_windows`. -/
structure OutageState where
  windows : List (ℚ × ℚ) := []
  down : Finset (List Char) := ∅
  started : Option ℚ := none

def outageStep (fleet : ℕ) (s : OutageState) (event : FaultEvent) : OutageState :=
  let down := if event.action.isDown then insert event.target s.down else s.down.erase event.target
  match s.started with
  | none =>
      if fleet ≤ down.card then { s with down := down, started := some event.tS }
      else { s with down := down }
  | some start =>
      if down.card < fleet then ⟨s.windows ++ [(start, event.tS)], down, none⟩
      else { s with down := down }

/-- The order in which `outage_windows` takes the events. -/
def outageBefore (a b : FaultEvent) : Bool :=
  decide (toLex (a.tS, a.action.order) ≤ toLex (b.tS, b.action.order))

/-- `outage_windows`; the loop ends at the first event past the end. -/
def outageWindows (events : List FaultEvent) (workers : List (List Char)) (durationS : ℚ) :
    List (ℚ × ℚ) :=
  if workers = [] then []
  else
    let ordered := (events.mergeSort outageBefore).takeWhile
      fun event => decide (event.tS ≤ durationS)
    let s := ordered.foldl (outageStep workers.toFinset.card) {}
    match s.started with
    | some start => s.windows ++ [(start, durationS)]
    | none => s.windows

end TurboServe.Chaos
