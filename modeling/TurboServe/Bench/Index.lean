import Mathlib.Logic.Function.Basic

/-!
# The results index

`append_to_index` of `bench/records.py`, called by any number of processes at once: the lock
file, the index, and a temporary file for each call. The text of a file stands for what
`json.loads` makes of it; `flock` is exclusive and goes with the process that holds it, and
`os.replace` is atomic.
-/

namespace TurboServe.Bench

variable {ι D : Type}

/-! ## §1  Files -/

/-- The text of a file; an item of an array is an object or something else. -/
inductive FileText (D : Type) : Type where
  | array (items : List (Option D))
  | notArray
  | notJson
deriving DecidableEq

/-- `json.dumps` of a list of objects. -/
def dumps (entries : List D) : FileText D := .array (entries.map some)

/-- `_read_index` on the text of an index that exists. -/
def readEntries : FileText D → List D
  | .array items => items.filterMap id
  | .notArray => []
  | .notJson => []

/-! ## §2  Calls -/

/-- How far a call has come. -/
inductive CallPhase (D : Type) : Type where
  | idle
  /-- The lock file is open. -/
  | opened
  | locked
  /-- The index exists. -/
  | found
  | entriesRead (entries : List D)
  /-- The temporary file is there and empty; `entries` is what is to be written. -/
  | created (entries : List D)
  | written
  /-- Past the replace, or past a failure, with the lock still held. -/
  | leaving (failed : Bool)
  | returned
  | raised
  | dead
deriving DecidableEq

/-- The index, its lock, and for each call its phase and its temporary file. -/
structure IndexState (ι D : Type) where
  index : Option (FileText D)
  holder : Option ι
  phase : ι → CallPhase D
  temp : ι → Option (FileText D)

/-- The steps of a call. -/
inductive CallStep : Type where
  | openLock
  | lock
  | check
  | read
  | create
  | write
  | replace
  | unlock
  /-- An exception. -/
  | fail
  /-- The death of the process. -/
  | die
deriving DecidableEq

namespace IndexState

variable [DecidableEq ι] (entry : ι → D) (s : IndexState ι D)

/-- Before any call. -/
def before (index : Option (FileText D)) : IndexState ι D where
  index := index
  holder := none
  phase := fun _ => .idle
  temp := fun _ => none

def enter (i : ι) (p : CallPhase D) : IndexState ι D :=
  { s with phase := Function.update s.phase i p }

def setTemp (i : ι) (text : Option (FileText D)) : IndexState ι D :=
  { s with temp := Function.update s.temp i text }

/-- One step of call `i`, if it can be taken. -/
def perform (i : ι) (a : CallStep) : Option (IndexState ι D) :=
  match s.phase i, a with
  | .idle, .openLock => some (s.enter i .opened)
  | .opened, .lock =>
      if s.holder = none then some ({ s with holder := some i }.enter i .locked) else none
  | .locked, .check => some (s.enter i (if s.index.isSome then .found else .entriesRead []))
  | .found, .read => s.index.map fun text => s.enter i (.entriesRead (readEntries text))
  | .entriesRead entries, .create =>
      some ((s.setTemp i (some .notJson)).enter i (.created (entries ++ [entry i])))
  | .created entries, .write => some ((s.setTemp i (some (dumps entries))).enter i .written)
  | .written, .replace =>
      some (({ s with index := s.temp i }.setTemp i none).enter i (.leaving false))
  | .leaving failed, .unlock =>
      some ({ s with holder := none }.enter i (if failed then .raised else .returned))
  -- an exception before the lock is held, and one that unlinks and unlocks
  | .idle, .fail => some (s.enter i .raised)
  | .opened, .fail => some (s.enter i .raised)
  | .locked, .fail => some (s.enter i (.leaving true))
  | .found, .fail => some (s.enter i (.leaving true))
  | .entriesRead _, .fail => some (s.enter i (.leaving true))
  | .created _, .fail => some ((s.setTemp i none).enter i (.leaving true))
  | .written, .fail => some ((s.setTemp i none).enter i (.leaving true))
  | .returned, _ => none
  | .raised, _ => none
  | .dead, _ => none
  -- the lock goes with its holder; a temporary file stays
  | _, .die =>
      some ({ s with holder := if s.holder = some i then none else s.holder }.enter i .dead)
  | _, _ => none

/-- The states reached by a sequence of steps of any calls. -/
inductive Run (s₀ : IndexState ι D) : List (ι × CallStep) → IndexState ι D → Prop where
  | start : Run s₀ [] s₀
  | step {trace : List (ι × CallStep)} {s s' : IndexState ι D} {i : ι} {a : CallStep}
      (h : Run s₀ trace s) (hs : s.perform entry i a = some s') : Run s₀ (trace ++ [(i, a)]) s'

end IndexState

/-- The calls whose replace has happened, in the order of the replaces. -/
def replaces (trace : List (ι × CallStep)) : List ι :=
  trace.filterMap fun x => if x.2 = .replace then some x.1 else none

end TurboServe.Bench
