import TurboServe.Bench.Metrics
import Mathlib.Data.Prod.Lex

/-!
# Impaired windows

`chaos/harness.py`: merging the disruption windows of a run, and telling the records sent
inside one from the rest. The code only compares times, so they are the elements of any linear
order; a bound that is `nan` makes `end > start` false, and the interval is left out.
-/

namespace TurboServe.Chaos

open TurboServe.Bench (RequestRecord)

section Windows

variable {α : Type*} [LinearOrder α]

/-- The next interval in the order of their starts. -/
def mergeOne (merged : List (α × α)) (w : α × α) : List (α × α) :=
  match merged.getLast? with
  | none => merged ++ [w]
  | some last =>
      if w.1 ≤ last.2 then merged.dropLast ++ [(last.1, max last.2 w.2)] else merged ++ [w]

/-- Merge overlapping intervals, so that an impaired second is counted once. -/
def mergeWindows (windows : List (α × α)) : List (α × α) :=
  let ordered := (windows.filter fun w => w.1 < w.2).mergeSort
    fun a b => decide (toLex a ≤ toLex b)
  ordered.foldl mergeOne []

variable (seconds : ℤ → α)

/-- One record goes to those sent inside a window, or to the rest. -/
def classify (windows : List (α × α)) (t0Ns : ℤ) (split : List RequestRecord × List RequestRecord)
    (record : RequestRecord) : List RequestRecord × List RequestRecord :=
  let offsetS := seconds (record.tSendNs - t0Ns)
  if windows.any fun w => decide (w.1 ≤ offsetS ∧ offsetS < w.2) then
    (split.1 ++ [record], split.2)
  else (split.1, split.2 ++ [record])

/-- The records sent inside a window and the rest; `seconds` divides by `NS_PER_S`. -/
def splitByWindows (records : List RequestRecord) (windows : List (α × α)) (t0Ns : ℤ) :
    List RequestRecord × List RequestRecord :=
  if windows = [] ∨ records = [] then ([], records)
  else records.foldl (classify seconds windows t0Ns) ([], [])

end Windows

end TurboServe.Chaos
