import Mathlib.Data.List.Basic

/-!
# Reading until stopped

A loop over a list that folds each item into a state and may stop at an item, leaving the
rest unread. The rules: a stretch that stops nowhere is a fold, and what comes after it is
read from the state it leaves.
-/

namespace TurboServe.Lib

variable {α σ ε : Type*}

/-- Read a list; the second component is why reading stopped, if it did. -/
def readUntil (step : σ → α → Except ε σ) : List α → σ → σ × Option ε
  | [], s => (s, none)
  | x :: xs, s =>
      match step s x with
      | .ok s' => readUntil step xs s'
      | .error e => (s, some e)

namespace readUntil

variable {step : σ → α → Except ε σ}

theorem cons_ok {s s' : σ} {x : α} (h : step s x = .ok s') (xs : List α) :
    readUntil step (x :: xs) s = readUntil step xs s' := by
  rw [readUntil, h]

theorem cons_error {s : σ} {x : α} {e : ε} (h : step s x = .error e) (xs : List α) :
    readUntil step (x :: xs) s = (s, some e) := by
  rw [readUntil, h]

/-- A stretch whose items all go through is a fold, and reading goes on behind it. -/
theorem append_of_ok {f : σ → α → σ} (pre : List α)
    (h : ∀ x ∈ pre, ∀ s, step s x = .ok (f s x)) (rest : List α) (s : σ) :
    readUntil step (pre ++ rest) s = readUntil step rest (pre.foldl f s) := by
  induction pre generalizing s with
  | nil => rfl
  | cons x pre ih =>
      rw [List.cons_append, cons_ok (h x List.mem_cons_self s)]
      exact ih (fun y hy => h y (List.mem_cons_of_mem _ hy)) (f s x)

/-- Reading ends with a list whose items all go through. -/
theorem of_ok {f : σ → α → σ} (xs : List α) (h : ∀ x ∈ xs, ∀ s, step s x = .ok (f s x))
    (s : σ) : readUntil step xs s = (xs.foldl f s, none) := by
  have happ := append_of_ok xs h [] s
  rw [List.append_nil] at happ
  exact happ

/-- Reading ends at the first item that stops it. -/
theorem of_stop {f : σ → α → σ} (pre : List α)
    (h : ∀ x ∈ pre, ∀ s, step s x = .ok (f s x)) {y : α} {e : ε}
    (hy : ∀ s, step s y = .error e) (rest : List α) (s : σ) :
    readUntil step (pre ++ y :: rest) s = (pre.foldl f s, some e) := by
  rw [append_of_ok pre h, cons_error (hy _)]

/-- What each step keeps, reading keeps. -/
theorem keeps {P : σ → Prop} (hstep : ∀ s x s', step s x = .ok s' → P s → P s')
    (xs : List α) (s : σ) (hs : P s) : P (readUntil step xs s).1 := by
  induction xs generalizing s with
  | nil => exact hs
  | cons x xs ih =>
      cases hx : step s x with
      | error e =>
          rw [cons_error hx]
          exact hs
      | ok s' =>
          rw [cons_ok hx]
          exact ih s' (hstep s x s' hx hs)

end readUntil

end TurboServe.Lib
