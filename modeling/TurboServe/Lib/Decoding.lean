import Mathlib

/-!
# Autoregressive generation

One sequence at a time: draw the next element from everything before it, stop as
soon as the stop rule fires. `autoregress` computes it; `OnPath` are the outputs
it passes through, whatever drives the generation.
-/

namespace TurboServe.Lib

variable {α β : Type*}

/-- At most `n` more rounds of generation after `out`. -/
def autoregress (next : List α → α) (stop : List α → Option β) (input : List α) :
    ℕ → List α → Option (List α × β)
  | 0, _ => none
  | n + 1, out =>
      match stop (out ++ [next (input ++ out)]) with
      | some reason => some (out ++ [next (input ++ out)], reason)
      | none => autoregress next stop input n (out ++ [next (input ++ out)])

variable {next : List α → α} {stop : List α → Option β} {input : List α}

/-- The outputs generation from `input` passes through. -/
inductive OnPath (next : List α → α) (stop : List α → Option β) (input : List α) :
    List α → Prop where
  | nil : OnPath next stop input []
  | snoc {out : List α} (h : OnPath next stop input out)
      (hgo : out = [] ∨ stop out = none) :
      OnPath next stop input (out ++ [next (input ++ out)])

/-- Generation can be taken up at any output on its path that has not stopped. -/
theorem OnPath.autoregress_eq {out : List α} (h : OnPath next stop input out)
    (hgo : out = [] ∨ stop out = none) {n : ℕ} (hn : out.length ≤ n) :
    autoregress next stop input n [] = autoregress next stop input (n - out.length) out := by
  induction h with
  | nil => rfl
  | @snoc out h hbefore ih =>
      rw [List.length_append, List.length_singleton] at hn ⊢
      have hnone : stop (out ++ [next (input ++ out)]) = none := by
        rcases hgo with hnil | hnone
        · simp at hnil
        · exact hnone
      obtain ⟨k, hk⟩ : ∃ k, n - out.length = k + 1 := ⟨n - out.length - 1, by omega⟩
      rw [ih hbefore (by omega), hk, autoregress, hnone]
      show autoregress next stop input k _ = _
      rw [show n - (out.length + 1) = k by omega]

/-- An output on the path that stops is what generation returns. -/
theorem OnPath.result {out : List α} {reason : β} (h : OnPath next stop input out)
    (hne : out ≠ []) (hstop : stop out = some reason) {n : ℕ} (hn : out.length ≤ n) :
    autoregress next stop input n [] = some (out, reason) := by
  cases h with
  | nil => exact absurd rfl hne
  | @snoc out h hbefore =>
      rw [List.length_append, List.length_singleton] at hn
      obtain ⟨k, hk⟩ : ∃ k, n - out.length = k + 1 := ⟨n - out.length - 1, by omega⟩
      rw [h.autoregress_eq hbefore (by omega), hk, autoregress, hstop]

/-- Two outputs on one path that both stop are the same. -/
theorem OnPath.unique {out out' : List α} {reason reason' : β}
    (h : OnPath next stop input out) (h' : OnPath next stop input out')
    (hne : out ≠ []) (hne' : out' ≠ []) (hstop : stop out = some reason)
    (hstop' : stop out' = some reason') : out = out' ∧ reason = reason' := by
  have hr := h.result hne hstop (Nat.le_max_left out.length out'.length)
  have hr' := h'.result hne' hstop' (Nat.le_max_right out.length out'.length)
  rw [hr] at hr'
  injection hr' with heq
  injection heq with hout hreason
  exact ⟨hout, hreason⟩

/-! ## Feeding several elements at once -/

/-- Append elements one by one until the stop rule fires; the rest is dropped. -/
def feedUntil (stop : List α → Option β) (out : List α) : List α → List α × Option β
  | [] => (out, none)
  | a :: rest =>
      match stop (out ++ [a]) with
      | some reason => (out ++ [a], some reason)
      | none => feedUntil stop (out ++ [a]) rest

/-- Each element of the list is what generation would draw at its place. -/
def Draws (next : List α → α) (input out : List α) : List α → Prop
  | [] => True
  | a :: rest => a = next (input ++ out) ∧ Draws next input (out ++ [a]) rest

/-- Feeding drawn elements stays on the path. -/
theorem OnPath.feedUntil {out : List α} (h : OnPath next stop input out)
    (hgo : out = [] ∨ stop out = none) (l : List α) (hl : Draws next input out l) :
    OnPath next stop input (feedUntil stop out l).1 := by
  induction l generalizing out with
  | nil => exact h
  | cons a rest ih =>
      obtain ⟨rfl, hrest⟩ := hl
      have hsnoc := OnPath.snoc h hgo
      rw [Lib.feedUntil]
      split
      · exact hsnoc
      · next hnone => exact ih hsnoc (Or.inr hnone) hrest

/-- What feeding at least one element ends with. -/
theorem feedUntil_spec (out : List α) (a : α) (rest : List α) :
    ∃ more, (feedUntil stop out (a :: rest)).1 = out ++ more ∧ more ≠ [] ∧
      stop (out ++ more) = (feedUntil stop out (a :: rest)).2 ∧
      ((feedUntil stop out (a :: rest)).2 = none → more = a :: rest) := by
  induction rest generalizing out a with
  | nil =>
      refine ⟨[a], ?_⟩
      simp only [feedUntil]
      split
      · next r hr => exact ⟨rfl, by simp, hr, by simp⟩
      · next hn => exact ⟨rfl, by simp, hn, by simp⟩
  | cons b rest ih =>
      rw [feedUntil]
      split
      · next r hr => exact ⟨[a], rfl, by simp, hr, by simp⟩
      · next hn =>
          obtain ⟨more, hout, -, hstop, hall⟩ := ih (out ++ [a]) b
          refine ⟨a :: more, ?_, by simp, ?_, fun h => by rw [hall h]⟩
          · rw [hout, List.append_assoc, List.singleton_append]
          · rw [← hstop, List.append_assoc, List.singleton_append]

theorem feedUntil_append (out xs ys : List α) :
    feedUntil stop out (xs ++ ys) =
      if (feedUntil stop out xs).2.isNone then feedUntil stop (out ++ xs) ys
      else feedUntil stop out xs := by
  induction xs generalizing out with
  | nil => simp [feedUntil]
  | cons x xs ih =>
      rw [List.cons_append, feedUntil, feedUntil]
      cases hstop : stop (out ++ [x]) with
      | some reason => rfl
      | none =>
          rw [ih]
          simp only [List.append_assoc, List.singleton_append]

theorem feedUntil_eq_of_none {out l : List α} (h : (feedUntil stop out l).2 = none) :
    (feedUntil stop out l).1 = out ++ l := by
  cases l with
  | nil => exact (List.append_nil out).symm
  | cons a rest =>
      have hspec : ∃ more, (feedUntil stop out (a :: rest)).1 = out ++ more ∧ more ≠ [] ∧
          stop (out ++ more) = (feedUntil stop out (a :: rest)).2 ∧
          ((feedUntil stop out (a :: rest)).2 = none → more = a :: rest) :=
        feedUntil_spec out a rest
      obtain ⟨more, hout, -, -, hall⟩ := hspec
      rw [hout, hall h]

theorem feedUntil_concat (out l : List α) (a : α)
    (h : (feedUntil stop out l).2 = none) :
    feedUntil stop out (l ++ [a]) = (out ++ l ++ [a], stop (out ++ l ++ [a])) := by
  rw [feedUntil_append, h]
  show feedUntil stop (out ++ l) [a] = _
  rw [feedUntil]
  cases hstop : stop (out ++ l ++ [a]) <;> rfl

/-- While nothing has stopped, no prefix was one to stop at. -/
theorem rule_none_on_path {l pre : List α} {a : α}
    (h : (feedUntil stop [] l).2 = none) (hpre : pre ++ [a] <+: l) :
    stop (pre ++ [a]) = none := by
  obtain ⟨rest, rfl⟩ := hpre
  have hgo : ∀ xs ys, (feedUntil stop [] (xs ++ ys)).2 = none →
      (feedUntil stop [] xs).2 = none := by
    intro xs ys hnone
    rw [feedUntil_append] at hnone
    split at hnone
    · rename_i hxs
      exact Option.isNone_iff_eq_none.mp hxs
    · exact hnone
  have hlast := hgo _ _ h
  rw [feedUntil_concat [] pre a (hgo _ _ hlast)] at hlast
  exact hlast

/-- Feeding ends at the first element at which the rule fires. -/
theorem feedUntil_of_first {l : List α} {k : ℕ} (hk : k < l.length) {reason : β}
    (hstop : stop (l.take (k + 1)) = some reason)
    (hbefore : ∀ j < k, stop (l.take (j + 1)) = none) :
    feedUntil stop [] l = (l.take (k + 1), some reason) := by
  have hgo : ∀ j ≤ k, feedUntil stop [] (l.take j) = (l.take j, none) := by
    intro j hj
    induction j with
    | zero => rfl
    | succ j ih =>
        have hnone := hbefore j hj
        rw [List.take_succ_eq_append_getElem (by omega)] at hnone ⊢
        rw [feedUntil_append, ih (by omega)]
        show feedUntil stop (l.take j) [l[j]] = _
        rw [feedUntil, hnone]
        rfl
  have hsplit : l = l.take k ++ (l[k] :: l.drop (k + 1)) := by
    rw [List.cons_getElem_drop_succ, List.take_append_drop]
  have htake := List.take_succ_eq_append_getElem hk
  calc feedUntil stop [] l
      = feedUntil stop [] (l.take k ++ (l[k] :: l.drop (k + 1))) := by rw [← hsplit]
    _ = feedUntil stop ([] ++ l.take k) (l[k] :: l.drop (k + 1)) := by
        rw [feedUntil_append, hgo k le_rfl]
        rfl
    _ = (l.take (k + 1), some reason) := by
        rw [List.nil_append, feedUntil, ← htake, hstop]

end TurboServe.Lib
