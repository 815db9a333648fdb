import Mathlib

/-!
# Selecting a least element

`minBy lt xs` is the element a left-to-right scan with a strict comparison
keeps: the first least one. It is what `min(xs, key=...)` computes, for any
comparison, total or not.
-/

namespace TurboServe.Lib

variable {α : Type*}

/-- The scan behind `minBy`, with the best element so far. -/
def minFrom (lt : α → α → Bool) (best : α) : List α → α
  | [] => best
  | x :: xs => minFrom lt (if lt x best then x else best) xs

def minBy (lt : α → α → Bool) : List α → Option α
  | [] => none
  | x :: xs => some (minFrom lt x xs)

theorem minFrom_mem (lt : α → α → Bool) (best : α) (xs : List α) :
    minFrom lt best xs ∈ best :: xs := by
  induction xs generalizing best with
  | nil => exact List.mem_cons_self
  | cons x xs ih =>
      rcases List.mem_cons.mp (ih (if lt x best then x else best)) with h | h
      · rw [minFrom, h]
        split <;> simp
      · exact List.mem_cons_of_mem _ (List.mem_cons_of_mem _ h)

theorem minBy_mem {lt : α → α → Bool} {xs : List α} {m : α}
    (h : minBy lt xs = some m) : m ∈ xs := by
  cases xs with
  | nil => cases h
  | cons x xs =>
      cases h
      exact minFrom_mem lt x xs

@[simp] theorem minBy_eq_none {lt : α → α → Bool} {xs : List α} :
    minBy lt xs = none ↔ xs = [] := by
  cases xs <;> simp [minBy]

/-- For an asymmetric comparison whose negation is transitive, nothing in the list
is less than what the scan keeps. -/
theorem minFrom_least {lt : α → α → Bool} (hasymm : ∀ a b, lt a b = true → lt b a = false)
    (htrans : ∀ a b c, lt a b = false → lt b c = false → lt a c = false) (best : α)
    (xs : List α) : ∀ x ∈ best :: xs, lt x (minFrom lt best xs) = false := by
  induction xs generalizing best with
  | nil =>
      intro x hx
      rw [List.mem_singleton.mp hx]
      cases hself : lt best best with
      | false => exact hself
      | true =>
          have := hasymm best best hself
          rw [hself] at this
          cases this
  | cons y ys ih =>
      have hrest := ih (if lt y best then y else best)
      have hhead := hrest _ List.mem_cons_self
      intro x hx
      rw [minFrom]
      rcases List.mem_cons.mp hx with rfl | hx
      · cases hlt : lt y x with
        | false =>
            rw [hlt] at hhead
            simpa using hhead
        | true =>
            rw [hlt] at hhead
            exact htrans _ _ _ (hasymm y x hlt) hhead
      · rcases List.mem_cons.mp hx with rfl | hx
        · cases hlt : lt x best with
          | false =>
              rw [hlt] at hhead
              exact htrans _ _ _ hlt hhead
          | true =>
              rw [hlt] at hhead
              simpa using hhead
        · exact hrest x (List.mem_cons_of_mem _ hx)

theorem minBy_least {lt : α → α → Bool} (hasymm : ∀ a b, lt a b = true → lt b a = false)
    (htrans : ∀ a b c, lt a b = false → lt b c = false → lt a c = false) {xs : List α}
    {m : α} (h : minBy lt xs = some m) : ∀ x ∈ xs, lt x m = false := by
  cases xs with
  | nil => cases h
  | cons x xs =>
      cases h
      exact minFrom_least hasymm htrans x xs

/-- What the scan keeps is less than everything before it. -/
theorem minFrom_first {lt : α → α → Bool} (hasymm : ∀ a b, lt a b = true → lt b a = false)
    (htrans : ∀ a b c, lt a b = false → lt b c = false → lt a c = false) (best : α)
    (xs : List α) : ∃ before after, best :: xs = before ++ minFrom lt best xs :: after ∧
      ∀ x ∈ before, lt (minFrom lt best xs) x = true := by
  -- what is less than `b` is less than what `b` is less than, or as good as
  have hmixed : ∀ {a b c}, lt a b = true → lt c b = false → lt a c = true := by
    intro a b c hab hcb
    cases hac : lt a c with
    | true => rfl
    | false =>
        rw [htrans a c b hac hcb] at hab
        cases hab
  induction xs generalizing best with
  | nil => exact ⟨[], [], rfl, fun _ hx => absurd hx List.not_mem_nil⟩
  | cons y ys ih =>
      obtain ⟨before, after, hsplit, hless⟩ := ih (if lt y best then y else best)
      rw [minFrom]
      generalize minFrom lt (if lt y best then y else best) ys = m at *
      cases hlt : lt y best with
      | true =>
          rw [hlt, if_pos rfl] at hsplit
          refine ⟨best :: before, after, congrArg (best :: ·) hsplit, fun x hx => ?_⟩
          rcases List.mem_cons.mp hx with rfl | hx
          · cases before with
            | nil =>
                obtain ⟨rfl, -⟩ := List.cons.inj hsplit
                exact hlt
            | cons z zs =>
                obtain ⟨rfl, -⟩ := List.cons.inj hsplit
                exact hmixed (hless y List.mem_cons_self) (hasymm y x hlt)
          · exact hless x hx
      | false =>
          rw [hlt, if_neg Bool.false_ne_true] at hsplit
          cases before with
          | nil =>
              obtain ⟨rfl, rfl⟩ := List.cons.inj hsplit
              exact ⟨[], y :: ys, rfl, fun _ hx => absurd hx List.not_mem_nil⟩
          | cons z zs =>
              obtain ⟨rfl, hrest⟩ := List.cons.inj hsplit
              have hbest := hless best List.mem_cons_self
              refine ⟨best :: y :: zs, after, ?_, fun x hx => ?_⟩
              · rw [hrest]
                rfl
              · rcases List.mem_cons.mp hx with rfl | hx
                · exact hbest
                · rcases List.mem_cons.mp hx with rfl | hx
                  · exact hmixed hbest hlt
                  · exact hless x (List.mem_cons_of_mem _ hx)

theorem minBy_first {lt : α → α → Bool} (hasymm : ∀ a b, lt a b = true → lt b a = false)
    (htrans : ∀ a b c, lt a b = false → lt b c = false → lt a c = false) {xs : List α}
    {m : α} (h : minBy lt xs = some m) : ∃ before after, xs = before ++ m :: after ∧
      ∀ x ∈ before, lt m x = true := by
  cases xs with
  | nil => cases h
  | cons x xs =>
      cases h
      exact minFrom_first hasymm htrans x xs

end TurboServe.Lib
