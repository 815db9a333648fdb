import Mathlib

/-!
# Lists related element by element

What `List.Forall₂` says of the elements: each has its partner, what the partners agree
on the lists agree on, and a relation of the partners becomes a relation of the lists.
-/

namespace TurboServe.Lib

variable {α β γ : Type*} {R : α → β → Prop} {l : List α} {l' : List β}

theorem related_left (h : List.Forall₂ R l l') {a : α} (ha : a ∈ l) :
    ∃ b ∈ l', R a b := by
  induction h with
  | nil => cases ha
  | cons hab _ ih =>
      rcases List.mem_cons.mp ha with rfl | ha
      · exact ⟨_, List.mem_cons_self, hab⟩
      · obtain ⟨b, hb, hr⟩ := ih ha
        exact ⟨b, List.mem_cons_of_mem _ hb, hr⟩

theorem related_right (h : List.Forall₂ R l l') {b : β} (hb : b ∈ l') :
    ∃ a ∈ l, R a b :=
  related_left h.flip hb

theorem related_map_eq {f : α → γ} {g : β → γ} (h : List.Forall₂ R l l')
    (hfg : ∀ a b, R a b → f a = g b) : l.map f = l'.map g := by
  induction h with
  | nil => rfl
  | cons hab _ ih => rw [List.map_cons, List.map_cons, hfg _ _ hab, ih]

/-- The relation of the partners, with what is known of each of them. -/
theorem related_mem (h : List.Forall₂ R l l') :
    List.Forall₂ (fun a b => a ∈ l ∧ b ∈ l' ∧ R a b) l l' := by
  induction h with
  | nil => exact .nil
  | cons hab _ ih =>
      refine .cons ⟨List.mem_cons_self, List.mem_cons_self, hab⟩ (ih.imp ?_)
      rintro a b ⟨ha, hb, hr⟩
      exact ⟨List.mem_cons_of_mem _ ha, List.mem_cons_of_mem _ hb, hr⟩

end TurboServe.Lib
