import Mathlib.Data.List.Infix

/-!
# Machines in lockstep

Two machines driven by the same commands. A relation that every command keeps, as long as
it is permitted in the states it meets, holds all along a permitted run.
-/

namespace TurboServe.Lib

variable {α β γ : Type*} (f : α → γ → α) (g : β → γ → β) (permitted : α → β → γ → Prop)

/-- Every command of a run is permitted in the states it meets. -/
def Permitted : α → β → List γ → Prop
  | _, _, [] => True
  | a, b, c :: cs => permitted a b c ∧ Permitted (f a c) (g b c) cs

variable {f g permitted}

theorem Permitted.of_shorter {a : α} {b : β} {cs ds : List γ} (h : Permitted f g permitted a b cs)
    (hds : ds <+: cs) : Permitted f g permitted a b ds := by
  induction ds generalizing a b cs with
  | nil => exact trivial
  | cons d ds ih =>
      obtain ⟨rest, rfl⟩ := hds
      exact ⟨h.1, ih h.2 (List.prefix_append ds rest)⟩

/-- What every permitted command keeps holds after a permitted run. -/
theorem Permitted.related {R : α → β → Prop}
    (hstep : ∀ a b c, R a b → permitted a b c → R (f a c) (g b c)) {a : α} {b : β} {cs : List γ}
    (h : Permitted f g permitted a b cs) (hR : R a b) : R (cs.foldl f a) (cs.foldl g b) := by
  induction cs generalizing a b with
  | nil => exact hR
  | cons c cs ih => exact ih h.2 (hstep a b c hR h.1)

/-- And everywhere along it. -/
theorem Permitted.related_prefix {R : α → β → Prop}
    (hstep : ∀ a b c, R a b → permitted a b c → R (f a c) (g b c)) {a : α} {b : β} {cs : List γ}
    (h : Permitted f g permitted a b cs) (hR : R a b) {ds : List γ} (hds : ds <+: cs) :
    R (ds.foldl f a) (ds.foldl g b) :=
  (h.of_shorter hds).related hstep hR

end TurboServe.Lib
