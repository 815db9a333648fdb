import Mathlib

/-!
# A memory under a list of writes

`applyWrites mem ws` is what a partial memory holds after the writes of `ws`, in
order. When no address is written twice, the order does not matter and every
written address holds its value.
-/

namespace TurboServe.Lib

variable {α β : Type*} [DecidableEq α]

def applyWrites (mem : α → Option β) (ws : List (α × β)) : α → Option β :=
  ws.foldl (fun m w => Function.update m w.1 (some w.2)) mem

theorem applyWrites_append (mem : α → Option β) (ws ws' : List (α × β)) :
    applyWrites mem (ws ++ ws') = applyWrites (applyWrites mem ws) ws' :=
  List.foldl_append

/-- An address that is not written keeps its value. -/
theorem applyWrites_of_not_mem {mem : α → Option β} {ws : List (α × β)} {a : α}
    (h : a ∉ ws.map Prod.fst) : applyWrites mem ws a = mem a := by
  induction ws generalizing mem with
  | nil => rfl
  | cons w ws ih =>
      rw [List.map_cons, List.mem_cons, not_or] at h
      show applyWrites (Function.update mem w.1 (some w.2)) ws a = mem a
      rw [ih h.2, Function.update_of_ne h.1]

/-- A written address holds what was written there. -/
theorem applyWrites_of_mem {mem : α → Option β} {ws : List (α × β)} {a : α} {b : β}
    (hnd : (ws.map Prod.fst).Nodup) (h : (a, b) ∈ ws) :
    applyWrites mem ws a = some b := by
  induction ws generalizing mem with
  | nil => cases h
  | cons w ws ih =>
      rw [List.map_cons, List.nodup_cons] at hnd
      show applyWrites (Function.update mem w.1 (some w.2)) ws a = some b
      rcases List.mem_cons.mp h with rfl | h
      · rw [applyWrites_of_not_mem hnd.1, Function.update_self]
      · exact ih hnd.2 h

/-- Writes to distinct addresses commute. -/
theorem applyWrites_perm {mem : α → Option β} {ws ws' : List (α × β)}
    (hp : ws.Perm ws') (hnd : (ws.map Prod.fst).Nodup) :
    applyWrites mem ws = applyWrites mem ws' := by
  have hnd' : (ws'.map Prod.fst).Nodup := (hp.map _).nodup_iff.mp hnd
  funext a
  by_cases ha : a ∈ ws.map Prod.fst
  · obtain ⟨w, hw, rfl⟩ := List.mem_map.mp ha
    rw [applyWrites_of_mem hnd hw, applyWrites_of_mem hnd' (hp.mem_iff.mp hw)]
  · have ha' : a ∉ ws'.map Prod.fst := fun h => ha ((hp.map _).mem_iff.mpr h)
    rw [applyWrites_of_not_mem ha, applyWrites_of_not_mem ha']

end TurboServe.Lib
