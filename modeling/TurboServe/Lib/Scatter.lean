import Mathlib.Data.List.Nodup
import Mathlib.Logic.Function.Basic

/-!
# Scattered writes

Writing the entries of a source to the places an index list names, from left to right. A
place named more than once must be told the same thing each time for its value to be known.
-/

namespace TurboServe.Lib

variable {β : Type*}

/-- `dest[index[i]] = src[i]` for each `i`. -/
def scatter (index : List ℕ) (src dest : ℕ → β) : ℕ → β :=
  index.zipIdx.foldl (fun d p => Function.update d p.1 (src p.2)) dest

theorem foldl_update_of_not_mem (ps : List (ℕ × ℕ)) (src dest : ℕ → β) {t : ℕ}
    (h : ∀ p ∈ ps, p.1 ≠ t) :
    ps.foldl (fun d p => Function.update d p.1 (src p.2)) dest t = dest t := by
  induction ps generalizing dest with
  | nil => rfl
  | cons p ps ih =>
      rw [List.foldl_cons, ih _ fun q hq => h q (List.mem_cons_of_mem _ hq),
        Function.update_of_ne (h p List.mem_cons_self).symm]

theorem foldl_update_of_mem (ps : List (ℕ × ℕ)) (src dest : ℕ → β) {t : ℕ} {v : β}
    (hsrc : ∀ p ∈ ps, p.1 = t → src p.2 = v) (h : ∃ p ∈ ps, p.1 = t) :
    ps.foldl (fun d p => Function.update d p.1 (src p.2)) dest t = v := by
  induction ps generalizing dest with
  | nil =>
      obtain ⟨p, hp, -⟩ := h
      cases hp
  | cons q ps ih =>
      rw [List.foldl_cons]
      by_cases hlater : ∃ p ∈ ps, p.1 = t
      · exact ih _ (fun p hp => hsrc p (List.mem_cons_of_mem _ hp)) hlater
      · obtain ⟨p, hp, hpt⟩ := h
        rcases List.mem_cons.mp hp with rfl | hp
        · rw [foldl_update_of_not_mem ps src _ fun r hr hrt => hlater ⟨r, hr, hrt⟩, hpt,
            Function.update_self]
          exact hsrc p List.mem_cons_self hpt
        · exact absurd ⟨p, hp, hpt⟩ hlater

/-- A place the index does not name keeps its value. -/
theorem scatter_of_not_mem {index : List ℕ} (src dest : ℕ → β) {t : ℕ} (h : t ∉ index) :
    scatter index src dest t = dest t := by
  refine foldl_update_of_not_mem _ src dest fun p hp hpt => h ?_
  have hget := List.mem_zipIdx_iff_getElem?.mp hp
  exact hpt ▸ List.mem_of_getElem? hget

/-- A place the index names gets what it is told. -/
theorem scatter_of_mem {index : List ℕ} {src : ℕ → β} (dest : ℕ → β) {t : ℕ} {v : β}
    (hsrc : ∀ i, index[i]? = some t → src i = v) (h : t ∈ index) :
    scatter index src dest t = v := by
  refine foldl_update_of_mem _ src dest (fun p hp hpt => hsrc p.2 ?_) ?_
  · rw [List.mem_zipIdx_iff_getElem?.mp hp, hpt]
  · obtain ⟨i, hi, rfl⟩ := List.mem_iff_getElem.mp h
    exact ⟨(index[i], i), List.mem_zipIdx_iff_getElem?.mpr (List.getElem?_eq_getElem hi), rfl⟩

/-- Each place of an index without duplicates gets its own entry. -/
theorem scatter_getElem {index : List ℕ} (hnd : index.Nodup) (src dest : ℕ → β) {i : ℕ}
    (hi : i < index.length) : scatter index src dest index[i] = src i := by
  refine scatter_of_mem dest (fun j hj => ?_) (List.getElem_mem hi)
  obtain ⟨hjlen, hji⟩ := List.getElem?_eq_some_iff.mp hj
  rw [(List.Nodup.getElem_inj_iff hnd).mp hji]

end TurboServe.Lib
