import Mathlib

/-!
# Last writes

A list of writes to keys, read as the table it leaves: under each key its last value.
Nothing is lost exactly if no key is written twice.
-/

namespace TurboServe.Lib

variable {κ ν : Type*} [DecidableEq κ]

/-- The last value written to a key. -/
def lastWrite (ws : List (κ × ν)) (k : κ) : Option ν :=
  ((ws.filter fun w => w.1 = k).getLast?).map (·.2)

@[simp] theorem lastWrite_nil (k : κ) : lastWrite ([] : List (κ × ν)) k = none := rfl

theorem lastWrite_append_singleton (ws : List (κ × ν)) (w : κ × ν) (k : κ) :
    lastWrite (ws ++ [w]) k = if w.1 = k then some w.2 else lastWrite ws k := by
  unfold lastWrite
  rw [List.filter_append]
  by_cases h : w.1 = k
  · rw [if_pos h, List.filter_cons_of_pos (by simpa using h), List.filter_nil,
      List.getLast?_append_of_ne_nil _ (List.cons_ne_nil _ _)]
    rfl
  · rw [if_neg h, List.filter_cons_of_neg (by simpa using h), List.filter_nil,
      List.append_nil]

theorem lastWrite_cons (w : κ × ν) (ws : List (κ × ν)) (k : κ) :
    lastWrite (w :: ws) k = (lastWrite ws k).or (if w.1 = k then some w.2 else none) := by
  induction ws using List.reverseRecOn with
  | nil => exact lastWrite_append_singleton [] w k
  | append_singleton ws v ih =>
      rw [← List.cons_append, lastWrite_append_singleton, lastWrite_append_singleton]
      by_cases h : v.1 = k
      · rw [if_pos h, if_pos h]
        rfl
      · rw [if_neg h, if_neg h, ih]

theorem mem_of_lastWrite {ws : List (κ × ν)} {k : κ} {v : ν} (h : lastWrite ws k = some v) :
    (k, v) ∈ ws := by
  obtain ⟨w, hw, rfl⟩ := Option.map_eq_some_iff.mp h
  have hmem := List.mem_filter.mp (List.mem_of_getLast? hw)
  have hk : w.1 = k := of_decide_eq_true hmem.2
  rw [← hk]
  exact hmem.1

theorem lastWrite_isSome_iff {ws : List (κ × ν)} {k : κ} :
    (lastWrite ws k).isSome ↔ ∃ v, (k, v) ∈ ws := by
  unfold lastWrite
  rw [Option.isSome_map, List.getLast?_isSome]
  constructor
  · intro h
    obtain ⟨w, hw⟩ := List.exists_mem_of_ne_nil _ h
    obtain ⟨hmem, hk⟩ := List.mem_filter.mp hw
    have hk : w.1 = k := of_decide_eq_true hk
    exact ⟨w.2, hk ▸ hmem⟩
  · rintro ⟨v, hv⟩
    exact List.ne_nil_of_mem (List.mem_filter.mpr ⟨hv, decide_eq_true rfl⟩)

/-- With one write to each key the last write is the write. -/
theorem lastWrite_eq_of_nodup {ws : List (κ × ν)} (hnd : (ws.map (·.1)).Nodup) {w : κ × ν}
    (hw : w ∈ ws) : lastWrite ws w.1 = some w.2 := by
  obtain ⟨v, hv⟩ := Option.isSome_iff_exists.mp (lastWrite_isSome_iff.mpr ⟨w.2, hw⟩)
  have hsame := List.inj_on_of_nodup_map hnd (mem_of_lastWrite hv) hw rfl
  rw [hv, ← hsame]

end TurboServe.Lib
