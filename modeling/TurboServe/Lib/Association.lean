import Mathlib.Data.List.Nodup

/-!
# Association lists

What `List.lookup` finds: an entry, and under distinct keys every entry.
-/

namespace TurboServe.Lib

variable {κ ν : Type*} [DecidableEq κ] {d : List (κ × ν)} {k : κ} {v : ν}

theorem lookup_cons_if (e : κ × ν) (d : List (κ × ν)) (k : κ) :
    (e :: d).lookup k = if k = e.1 then some e.2 else d.lookup k := by
  obtain ⟨k', w⟩ := e
  rw [List.lookup_cons]
  by_cases h : k = k'
  · rw [if_pos h, beq_iff_eq.mpr h]
  · rw [if_neg h, beq_eq_false_iff_ne.mpr h]

theorem mem_of_lookup (h : d.lookup k = some v) : (k, v) ∈ d := by
  obtain ⟨l₁, l₂, rfl, -⟩ := List.lookup_eq_some_iff.mp h
  exact List.mem_append_right _ List.mem_cons_self

theorem lookup_of_mem (hnd : (d.map (·.1)).Nodup) {e : κ × ν} (he : e ∈ d) :
    d.lookup e.1 = some e.2 := by
  induction d with
  | nil => cases he
  | cons e' d ih =>
      obtain ⟨hnot, hnd⟩ := List.nodup_cons.mp hnd
      rw [lookup_cons_if]
      rcases List.mem_cons.mp he with rfl | he
      · exact if_pos rfl
      · rw [if_neg fun h => hnot (List.mem_map.mpr ⟨e, he, h⟩)]
        exact ih hnd he

theorem lookup_eq_some_iff_mem (hnd : (d.map (·.1)).Nodup) :
    d.lookup k = some v ↔ (k, v) ∈ d :=
  ⟨mem_of_lookup, lookup_of_mem hnd⟩

theorem lookup_eq_none_iff_keys : d.lookup k = none ↔ k ∉ d.map (·.1) := by
  rw [List.lookup_eq_none_iff, List.mem_map]
  constructor
  · rintro h ⟨e, he, rfl⟩
    exact absurd (h e he) (by simp)
  · intro h e he
    exact bne_iff_ne.mpr fun hk => h ⟨e, he, hk.symm⟩

end TurboServe.Lib
