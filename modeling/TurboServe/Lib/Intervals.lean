import Mathlib.MeasureTheory.Measure.Lebesgue.Basic

/-!
# Lists of half-open intervals

The instants a list of intervals covers, and lists whose intervals are apart: no two of them
overlap or touch, and they come in order. The lengths of such intervals add up to the measure
of what they cover.
-/

namespace TurboServe.Lib

section Intervals

variable {α : Type*} [LinearOrder α] {ws vs : List (α × α)} {w : α × α} {t : α}

/-- The instants in some interval. -/
def covered (ws : List (α × α)) : Set α := ⋃ w ∈ ws, Set.Ico w.1 w.2

/-- Sorted, disjoint, not touching, and none empty. -/
structure Apart (ws : List (α × α)) : Prop where
  gaps : ws.Pairwise fun a b => a.2 < b.1
  nonempty : ∀ w ∈ ws, w.1 < w.2

theorem mem_covered : t ∈ covered ws ↔ ∃ w ∈ ws, w.1 ≤ t ∧ t < w.2 := by
  simp only [covered, Set.mem_iUnion, Set.mem_Ico, exists_prop]

theorem covered_nil : covered ([] : List (α × α)) = ∅ := by
  ext t
  simp only [mem_covered, List.not_mem_nil, false_and, exists_false, Set.mem_empty_iff_false]

theorem covered_append (ws vs : List (α × α)) :
    covered (ws ++ vs) = covered ws ∪ covered vs := by
  ext t
  simp only [Set.mem_union, mem_covered, List.mem_append]
  constructor
  · rintro ⟨w, hw | hw, ht⟩
    · exact Or.inl ⟨w, hw, ht⟩
    · exact Or.inr ⟨w, hw, ht⟩
  · rintro (⟨w, hw, ht⟩ | ⟨w, hw, ht⟩)
    · exact ⟨w, Or.inl hw, ht⟩
    · exact ⟨w, Or.inr hw, ht⟩

theorem covered_singleton (w : α × α) : covered [w] = Set.Ico w.1 w.2 := by
  ext t
  simp only [mem_covered, List.mem_singleton, exists_eq_left, Set.mem_Ico]

theorem covered_cons (w : α × α) (ws : List (α × α)) :
    covered (w :: ws) = Set.Ico w.1 w.2 ∪ covered ws := by
  rw [← covered_singleton, ← covered_append, List.singleton_append]

theorem covered_perm (h : ws.Perm vs) : covered ws = covered vs := by
  ext t
  simp only [mem_covered, h.mem_iff]

/-- Empty intervals cover nothing. -/
theorem covered_filter (ws : List (α × α)) :
    covered (ws.filter fun w => w.1 < w.2) = covered ws := by
  ext t
  simp only [mem_covered, List.mem_filter, decide_eq_true_iff]
  constructor
  · rintro ⟨w, ⟨hw, -⟩, ht⟩
    exact ⟨w, hw, ht⟩
  · rintro ⟨w, hw, ht⟩
    exact ⟨w, ⟨hw, ht.1.trans_lt ht.2⟩, ht⟩

theorem Apart.nil : Apart ([] : List (α × α)) :=
  ⟨List.Pairwise.nil, fun _ hw => absurd hw List.not_mem_nil⟩

theorem Apart.concat (h : Apart ws) (hw : w.1 < w.2) (hgap : ∀ v ∈ ws, v.2 < w.1) :
    Apart (ws ++ [w]) := by
  refine ⟨List.pairwise_append.mpr ⟨h.gaps, List.pairwise_singleton _ _, ?_⟩, ?_⟩
  · intro v hv u hu
    rw [List.mem_singleton.mp hu]
    exact hgap v hv
  · intro v hv
    rcases List.mem_append.mp hv with hv | hv
    · exact h.nonempty v hv
    · rw [List.mem_singleton.mp hv]
      exact hw

theorem Apart.of_append (h : Apart (ws ++ vs)) : Apart ws :=
  ⟨(List.pairwise_append.mp h.gaps).1, fun w hw => h.nonempty w (List.mem_append_left _ hw)⟩

end Intervals

/-! ## The measure of what is covered -/

section Measure

open MeasureTheory

variable {ws : List (ℝ × ℝ)}

theorem measurableSet_covered (ws : List (ℝ × ℝ)) : MeasurableSet (covered ws) := by
  induction ws with
  | nil =>
      rw [covered_nil]
      exact MeasurableSet.empty
  | cons w ws ih =>
      rw [covered_cons]
      exact measurableSet_Ico.union ih

/-- Nothing is counted twice. -/
theorem Apart.volume_covered (h : Apart ws) :
    volume (covered ws) = ENNReal.ofReal (ws.map fun w => w.2 - w.1).sum := by
  induction ws with
  | nil => rw [covered_nil, measure_empty, List.map_nil, List.sum_nil, ENNReal.ofReal_zero]
  | cons w ws ih =>
      obtain ⟨hgaps, hrest⟩ := List.pairwise_cons.mp h.gaps
      have hws : Apart ws := ⟨hrest, fun v hv => h.nonempty v (List.mem_cons_of_mem _ hv)⟩
      have hdisjoint : Disjoint (Set.Ico w.1 w.2) (covered ws) := by
        refine Set.disjoint_left.mpr fun t ht hcovered => ?_
        obtain ⟨v, hv, hstart, -⟩ := mem_covered.mp hcovered
        exact absurd (ht.2.trans (hgaps v hv)) (not_lt.mpr hstart)
      have hfirst : 0 ≤ w.2 - w.1 := sub_nonneg.mpr (h.nonempty w List.mem_cons_self).le
      have hsum : 0 ≤ (ws.map fun w => w.2 - w.1).sum := by
        refine List.sum_nonneg fun x hx => ?_
        obtain ⟨v, hv, rfl⟩ := List.mem_map.mp hx
        exact sub_nonneg.mpr (hws.nonempty v hv).le
      rw [covered_cons, measure_union hdisjoint (measurableSet_covered ws), Real.volume_Ico,
        ih hws, List.map_cons, List.sum_cons, ENNReal.ofReal_add hfirst hsum]

end Measure

end TurboServe.Lib
