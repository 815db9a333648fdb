import TurboServe.Chaos.Windows
import TurboServe.Lib.Intervals

/-!
# Merging windows is an exact union

The merged windows are apart and cover exactly what the given ones cover, so their lengths add
up to its measure; and the records are split, in their order, by what the windows cover.
-/

namespace TurboServe.Chaos

open TurboServe.Bench (RequestRecord)
open TurboServe.Lib MeasureTheory

section Windows

variable {α : Type*} [LinearOrder α]

/-! ## §1  Merging -/

/-- Merging keeps the windows apart, as long as the next one starts no earlier than they do. -/
theorem mergeOne_spec {merged : List (α × α)} {w : α × α} (h : Apart merged) (hw : w.1 < w.2)
    (hstart : ∀ m ∈ merged, m.1 ≤ w.1) :
    Apart (mergeOne merged w) ∧ covered (mergeOne merged w) = covered merged ∪ Set.Ico w.1 w.2 ∧
      ∀ m ∈ mergeOne merged w, m.1 ≤ w.1 := by
  rcases List.eq_nil_or_concat' merged with rfl | ⟨init, last, rfl⟩
  · refine ⟨Apart.nil.concat hw fun v hv => absurd hv List.not_mem_nil, ?_, ?_⟩
    · rw [covered_nil, Set.empty_union]
      exact covered_singleton w
    · intro m hm
      rw [List.mem_singleton.mp hm]
  have hlast : last.1 ≤ w.1 := hstart last (List.mem_append_right _ List.mem_cons_self)
  have hnonempty : last.1 < last.2 := h.nonempty last (List.mem_append_right _ List.mem_cons_self)
  have hbefore : ∀ v ∈ init, v.2 < last.1 := fun v hv =>
    (List.pairwise_append.mp h.gaps).2.2 v hv last List.mem_cons_self
  unfold mergeOne
  rw [List.getLast?_concat, List.dropLast_concat]
  dsimp only
  split
  · rename_i htouch
    refine ⟨h.of_append.concat (hnonempty.trans_le (le_max_left _ _)) hbefore, ?_, ?_⟩
    · -- the two intervals overlap or touch, so nothing lies between them
      have hunion : Set.Ico last.1 (max last.2 w.2) =
          Set.Ico last.1 last.2 ∪ Set.Ico w.1 w.2 := by
        rw [Set.Ico_union_Ico' htouch (hlast.trans hw.le), min_eq_left hlast]
      rw [covered_append, covered_append, covered_singleton, covered_singleton, hunion,
        Set.union_assoc]
    · intro m hm
      rcases List.mem_append.mp hm with hm | hm
      · exact hstart m (List.mem_append_left _ hm)
      · rw [List.mem_singleton.mp hm]
        exact hlast
  · rename_i hgap
    push Not at hgap
    refine ⟨h.concat hw fun v hv => ?_, ?_, ?_⟩
    · rcases List.mem_append.mp hv with hv | hv
      · exact (hbefore v hv).trans (hnonempty.trans hgap)
      · rw [List.mem_singleton.mp hv]
        exact hgap
    · rw [covered_append (init ++ [last]), covered_singleton]
    · intro m hm
      rcases List.mem_append.mp hm with hm | hm
      · exact hstart m hm
      · rw [List.mem_singleton.mp hm]

theorem foldl_mergeOne {merged ordered : List (α × α)} (h : Apart merged)
    (hordered : ordered.Pairwise fun a b => a.1 ≤ b.1) (hnonempty : ∀ w ∈ ordered, w.1 < w.2)
    (hstart : ∀ m ∈ merged, ∀ w ∈ ordered, m.1 ≤ w.1) :
    Apart (ordered.foldl mergeOne merged) ∧
      covered (ordered.foldl mergeOne merged) = covered merged ∪ covered ordered := by
  induction ordered generalizing merged with
  | nil => exact ⟨h, by rw [covered_nil, Set.union_empty, List.foldl_nil]⟩
  | cons w ordered ih =>
      obtain ⟨hfirst, hrest⟩ := List.pairwise_cons.mp hordered
      obtain ⟨hapart, hcovered, hstarts⟩ := mergeOne_spec h (hnonempty w List.mem_cons_self)
        fun m hm => hstart m hm w List.mem_cons_self
      obtain ⟨hall, hunion⟩ := ih hapart hrest
        (fun v hv => hnonempty v (List.mem_cons_of_mem _ hv))
        fun m hm v hv => (hstarts m hm).trans (hfirst v hv)
      refine ⟨hall, hunion.trans ?_⟩
      rw [hcovered, covered_cons, Set.union_assoc]

/-- The starts come in order after sorting. -/
theorem ordered_starts (ws : List (α × α)) :
    (ws.mergeSort fun a b => decide (toLex a ≤ toLex b)).Pairwise fun a b => a.1 ≤ b.1 := by
  have htrans : ∀ a b c : α × α, decide (toLex a ≤ toLex b) = true →
      decide (toLex b ≤ toLex c) = true → decide (toLex a ≤ toLex c) = true := by
    intro a b c hab hbc
    rw [decide_eq_true_iff] at hab hbc ⊢
    exact hab.trans hbc
  have htotal : ∀ a b : α × α,
      (decide (toLex a ≤ toLex b) || decide (toLex b ≤ toLex a)) = true := by
    intro a b
    rw [Bool.or_eq_true, decide_eq_true_iff, decide_eq_true_iff]
    exact le_total _ _
  refine (List.pairwise_mergeSort htrans htotal ws).imp fun {a b} hab => ?_
  rcases Prod.Lex.toLex_le_toLex.mp (of_decide_eq_true hab) with hlt | ⟨heq, -⟩
  · exact hlt.le
  · exact heq.le

theorem mergeWindows_spec (windows : List (α × α)) :
    Apart (mergeWindows windows) ∧ covered (mergeWindows windows) = covered windows := by
  have hperm := List.mergeSort_perm (windows.filter fun w => w.1 < w.2)
    fun a b => decide (toLex a ≤ toLex b)
  obtain ⟨hapart, hcovered⟩ := foldl_mergeOne Apart.nil
    (ordered_starts (windows.filter fun w => w.1 < w.2))
    (fun w hw => of_decide_eq_true (List.mem_filter.mp (hperm.subset hw)).2)
    fun m hm => absurd hm List.not_mem_nil
  refine ⟨hapart, hcovered.trans ?_⟩
  rw [covered_nil, Set.empty_union, covered_perm hperm, covered_filter]

/-! ## §2  Splitting -/

variable {seconds : ℤ → α}

/-- A partition of the records in their order, by whether they were sent inside `S`. -/
structure Split (seconds : ℤ → α) (t0Ns : ℤ) (S : Set α) (records : List RequestRecord)
    (split : List RequestRecord × List RequestRecord) : Prop where
  inside_order : split.1.Sublist records
  outside_order : split.2.Sublist records
  partition : (split.1 ++ split.2).Perm records
  inside : ∀ r ∈ split.1, seconds (r.tSendNs - t0Ns) ∈ S
  outside : ∀ r ∈ split.2, seconds (r.tSendNs - t0Ns) ∉ S

/-- One more record. -/
theorem Split.classify {windows : List (α × α)} {t0Ns : ℤ} {records : List RequestRecord}
    {split : List RequestRecord × List RequestRecord}
    (h : Split seconds t0Ns (covered windows) records split) (r : RequestRecord) :
    Split seconds t0Ns (covered windows) (records ++ [r])
      (classify seconds windows t0Ns split r) := by
  have hany : (windows.any fun w => decide (w.1 ≤ seconds (r.tSendNs - t0Ns) ∧
      seconds (r.tSendNs - t0Ns) < w.2)) = true ↔
        seconds (r.tSendNs - t0Ns) ∈ covered windows := by
    simp only [List.any_eq_true, decide_eq_true_iff, mem_covered]
  unfold Chaos.classify
  dsimp only
  split
  · rename_i hr
    refine ⟨h.inside_order.append_right _, h.outside_order.trans (List.sublist_append_left _ _),
      ?_, ?_, h.outside⟩
    · have hmoved : (split.1 ++ [r] ++ split.2).Perm (split.1 ++ split.2 ++ [r]) := by
        rw [List.append_assoc, List.append_assoc]
        exact List.perm_append_comm.append_left _
      exact hmoved.trans (h.partition.append_right _)
    · intro x hx
      rcases List.mem_append.mp hx with hx | hx
      · exact h.inside x hx
      · rw [List.mem_singleton.mp hx]
        exact hany.mp hr
  · rename_i hr
    refine ⟨h.inside_order.trans (List.sublist_append_left _ _), h.outside_order.append_right _,
      ?_, h.inside, ?_⟩
    · rw [← List.append_assoc]
      exact h.partition.append_right _
    · intro x hx
      rcases List.mem_append.mp hx with hx | hx
      · exact h.outside x hx
      · rw [List.mem_singleton.mp hx]
        exact fun hcovered => hr (hany.mpr hcovered)

theorem splitByWindows_spec (seconds : ℤ → α) (records : List RequestRecord)
    (windows : List (α × α)) (t0Ns : ℤ) :
    Split seconds t0Ns (covered windows) records
      (splitByWindows seconds records windows t0Ns) := by
  unfold splitByWindows
  by_cases hempty : windows = [] ∨ records = []
  · rw [if_pos hempty]
    refine ⟨List.nil_sublist _, List.Sublist.refl _, List.Perm.refl _,
      fun r hr => absurd hr List.not_mem_nil, fun r hr => ?_⟩
    rcases hempty with rfl | rfl
    · rw [covered_nil]
      exact Set.notMem_empty _
    · exact absurd hr List.not_mem_nil
  · rw [if_neg hempty]
    clear hempty
    induction records using List.reverseRecOn with
    | nil =>
        exact ⟨List.nil_sublist _, List.nil_sublist _, List.Perm.refl _,
          fun r hr => absurd hr List.not_mem_nil, fun r hr => absurd hr List.not_mem_nil⟩
    | append_singleton records r ih =>
        rw [List.foldl_append]
        exact ih.classify r

end Windows

/-! ## §3  Both -/

/-- Over any linear order the merged windows are apart and cover what the given ones cover;
over the reals their lengths add up to the measure of that; and the records are split by what
the windows cover, in their order. -/
theorem windows_exact {α : Type*} [LinearOrder α] (seconds : ℤ → α) :
    (∀ windows : List (α × α),
      Apart (mergeWindows windows) ∧ covered (mergeWindows windows) = covered windows) ∧
      (∀ windows : List (ℝ × ℝ), volume (covered windows) =
        ENNReal.ofReal ((mergeWindows windows).map fun w => w.2 - w.1).sum) ∧
      ∀ (records : List RequestRecord) (windows : List (α × α)) (t0Ns : ℤ),
        Split seconds t0Ns (covered windows) records
          (splitByWindows seconds records windows t0Ns) := by
  refine ⟨mergeWindows_spec, fun windows => ?_, splitByWindows_spec seconds⟩
  obtain ⟨hapart, hcovered⟩ := mergeWindows_spec windows
  rw [← hcovered]
  exact hapart.volume_covered

end TurboServe.Chaos
