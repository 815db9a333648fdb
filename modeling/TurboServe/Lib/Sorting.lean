import Mathlib.Data.List.Sort

/-!
# Sorting by a key

The stable sort by a key in a linear order: its result ascends, and a list that ascends is its
own result.
-/

namespace TurboServe.Lib

variable {α β : Type*} [LinearOrder β]

/-- The elements in the order of their keys. -/
theorem pairwise_sortBy (key : α → β) (l : List α) :
    (l.mergeSort fun a b => decide (key a ≤ key b)).Pairwise fun a b => key a ≤ key b := by
  have htrans : ∀ a b c : α, decide (key a ≤ key b) = true → decide (key b ≤ key c) = true →
      decide (key a ≤ key c) = true := by
    intro a b c hab hbc
    exact decide_eq_true ((of_decide_eq_true hab).trans (of_decide_eq_true hbc))
  have htotal : ∀ a b : α, (decide (key a ≤ key b) || decide (key b ≤ key a)) = true := by
    intro a b
    rw [Bool.or_eq_true, decide_eq_true_iff, decide_eq_true_iff]
    exact le_total _ _
  exact (List.pairwise_mergeSort htrans htotal l).imp fun hab => of_decide_eq_true hab

theorem sortBy_of_pairwise {key : α → β} {l : List α}
    (h : l.Pairwise fun a b => key a ≤ key b) :
    (l.mergeSort fun a b => decide (key a ≤ key b)) = l :=
  List.mergeSort_of_pairwise (h.imp fun hab => decide_eq_true hab)

/-- With strictly ascending keys there is one order only. -/
theorem sortBy_of_perm {key : α → β} {l l' : List α} (hperm : l.Perm l')
    (h : l'.Pairwise fun a b => key a < key b) :
    (l.mergeSort fun a b => decide (key a ≤ key b)) = l' := by
  have hsorted : l'.Perm (l.mergeSort fun a b => decide (key a ≤ key b)) :=
    hperm.symm.trans (List.mergeSort_perm l _).symm
  refine (List.Perm.eq_of_pairwise ?_ (h.imp le_of_lt) (pairwise_sortBy key l) hsorted).symm
  intro a b ha hb hab hba
  have hmem : b ∈ l' := hsorted.symm.subset hb
  have hkeys : (l'.map key).Nodup := (List.pairwise_map.mpr h).imp ne_of_lt
  exact List.inj_on_of_nodup_map hkeys ha hmem (le_antisymm hab hba)

end TurboServe.Lib
