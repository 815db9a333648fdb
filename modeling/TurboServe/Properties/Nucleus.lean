import TurboServe.Model.Sampler

/-!
# The nucleus top-p keeps

`apply_top_p` keeps every token whose mass ahead is at most `p`. That is the shortest prefix
of the sorted tokens that reaches `p`, except where a prefix reaches `p` exactly: there one
token more survives.
-/

namespace TurboServe.Model

open Lib

variable {K : Type} [Field K]

/-! ## §1  The mass ahead -/

/-- The mass of the first `i` tokens of an order. -/
def massAhead (order : List ℕ) (prob : ℕ → K) (i : ℕ) : K :=
  ∑ j ∈ Finset.range i, prob (order.getD j 0)

theorem massAhead_succ (order : List ℕ) (prob : ℕ → K) (i : ℕ) :
    massAhead order prob (i + 1) = massAhead order prob i + prob (order.getD i 0) :=
  Finset.sum_range_succ ..

/-- An order of the first `n` tokens adds them up as they come. -/
theorem sum_order {order : List ℕ} {n : ℕ} (h : order.Perm (List.range n)) (f : ℕ → K) :
    ∑ j ∈ Finset.range n, f (order.getD j 0) = ∑ t ∈ Finset.range n, f t := by
  have hlen : order.length = n := by rw [h.length_eq, List.length_range]
  have hself : (List.range n).map (order.getD · 0) = order := by
    refine List.ext_getElem (by rw [List.length_map, List.length_range, hlen]) fun i hi hi' => ?_
    rw [List.getElem_map, List.getElem_range, List.getD_eq_getElem order 0 hi']
  have hsum : ((List.range n).map fun j => f (order.getD j 0)).sum = (order.map f).sum := by
    conv_rhs => rw [← hself, List.map_map]
    rfl
  exact hsum.trans (h.map f).sum_eq

variable {order : List ℕ} {prob : ℕ → K} {n : ℕ}

theorem massAhead_mono [LinearOrder K] [IsStrictOrderedRing K] (h : ∀ t, 0 ≤ prob t) {i j : ℕ}
    (hij : i ≤ j) :
    massAhead order prob i ≤ massAhead order prob j :=
  Finset.sum_le_sum_of_subset_of_nonneg (Finset.range_mono hij) fun _ _ _ => h _

/-! ## §2  What survives -/

section Sorted

variable {K : Type} [LinearOrder K] (S : Sorting K) (logits : Logits K) (b : ℕ)

theorem index_perm : (S.index (logits.row b)).Perm (List.range logits.vocab) := by
  have hlen : (logits.row b).length = logits.vocab := by
    rw [Logits.row, List.length_map, List.length_range]
  exact hlen ▸ S.perm (logits.row b)

theorem length_index : (S.index (logits.row b)).length = logits.vocab := by
  rw [(index_perm S logits b).length_eq, List.length_range]

omit [LinearOrder K] in
theorem getD_row {t : ℕ} (h : t < logits.vocab) : (logits.row b).getD t ⊥ = logits.entry b t := by
  rw [List.getD_eq_getElem _ _ (by simpa [Logits.row] using h)]
  simp only [Logits.row, List.getElem_map, List.getElem_range]

/-- Later tokens of the order have logits no larger. -/
theorem index_descending {i j : ℕ} (hij : i < j) (hj : j < logits.vocab) :
    logits.entry b ((S.index (logits.row b)).getD j 0) ≤
      logits.entry b ((S.index (logits.row b)).getD i 0) := by
  have hlen := length_index S logits b
  have hj' : j < (S.index (logits.row b)).length := by omega
  have hi' : i < (S.index (logits.row b)).length := by omega
  have hmem : ∀ t ∈ S.index (logits.row b), t < logits.vocab := fun t ht =>
    List.mem_range.mp ((index_perm S logits b).mem_iff.mp ht)
  have hpair := List.pairwise_iff_getElem.mp (S.descending (logits.row b)) i j hi' hj' hij
  rw [getD_row logits b (hmem _ (List.getElem_mem hj')),
    getD_row logits b (hmem _ (List.getElem_mem hi'))] at hpair
  rwa [List.getD_eq_getElem _ 0 hj', List.getD_eq_getElem _ 0 hi']

/-- The sorted logits, read off the row. -/
theorem map_index : (S.index (logits.row b)).map (logits.entry b) =
    (S.index (logits.row b)).map ((logits.row b).getD · ⊥) := by
  refine List.map_congr_left fun t ht => (getD_row logits b ?_).symm
  exact List.mem_range.mp ((index_perm S logits b).mem_iff.mp ht)

end Sorted

/-- The mass ahead of the `i`-th token of the order, as the tensor library adds it up. -/
def cumulativeBefore {K P : Type} [Sub K] [LinearOrder K] (S : Sorting K) (A : Arithmetic K P)
    (row : List (WithBot K)) (i : ℕ) : K :=
  let probs := A.softmax ((S.index row).map (row.getD · ⊥))
  A.cumsum ((List.range row.length).map probs) i - probs i

/-- Where some row asks for less than everything, a token survives exactly if the mass ahead of
it is at most its own row's `p`. -/
theorem topP_entry {K P : Type} [Zero K] [Sub K] [LinearOrder K] [Zero P] [One P]
    [LinearOrder P] (S : Sorting K) (A : Arithmetic K P) (logits : Logits K) (topP : List P)
    {b i : ℕ} (hi : i < logits.vocab) :
    let order := S.index (logits.row b)
    (applyTopP S A logits topP).entry b (order.getD i 0) =
      if topP.all (1 ≤ ·) then logits.entry b (order.getD i 0)
      else if A.tensor (topP.getD b 0) < cumulativeBefore S A (logits.row b) i then ⊥
      else logits.entry b (order.getD i 0) := by
  intro order
  have hlen : i < order.length := by
    rw [length_index]
    exact hi
  have hnd : order.Nodup := (index_perm S logits b).nodup_iff.mpr List.nodup_range
  unfold applyTopP
  by_cases hall : topP.all (1 ≤ ·) = true
  · rw [if_pos hall, if_pos hall]
  · rw [if_neg hall, if_neg hall]
    unfold Logits.maskedFill
    dsimp only
    refine if_congr ?_ rfl rfl
    rw [List.getD_eq_getElem order 0 hlen, scatter_getElem hnd _ _ hlen, decide_eq_true_iff,
      cumulativeBefore, map_index, Logits.row, List.length_map, List.length_range]

/-! ## §3  Exact arithmetic -/

section Filter

variable [LinearOrder K] (S : Sorting K) (E : Exponential K) (logits : Logits K) (b : ℕ)

/-- The softmax of the sorted row is the row's own, sorted. -/
theorem softmax_sorted (i : ℕ) (hi : i < logits.vocab) :
    (Arithmetic.exact E).softmax
        ((S.index (logits.row b)).map ((logits.row b).getD · ⊥)) i =
      E.softmax logits.vocab (logits.entry b) ((S.index (logits.row b)).getD i 0) := by
  have hget : ∀ j < logits.vocab,
      ((S.index (logits.row b)).map (logits.entry b)).getD j ⊥ =
        logits.entry b ((S.index (logits.row b)).getD j 0) := by
    intro j hj
    rw [← length_index S logits b] at hj
    rw [List.getD_eq_getElem _ ⊥ (by rwa [List.length_map]), List.getElem_map,
      List.getD_eq_getElem _ 0 hj]
  rw [← map_index, Arithmetic.exact_softmax]
  unfold Exponential.softmax
  dsimp only
  rw [List.length_map, length_index, hget i hi,
    ← sum_order (index_perm S logits b) fun t => E.exp (logits.entry b t)]
  refine congrArg _ (Finset.sum_congr rfl fun j hj => ?_)
  rw [hget j (Finset.mem_range.mp hj)]

/-- Exactly added up, the mass ahead is the sum of the probabilities ahead. -/
theorem cumulativeBefore_exact {i : ℕ} (hi : i < logits.vocab) :
    cumulativeBefore S (Arithmetic.exact E) (logits.row b) i =
      massAhead (S.index (logits.row b)) (E.softmax logits.vocab (logits.entry b)) i := by
  have hlen : (logits.row b).length = logits.vocab := by
    rw [Logits.row, List.length_map, List.length_range]
  have hprob : ∀ j < logits.vocab, ((List.range (logits.row b).length).map
      ((Arithmetic.exact E).softmax
        ((S.index (logits.row b)).map ((logits.row b).getD · ⊥)))).getD j 0 =
      E.softmax logits.vocab (logits.entry b) ((S.index (logits.row b)).getD j 0) := by
    intro j hj
    rw [List.getD_eq_getElem _ 0 (by simpa [hlen] using hj), List.getElem_map,
      List.getElem_range, softmax_sorted S E logits b j hj]
  unfold cumulativeBefore
  dsimp only
  rw [Arithmetic.exact_cumsum, Finset.sum_range_succ, hprob i hi,
      softmax_sorted S E logits b i hi, add_sub_cancel_right]
  exact Finset.sum_congr rfl fun j hj => hprob j ((Finset.mem_range.mp hj).trans hi)

variable [IsStrictOrderedRing K]

theorem massAhead_le_one {i : ℕ} (hi : i ≤ logits.vocab) :
    massAhead (S.index (logits.row b)) (E.softmax logits.vocab (logits.entry b)) i ≤ 1 := by
  refine (massAhead_mono (fun t => E.softmax_nonneg t) hi).trans ?_
  unfold massAhead
  rw [sum_order (index_perm S logits b)]
  exact E.sum_softmax_le_one

variable {b}

/-- A token survives exactly if the mass ahead of it is at most `p`; a row that asks for
everything has no more than that. -/
theorem topP_entry_exact (topP : List K) (hb : b < topP.length) {i : ℕ}
    (hi : i < logits.vocab) :
    let order := S.index (logits.row b)
    (applyTopP S E logits topP).entry b (order.getD i 0) =
      if topP.getD b 0 < massAhead order (E.softmax logits.vocab (logits.entry b)) i then ⊥
      else logits.entry b (order.getD i 0) := by
  intro order
  refine (topP_entry S _ logits topP hi).trans ?_
  rw [cumulativeBefore_exact S E logits b hi]
  by_cases hall : topP.all (1 ≤ ·) = true
  · have hp : 1 ≤ topP.getD b 0 := by
      rw [List.getD_eq_getElem topP 0 hb]
      exact of_decide_eq_true (List.all_eq_true.mp hall _ (List.getElem_mem hb))
    rw [if_pos hall, if_neg (not_lt.mpr ((massAhead_le_one S E logits b hi.le).trans hp))]
  · rw [if_neg hall]
    rfl

end Filter

/-! ## §4  The minimal nucleus -/

variable [LinearOrder K]

/-- `out` keeps the shortest prefix of the tokens in descending probability whose mass
reaches `p`, and masks every other token. -/
def KeepsNucleus (order : List ℕ) (prob : ℕ → K) (vocab : ℕ) (p : K)
    (row out : ℕ → WithBot K) : Prop :=
  order.Perm (List.range vocab) ∧ order.Pairwise (fun i j => prob j ≤ prob i) ∧
    ∃ k ≤ vocab, p ≤ massAhead order prob k ∧ (∀ j < k, massAhead order prob j < p) ∧
      ∀ i < vocab, out (order.getD i 0) = if i < k then row (order.getD i 0) else ⊥

/-- For a row with a finite logit, top-p keeps the minimal nucleus exactly if the mass ahead
of no token is `p`. -/
theorem nucleus_iff [IsStrictOrderedRing K] (S : Sorting K) (E : Exponential K)
    (hmono : Monotone E.exp) (logits : Logits K) (topP : List K) {b : ℕ}
    (hb : b < topP.length) (_hpos : 0 < topP.getD b 0) (hlt : topP.getD b 0 < 1)
    (hfinite : ∃ t < logits.vocab, logits.entry b t ≠ ⊥) :
    let order := S.index (logits.row b)
    let prob := E.softmax logits.vocab (logits.entry b)
    KeepsNucleus order prob logits.vocab (topP.getD b 0) (logits.entry b)
        ((applyTopP S E logits topP).entry b) ↔
      ∀ i < logits.vocab, massAhead order prob i ≠ topP.getD b 0 := by
  intro order prob
  have hentry : ∀ i < logits.vocab, (applyTopP S E logits topP).entry b (order.getD i 0) =
      if topP.getD b 0 < massAhead order prob i then ⊥ else logits.entry b (order.getD i 0) :=
    fun i hi => topP_entry_exact S E logits topP hb hi
  have hlen : order.length = logits.vocab := length_index S logits b
  have hmass : ∀ {i j : ℕ}, i ≤ j → massAhead order prob i ≤ massAhead order prob j :=
    massAhead_mono fun t => E.softmax_nonneg t
  have htotal : massAhead order prob logits.vocab = 1 :=
    (sum_order (index_perm S logits b) prob).trans (E.sum_softmax hfinite)
  constructor
  · rintro ⟨-, -, k, hk, hreach, hshort, hout⟩ i hi heq
    have hki : k ≤ i := by
      by_contra hik
      exact (hshort i (Nat.lt_of_not_le hik)).ne heq
    -- the code keeps token `i`, the shortest prefix does not: it was masked before
    have hkept := hentry i hi
    rw [if_neg (by rw [heq]; exact lt_irrefl _), hout i hi, if_neg (Nat.not_lt.mpr hki)] at hkept
    -- so nothing is left behind it, and the prefix has the whole mass
    have hrest : ∀ j, i ≤ j → j ≤ logits.vocab →
        massAhead order prob j = massAhead order prob i := by
      intro j hij
      induction j, hij using Nat.le_induction with
      | base => exact fun _ => rfl
      | succ j hij ih =>
          intro hj
          have hbot : logits.entry b (order.getD j 0) = ⊥ := by
            rcases Nat.eq_or_lt_of_le hij with rfl | hlt
            · exact hkept.symm
            · exact le_bot_iff.mp (hkept ▸ index_descending S logits b hlt hj)
          have hzero : prob (order.getD j 0) = 0 := by
            change E.softmax _ _ _ = 0
            rw [Exponential.softmax, hbot, E.exp_bot, zero_div]
          rw [massAhead_succ, ih (Nat.le_of_succ_le hj), hzero, add_zero]
    rw [← hrest logits.vocab hi.le (Nat.le_refl _), htotal] at heq
    exact hlt.ne' heq
  · intro hne
    have hexists : ∃ k, topP.getD b 0 ≤ massAhead order prob k := ⟨logits.vocab, by
      rw [htotal]
      exact hlt.le⟩
    refine ⟨index_perm S logits b, ?_, Nat.find hexists,
    Nat.find_min' hexists (by rw [htotal]; exact hlt.le),
      Nat.find_spec hexists, fun j hj => not_le.mp (Nat.find_min hexists hj), fun i hi => ?_⟩
    · refine List.pairwise_iff_getElem.mpr fun i j hi hj hij => E.softmax_le_softmax hmono ?_
      have hle := index_descending S logits b hij (hlen ▸ hj)
      rwa [List.getD_eq_getElem _ 0 hj, List.getD_eq_getElem _ 0 hi] at hle
    · rw [hentry i hi]
      by_cases hik : i < Nat.find hexists
      · rw [if_pos hik, if_neg (not_lt.mpr (not_le.mp (Nat.find_min hexists hik)).le)]
      · have hreached : topP.getD b 0 ≤ massAhead order prob i :=
          (Nat.find_spec hexists).trans (hmass (Nat.le_of_not_lt hik))
        rw [if_neg hik, if_pos (lt_of_le_of_ne hreached (hne i hi).symm)]

/-- Two equally likely tokens. -/
def evenRow : Logits ℝ := ⟨1, 2, fun _ _ => 0⟩

theorem even_prob (t : ℕ) : Exponential.real.softmax 2 (evenRow.entry 0) t = 1 / 2 := by
  have hexp : Exponential.real.exp (0 : WithBot ℝ) = 1 := Real.exp_zero
  simp only [Exponential.softmax, evenRow, hexp, Finset.sum_const, Finset.card_range]
  norm_num

theorem even_massAhead : massAhead ((Sorting.stable ℝ).index (evenRow.row 0))
    (Exponential.real.softmax 2 (evenRow.entry 0)) 1 = 1 / 2 := by
  rw [massAhead_succ, even_prob]
  exact zero_add _

theorem nucleus_iff_third :
    KeepsNucleus ((Sorting.stable ℝ).index (evenRow.row 0))
      (Exponential.real.softmax 2 (evenRow.entry 0)) 2 (1 / 3) (evenRow.entry 0)
      ((applyTopP (.stable ℝ) Exponential.real evenRow ([1 / 3] : List ℝ)).entry 0) := by
  have hiff := nucleus_iff (.stable ℝ) .real Exponential.real_monotone evenRow [1 / 3] (b := 0)
    (by decide) (by norm_num) (by norm_num) ⟨0, by decide, WithBot.coe_ne_bot⟩
  refine hiff.mpr fun i hi => ?_
  have hi' : i < 2 := hi
  interval_cases i
  · have hzero : (0 : ℝ) ≠ 1 / 3 := by norm_num
    exact hzero
  · have hhalf : (1 / 2 : ℝ) ≠ 1 / 3 := by norm_num
    exact even_massAhead ▸ hhalf

theorem even_keeps_both :
    ¬ KeepsNucleus ((Sorting.stable ℝ).index (evenRow.row 0))
      (Exponential.real.softmax 2 (evenRow.entry 0)) 2 (1 / 2) (evenRow.entry 0)
      ((applyTopP (.stable ℝ) Exponential.real evenRow ([1 / 2] : List ℝ)).entry 0) := by
  rintro ⟨-, -, k, hk, hreach, hshort, hout⟩
  have hmass := even_massAhead
  -- the shortest prefix is the first token
  have hone : k = 1 := by
    rcases Nat.lt_trichotomy k 1 with hlt | heq | hgt
    · obtain rfl : k = 0 := by omega
      have hzero : (1 / 2 : ℝ) ≤ 0 := hreach
      norm_num at hzero
    · exact heq
    · exact absurd (hshort 1 hgt) (by rw [hmass]; exact lt_irrefl _)
  subst hone
  -- and the code keeps the second as well
  have hsecond := hout 1 (by decide)
  rw [if_neg (lt_irrefl 1)] at hsecond
  have hkept := topP_entry_exact (.stable ℝ) .real evenRow [1 / 2] (b := 0) (by decide) (i := 1)
    (by decide)
  have hle : ¬ ([1 / 2] : List ℝ).getD 0 0 <
      massAhead ((Sorting.stable ℝ).index (evenRow.row 0))
        (Exponential.real.softmax 2 (evenRow.entry 0)) 1 := by
    rw [hmass]
    exact lt_irrefl _
  exact absurd (hsecond.symm.trans (hkept.trans (if_neg hle))) (by exact WithBot.bot_ne_coe)

end TurboServe.Model
