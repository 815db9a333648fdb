import TurboServe.Lib.OrderStatistic
import TurboServe.Properties.Nucleus

/-!
# A row of the batch and the same row alone

Penalty, temperature and top-k do to a row what its own parameters ask of that row, whatever
the other rows ask: the early returns, the padded scatter and the shared and seeded draws come
to the row's own transforms. Top-p does so but for a row that asks for everything: it is left
alone only if every row is. Beside a row that is filtered it loses the tokens ahead of which
the rounded masses add up to more than one.
-/

namespace TurboServe.Model

open Lib

section Lists

variable {K : Type}

theorem length_row (x : Logits K) (b : ℕ) : (x.row b).length = x.vocab := by
  rw [Logits.row, List.length_map, List.length_range]

/-- Rows of one length agree when their entries do. -/
theorem row_ext {xs ys : List (WithBot K)} (hlen : xs.length = ys.length)
    (h : ∀ t < ys.length, xs.getD t ⊥ = ys.getD t ⊥) : xs = ys := by
  refine List.ext_getElem hlen fun t ht ht' => ?_
  rw [← List.getD_eq_getElem xs ⊥ ht, ← List.getD_eq_getElem ys ⊥ ht', h t ht']

theorem getD_mapIdx (f : ℕ → WithBot K → WithBot K) {xs : List (WithBot K)} {t : ℕ}
    (ht : t < xs.length) : (xs.mapIdx f).getD t ⊥ = f t (xs.getD t ⊥) := by
  rw [List.getD_eq_getElem _ ⊥ (by rwa [List.length_mapIdx]), List.getElem_mapIdx,
    List.getD_eq_getElem _ ⊥ ht]

theorem getD_map (f : WithBot K → WithBot K) {xs : List (WithBot K)} {t : ℕ}
    (ht : t < xs.length) : (xs.map f).getD t ⊥ = f (xs.getD t ⊥) := by
  rw [List.getD_eq_getElem _ ⊥ (by rwa [List.length_map]), List.getElem_map,
    List.getD_eq_getElem _ ⊥ ht]

/-! ## §1  The argmax -/

variable [LinearOrder K] (row : List (WithBot K))

theorem larger_asymm (a b : ℕ) (h : decide (row.getD b ⊥ < row.getD a ⊥) = true) :
    decide (row.getD a ⊥ < row.getD b ⊥) = false :=
  decide_eq_false (not_lt.mpr (of_decide_eq_true h).le)

theorem larger_trans (a b c : ℕ) (hab : decide (row.getD b ⊥ < row.getD a ⊥) = false)
    (hbc : decide (row.getD c ⊥ < row.getD b ⊥) = false) :
    decide (row.getD c ⊥ < row.getD a ⊥) = false :=
  decide_eq_false (not_lt.mpr
    ((not_lt.mp (of_decide_eq_false hab)).trans (not_lt.mp (of_decide_eq_false hbc))))

variable {row}

theorem minBy_argmax (hne : row ≠ []) :
    minBy (fun i j => decide (row.getD j ⊥ < row.getD i ⊥)) (List.range row.length) =
      some (argmax row) := by
  unfold argmax
  cases hmin : minBy (fun i j => decide (row.getD j ⊥ < row.getD i ⊥)) (List.range row.length) with
  | none =>
      rw [minBy_eq_none, List.range_eq_nil] at hmin
      exact absurd (List.length_eq_zero_iff.mp hmin) hne
  | some m => rfl

theorem argmax_spec (hne : row ≠ []) :
    argmax row < row.length ∧ ∀ j < row.length, row.getD j ⊥ ≤ row.getD (argmax row) ⊥ := by
  have hmin := minBy_argmax hne
  refine ⟨List.mem_range.mp (minBy_mem hmin), fun j hj => ?_⟩
  exact not_lt.mp (of_decide_eq_false
    (minBy_least (larger_asymm row) (larger_trans row) hmin j (List.mem_range.mpr hj)))

/-- The argmax is the first of the largest entries. -/
theorem argmax_first (hne : row ≠ []) {j : ℕ} (hj : j < argmax row) :
    row.getD j ⊥ < row.getD (argmax row) ⊥ := by
  obtain ⟨before, after, hsplit, hless⟩ :=
    minBy_first (larger_asymm row) (larger_trans row) (minBy_argmax hne)
  have hlen : before.length < (List.range row.length).length := by
    rw [hsplit, List.length_append, List.length_cons]
    omega
  have hbefore : before.length = argmax row := by
    have hget := List.getElem_range (n := row.length) hlen
    simp only [hsplit, List.getElem_append_right (Nat.le_refl _), Nat.sub_self,
      List.getElem_cons_zero] at hget
    exact hget.symm
  have hmem : j ∈ before := by
    have hj' : j < before.length := hbefore ▸ hj
    have hget := List.getElem_range (n := row.length) (hj'.trans hlen)
    simp only [hsplit, List.getElem_append_left hj'] at hget
    exact hget ▸ List.getElem_mem hj'
  exact of_decide_eq_true (hless j hmem)

theorem argmax_eq {m : ℕ} (hm : m < row.length)
    (hmax : ∀ j < row.length, row.getD j ⊥ ≤ row.getD m ⊥)
    (hfirst : ∀ j < m, row.getD j ⊥ < row.getD m ⊥) : argmax row = m := by
  have hne : row ≠ [] := List.ne_nil_of_length_pos (Nat.zero_lt_of_lt hm)
  obtain ⟨ha, hamax⟩ := argmax_spec hne
  rcases Nat.lt_trichotomy (argmax row) m with hlt | heq | hgt
  · exact absurd (hfirst _ hlt) (not_lt.mpr (hamax m hm))
  · exact heq
  · exact absurd (argmax_first hne hgt) (not_lt.mpr (hmax _ ha))

end Lists

variable {K P : Type} [Zero K] [Mul K] [Div K] [Sub K] [LinearOrder K]
variable [Zero P] [One P] [LinearOrder P] {A : Arithmetic K P}

/-- What holds of the arithmetic, rounded or not: one is a unit, a number less itself is
nothing, the first sum is its only number, and `-∞` has no probability beside a number. -/
structure Arithmetic.Lawful (A : Arithmetic K P) : Prop where
  mul_one : ∀ x : K, x * A.tensor 1 = x
  div_one : ∀ x : K, x / A.tensor 1 = x
  sub_self : ∀ x : K, x - x = 0
  tensor_nonneg : ∀ p : P, 0 < p → 0 ≤ A.tensor p
  cumsum_zero : ∀ (x : K) (xs : List K), A.cumsum (x :: xs) 0 = x
  softmax_bot : ∀ (row : List (WithBot K)) (t : ℕ), (∃ x ∈ row, x ≠ ⊥) → t < row.length →
    row.getD t ⊥ = ⊥ → A.softmax row t = 0

/-! ## §2  One row -/

/-- The logits of seen tokens are penalised. -/
def penalisedRow (A : Arithmetic K P) (penalty : P) (history : List ℕ)
    (row : List (WithBot K)) : List (WithBot K) :=
  row.mapIdx fun t x => if t ∈ history then penalise (A.tensor penalty) x else x

/-- A greedy row is left alone. -/
def temperedRow (A : Arithmetic K P) (temperature : P) (row : List (WithBot K)) :
    List (WithBot K) :=
  if 0 < temperature then row.map (WithBot.map (· / A.tensor temperature)) else row

/-- A token survives when fewer than `k` tokens are strictly more likely; `0` is no filter. -/
def topKRow (k : ℕ) (row : List (WithBot K)) : List (WithBot K) :=
  row.map fun x => if 0 < k ∧ k ≤ row.countP (x < ·) then ⊥ else x

/-- A token survives when the mass ahead of it is at most `p`. -/
def filteredRow (S : Sorting K) (A : Arithmetic K P) (p : P) (row : List (WithBot K)) :
    List (WithBot K) :=
  row.mapIdx fun t x =>
    if A.tensor p < cumulativeBefore S A row ((S.index row).idxOf t) then ⊥ else x

/-- A row that asks for everything is left alone. -/
def topPRow (S : Sorting K) (A : Arithmetic K P) (p : P) (row : List (WithBot K)) :
    List (WithBot K) :=
  if 1 ≤ p then row else filteredRow S A p row

/-- What top-p makes of a row among rows that ask for `topP`. -/
def topPBeside (S : Sorting K) (A : Arithmetic K P) (topP : List P) (p : P)
    (row : List (WithBot K)) : List (WithBot K) :=
  if topP.all (1 ≤ ·) then row else filteredRow S A p row

/-- The transforms of a request before top-p, applied to its row alone. -/
def keptRow (A : Arithmetic K P) (p : SamplerParams P) (history : List ℕ)
    (row : List (WithBot K)) : List (WithBot K) :=
  topKRow p.topK (temperedRow A p.temperature (penalisedRow A p.repetitionPenalty history row))

/-- The four transforms of a request, applied to its row alone. -/
def shapedRow (S : Sorting K) (A : Arithmetic K P) (p : SamplerParams P) (history : List ℕ)
    (row : List (WithBot K)) : List (WithBot K) :=
  topPRow S A p.topP (keptRow A p history row)

/-- What a row is drawn from. -/
def rowDraw (A : Arithmetic K P) (p : SamplerParams P) (generator : Option Generator)
    (row : List (WithBot K)) : Drawn K :=
  if p.temperature = 0 then .argmax (argmax row)
  else .multinomial generator ((List.range row.length).map (A.softmax row))

/-! ## §3  The transforms -/

theorem penalise_one (hA : A.Lawful) (x : WithBot K) : penalise (A.tensor 1) x = x := by
  unfold penalise
  cases x with
  | bot => split <;> rfl
  | coe x =>
      split
      · exact congrArg WithBot.some (hA.mul_one x)
      · exact congrArg WithBot.some (hA.div_one x)

section Penalty

variable {logits out : Logits K} {penalties : List P} {history : List (List ℕ)}

/-- The padded index row names the tokens of the history. -/
theorem mem_padded {xs : List ℕ} (hne : 0 < xs.length) {width : ℕ} (hw : xs.length ≤ width)
    {t : ℕ} : t ∈ padded xs width ↔ t ∈ xs := by
  unfold padded
  rw [List.mem_map]
  constructor
  · rintro ⟨c, -, rfl⟩
    by_cases hc : c < xs.length
    · rw [List.getD_eq_getElem _ _ hc]
      exact List.getElem_mem hc
    · cases xs with
      | nil => exact absurd hne (Nat.lt_irrefl 0)
      | cons x xs =>
          rw [List.getD_eq_default _ _ (Nat.le_of_not_lt hc)]
          exact List.mem_cons_self
  · intro ht
    obtain ⟨c, hc, rfl⟩ := List.mem_iff_getElem.mp ht
    exact ⟨c, List.mem_range.mpr (hc.trans_le hw), List.getD_eq_getElem _ _ hc⟩

omit [Zero P] [One P] [LinearOrder P] in
omit [Sub K] in
/-- The penalised entry of a token. -/
theorem getD_penalisedRow (penalty : P) (seen : List ℕ) {row : List (WithBot K)} {t : ℕ}
    (ht : t < row.length) : (penalisedRow A penalty seen row).getD t ⊥ =
      if t ∈ seen then penalise (A.tensor penalty) (row.getD t ⊥) else row.getD t ⊥ :=
  getD_mapIdx _ ht

/-- A row that asks for no penalty, or has no history, is its own penalised row. -/
theorem penalisedRow_idle (hA : A.Lawful) {penalty : P} {seen : List ℕ}
    (h : penalty = 1 ∨ seen = []) (row : List (WithBot K)) :
    penalisedRow A penalty seen row = row := by
  refine row_ext (List.length_mapIdx ..) fun t ht => ?_
  rw [getD_penalisedRow penalty seen ht]
  rcases h with rfl | rfl
  · rw [penalise_one hA, ite_self]
  · exact if_neg List.not_mem_nil

theorem applyRepetitionPenalty_row (hA : A.Lawful)
    (h : applyRepetitionPenalty A logits penalties history = .ok out)
    {b : ℕ} (hb : b < penalties.length) :
    out.vocab = logits.vocab ∧
      out.row b = penalisedRow A (penalties.getD b 1) (history.getD b []) (logits.row b) := by
  unfold applyRepetitionPenalty at h
  by_cases hzip : penalties.length ≠ history.length
  · rw [if_pos hzip] at h
    cases h
  rw [if_neg hzip] at h
  dsimp only at h
  set rows := (List.range penalties.length).filter fun i =>
    penalties.getD i 1 ≠ 1 ∧ 0 < (history.getD i []).length with hrows
  have hmem : b ∈ rows ↔ penalties.getD b 1 ≠ 1 ∧ 0 < (history.getD b []).length := by
    rw [hrows, List.mem_filter, List.mem_range, decide_eq_true_iff]
    exact and_iff_right hb
  have hidle : b ∉ rows → penalties.getD b 1 = 1 ∨ history.getD b [] = [] := by
    intro hnot
    by_contra hbusy
    rw [not_or] at hbusy
    exact hnot (hmem.mpr ⟨hbusy.1, List.length_pos_iff.mpr hbusy.2⟩)
  by_cases hnone : rows = []
  · rw [if_pos hnone] at h
    obtain rfl := Except.ok.inj h
    have hnot : b ∉ rows := by
      rw [hnone]
      exact List.not_mem_nil
    exact ⟨rfl, (penalisedRow_idle hA (hidle hnot) _).symm⟩
  rw [if_neg hnone] at h
  split at h
  · cases h
  obtain rfl := Except.ok.inj h
  refine ⟨rfl, ?_⟩
  by_cases hbr : b ∈ rows
  · refine row_ext (by rw [penalisedRow, List.length_mapIdx, length_row, length_row]; rfl)
      fun t ht => ?_
    rw [penalisedRow, List.length_mapIdx, length_row] at ht
    rw [getD_penalisedRow _ _ (by rwa [length_row]), getD_row logits b ht]
    refine Eq.trans (getD_row _ b ?_) ?_
    · exact ht
    obtain ⟨r, hr, rfl⟩ := List.mem_iff_getElem.mp hbr
    obtain ⟨-, hseen⟩ := hmem.mp hbr
    have hnd : rows.Nodup := List.nodup_range.filter _
    have hget : rows.getD r 0 = rows[r] := List.getD_eq_getElem rows 0 hr
    have hwidth : (history.getD rows[r] []).length ≤
        (rows.map fun i => (history.getD i []).length).foldl max 0 :=
      (le_foldl_max _ 0).2 _ (List.mem_map_of_mem (List.getElem_mem hr))
    unfold Logits.indexCopy Logits.indexSelect
    dsimp only
    rw [scatter_getElem hnd _ _ hr]
    simp only [hget]
    by_cases htseen : t ∈ history.getD rows[r] []
    · rw [if_pos htseen]
      refine scatter_of_mem _ (fun c hc => ?_) ((mem_padded hseen hwidth).mpr htseen)
      -- a repeated token is told its one penalised value each time
      have htoken := List.getD_eq_getElem?_getD.trans (congrArg (Option.getD · 0) hc)
      exact congrArg (fun t => penalise _ (logits.entry rows[r] t)) htoken
    · rw [if_neg htseen]
      exact scatter_of_not_mem _ _ fun hpad => htseen ((mem_padded hseen hwidth).mp hpad)
  · rw [penalisedRow_idle hA (hidle hbr)]
    unfold Logits.row Logits.indexCopy
    dsimp only
    rw [scatter_of_not_mem _ _ hbr]

end Penalty

theorem applyTemperature_row (hA : A.Lawful) (logits : Logits K) (temperatures : List P)
    {b : ℕ} (hb : b < temperatures.length) :
    (applyTemperature A logits temperatures).vocab = logits.vocab ∧
      (applyTemperature A logits temperatures).row b =
        temperedRow A (temperatures.getD b 0) (logits.row b) := by
  set values := temperatures.map fun temp => if 0 < temp then temp else 1 with hvalues
  have hvalue : values.getD b 1 = if 0 < temperatures.getD b 0 then temperatures.getD b 0 else 1 := by
    rw [List.getD_eq_getElem values 1 (by rwa [hvalues, List.length_map]), List.getElem_map,
      List.getD_eq_getElem temperatures 0 hb]
  -- dividing by one changes nothing
  have hone : ∀ x : WithBot K, x.map (· / A.tensor 1) = x := by
    intro x
    cases x with
    | bot => rfl
    | coe x => exact congrArg WithBot.some (hA.div_one x)
  have htempered : temperedRow A (temperatures.getD b 0) (logits.row b) =
      (logits.row b).map (WithBot.map (· / A.tensor (values.getD b 1))) := by
    unfold temperedRow
    rw [hvalue]
    by_cases hpos : 0 < temperatures.getD b 0
    · rw [if_pos hpos, if_pos hpos]
    · rw [if_neg hpos, if_neg hpos]
      exact (List.map_id'' hone _).symm
  rw [htempered]
  unfold applyTemperature
  by_cases hall : values.all (· = 1) = true
  · have hb1 : values.getD b 1 = 1 := by
      rw [List.getD_eq_getElem values 1 (by rwa [hvalues, List.length_map])]
      exact of_decide_eq_true (List.all_eq_true.mp hall _ (List.getElem_mem _))
    rw [if_pos hall, hb1]
    exact ⟨rfl, (List.map_id'' hone _).symm⟩
  · rw [if_neg hall]
    refine ⟨rfl, ?_⟩
    unfold Logits.row
    rw [List.map_map]
    rfl

omit [Zero K] [Mul K] [Div K] [Sub K] in
theorem applyTopK_row (logits : Logits K) (topK : List ℕ) {b : ℕ} (hb : b < topK.length) :
    (applyTopK logits topK).vocab = logits.vocab ∧
      (applyTopK logits topK).row b = topKRow (topK.getD b 0) (logits.row b) := by
  set values := topK.map fun k => if k ≤ 0 then logits.vocab else min k logits.vocab with hvalues
  have hblen : b < values.length := by rwa [hvalues, List.length_map]
  have hvalue : values.getD b 0 =
      if topK.getD b 0 ≤ 0 then logits.vocab else min (topK.getD b 0) logits.vocab := by
    rw [List.getD_eq_getElem values 0 hblen, List.getElem_map, List.getD_eq_getElem topK 0 hb]
  -- what survives depends on how many tokens are strictly more likely
  have hcount : ∀ t < logits.vocab, (logits.row b).countP (logits.entry b t < ·) < logits.vocab := by
    intro t ht
    have hself : t < (logits.row b).length := by rwa [length_row]
    rw [← length_row logits b]
    refine List.countP_lt_length_iff.mpr ⟨(logits.row b)[t], List.getElem_mem hself, ?_⟩
    rw [← List.getD_eq_getElem _ ⊥ hself, getD_row logits b ht]
    exact decide_eq_false (lt_irrefl _)
  have hsurvives : ∀ t < logits.vocab,
      (values.getD b 0 ≤ (logits.row b).countP (logits.entry b t < ·)) ↔
        0 < topK.getD b 0 ∧ topK.getD b 0 ≤ (logits.row b).countP (logits.entry b t < ·) := by
    intro t ht
    have hlt := hcount t ht
    rw [hvalue]
    split <;> omega
  have hrow : ∀ t < logits.vocab, (topKRow (topK.getD b 0) (logits.row b)).getD t ⊥ =
      if values.getD b 0 ≤ (logits.row b).countP (logits.entry b t < ·) then ⊥
      else logits.entry b t := by
    intro t ht
    rw [topKRow, getD_map _ (by rwa [length_row]), getD_row logits b ht]
    exact if_congr (hsurvives t ht).symm rfl rfl
  have hlen : (topKRow (topK.getD b 0) (logits.row b)).length = logits.vocab := by
    rw [topKRow, List.length_map, length_row]
  unfold applyTopK
  by_cases hall : values.all (logits.vocab ≤ ·) = true
  · -- every row keeps everything
    have hb1 : logits.vocab ≤ values.getD b 0 := by
      rw [List.getD_eq_getElem values 0 hblen]
      exact of_decide_eq_true (List.all_eq_true.mp hall _ (List.getElem_mem _))
    rw [if_pos hall]
    refine ⟨rfl, row_ext ((length_row ..).trans hlen.symm) fun t ht => ?_⟩
    rw [hlen] at ht
    rw [hrow t ht, getD_row logits b ht, if_neg]
    have hlt := hcount t ht
    omega
  · rw [if_neg hall]
    refine ⟨rfl, row_ext ((length_row ..).trans hlen.symm) fun t ht => ?_⟩
    rw [hlen] at ht
    rw [hrow t ht]
    refine Eq.trans (getD_row _ b ?_) ?_
    · exact ht
    have hmax : values.getD b 0 ≤ values.foldl max 0 := by
      rw [List.getD_eq_getElem values 0 hblen]
      exact (le_foldl_max values 0).2 _ (List.getElem_mem hblen)
    have hpos : 0 < values.getD b 0 ∧ values.getD b 0 ≤ logits.vocab := by
      rw [hvalue]
      split <;> omega
    have hsorted : values.getD b 0 - 1 < ((logits.row b).insertionSort (· ≥ ·)).length := by
      rw [List.length_insertionSort, length_row]
      omega
    -- the threshold is the row's own, however many the largest row keeps
    have hthreshold : (((logits.row b).insertionSort (· ≥ ·)).take (values.foldl max 0)).getD
        (min (values.getD b 0) (values.foldl max 0) - 1) ⊥ =
        ((logits.row b).insertionSort (· ≥ ·))[values.getD b 0 - 1] := by
      rw [min_eq_left hmax, List.getD_eq_getElem?_getD, List.getElem?_take_of_lt (by omega),
        List.getElem?_eq_getElem hsorted, Option.getD_some]
    refine if_congr ?_ rfl rfl
    refine decide_eq_true_iff.trans
      ((Iff.of_eq (congrArg (logits.entry b t < ·) hthreshold)).trans ?_)
    rw [lt_sorted_iff]
    omega

omit [Zero K] [Mul K] [Div K] [Zero P] [One P] [LinearOrder P] in
theorem length_filteredRow (S : Sorting K) (p : P) (row : List (WithBot K)) :
    (filteredRow S A p row).length = row.length := List.length_mapIdx ..

omit [Zero K] [Mul K] [Div K] [Zero P] in
theorem length_topPBeside (S : Sorting K) (topP : List P) (p : P) (row : List (WithBot K)) :
    (topPBeside S A topP p row).length = row.length := by
  unfold topPBeside
  split
  · rfl
  · exact length_filteredRow S p row

omit [Zero K] [Mul K] [Div K] [Zero P] [One P] [LinearOrder P] in
/-- A token of a row that is filtered. -/
theorem getD_filteredRow (S : Sorting K) (p : P) {row : List (WithBot K)} {t : ℕ}
    (ht : t < row.length) : (filteredRow S A p row).getD t ⊥ =
      if A.tensor p < cumulativeBefore S A row ((S.index row).idxOf t) then ⊥
      else row.getD t ⊥ :=
  getD_mapIdx _ ht

omit [Mul K] [Div K] in
theorem applyTopP_row (S : Sorting K) (A : Arithmetic K P) (logits : Logits K) (topP : List P)
    (b : ℕ) : (applyTopP S A logits topP).vocab = logits.vocab ∧
      (applyTopP S A logits topP).row b =
        topPBeside S A topP (topP.getD b 0) (logits.row b) := by
  have hvocab : (applyTopP S A logits topP).vocab = logits.vocab := by
    unfold applyTopP
    split <;> rfl
  refine ⟨hvocab, row_ext ?_ fun t ht => ?_⟩
  · rw [length_row, length_topPBeside, length_row, hvocab]
  rw [length_topPBeside, length_row] at ht
  have hmem : t ∈ S.index (logits.row b) :=
    (index_perm S logits b).mem_iff.mpr (List.mem_range.mpr ht)
  have hidx := List.idxOf_lt_length_of_mem hmem
  have hget : (S.index (logits.row b)).getD ((S.index (logits.row b)).idxOf t) 0 = t := by
    rw [List.getD_eq_getElem _ _ hidx, List.getElem_idxOf hidx]
  have hentry := topP_entry S A logits topP (b := b) (length_index S logits b ▸ hidx)
  dsimp only at hentry
  rw [hget] at hentry
  rw [getD_row _ b (hvocab.symm ▸ ht), hentry, topPBeside]
  split
  · rw [getD_row logits b ht]
  · rw [getD_filteredRow S _ (by rwa [length_row]), getD_row logits b ht]

/-! ## §4  The draws -/

theorem foldl_update (xs : List ℕ) {β : Type} (v : ℕ → β) (f : ℕ → β) (b : ℕ) :
    xs.foldl (fun f i => Function.update f i (v i)) f b = if b ∈ xs then v b else f b := by
  induction xs generalizing f with
  | nil => rfl
  | cons x xs ih =>
      rw [List.foldl_cons, ih]
      by_cases hb : b ∈ xs
      · rw [if_pos hb, if_pos (List.mem_cons_of_mem _ hb)]
      · by_cases hbx : b = x
        · subst hbx
          rw [if_neg hb, if_pos List.mem_cons_self, Function.update_self]
        · rw [if_neg hb, Function.update_of_ne hbx, if_neg]
          exact fun h => hb ((List.mem_cons.mp h).resolve_left hbx)

omit [Zero K] [Mul K] [Div K] [Sub K] in
/-- Shared, seeded or greedy, a row is drawn from its own row. -/
theorem draw_row {device : String} {logits : Logits K}
    {params : List (SamplerParams P)} {generators : Option (List (Option Generator))}
    {tokens : ℕ → Drawn K} (h : draw A device logits params generators = .ok tokens) {b : ℕ}
    {p : SamplerParams P} (hp : params[b]? = some p) :
    tokens b = rowDraw A p (generators.bind fun gs => gs.getD b none) (logits.row b) := by
  have hb : b < params.length := (List.getElem?_eq_some_iff.mp hp).1
  unfold draw at h
  dsimp only at h
  set stochastic := (List.range params.length).filter fun i =>
    (params[i]?).any fun p => p.temperature ≠ 0 with hstochastic
  have hmem : b ∈ stochastic ↔ p.temperature ≠ 0 := by
    rw [hstochastic, List.mem_filter, List.mem_range, hp, Option.any_some, decide_eq_true_iff]
    exact and_iff_right hb
  unfold rowDraw
  rw [length_row]
  by_cases hgreedy : p.temperature = 0
  · -- a greedy row is in neither kind of draw
    have hnot : b ∉ stochastic := fun hs => hmem.mp hs hgreedy
    rw [if_pos hgreedy]
    by_cases hnone : stochastic = []
    · rw [if_pos hnone] at h
      obtain rfl := Except.ok.inj h
      rfl
    · rw [if_neg hnone] at h
      split at h
      · cases h
      · obtain rfl := Except.ok.inj h
        rw [foldl_update, if_neg fun hs => hnot (List.mem_of_mem_filter hs),
          scatter_of_not_mem _ _ fun hs => hnot (List.mem_of_mem_filter hs)]
  · have hs : b ∈ stochastic := hmem.mpr hgreedy
    rw [if_neg hgreedy, if_neg (List.ne_nil_of_mem hs)] at *
    split at h
    · cases h
    · obtain rfl := Except.ok.inj h
      rw [foldl_update]
      cases hgen : generators.bind fun gs => gs.getD b none with
      | some g =>
          rw [if_pos (List.mem_filter.mpr ⟨hs, by rw [hgen]; rfl⟩)]
      | none =>
          rw [if_neg fun hseeded => by
            have hsome := (List.mem_filter.mp hseeded).2
            rw [hgen] at hsome
            cases hsome]
          -- the shared rows are drawn in one call and copied back
          refine scatter_of_mem _ (fun r hr => ?_)
            (List.mem_filter.mpr ⟨hs, by rw [hgen]; rfl⟩)
          rw [List.getD_eq_getElem?_getD, hr, Option.getD_some]

/-! ## §5  The greedy token -/

section Greedy

omit [Zero K] [Mul K] [Div K] [Sub K] in
/-- Top-k masks, and never a largest entry. -/
theorem topKRow_max (k : ℕ) {row : List (WithBot K)} {m : ℕ} (hm : m < row.length)
    (hmax : ∀ j < row.length, row.getD j ⊥ ≤ row.getD m ⊥) :
    (topKRow k row).getD m ⊥ = row.getD m ⊥ ∧
      ∀ t < row.length, (topKRow k row).getD t ⊥ ≤ row.getD t ⊥ := by
  constructor
  · have hnone : row.countP (row.getD m ⊥ < ·) = 0 := by
      refine List.countP_eq_zero.mpr fun x hx => ?_
      obtain ⟨j, hj, rfl⟩ := List.mem_iff_getElem.mp hx
      have hle := hmax j hj
      rw [List.getD_eq_getElem row ⊥ hj] at hle
      simpa using hle
    rw [topKRow, getD_map _ hm, hnone]
    exact if_neg (by omega)
  · intro t ht
    rw [topKRow, getD_map _ ht]
    split
    · exact bot_le
    · exact le_rfl

/-- Nothing is ahead of the first token of the order. -/
theorem cumulativeBefore_zero (hA : A.Lawful) (S : Sorting K) {row : List (WithBot K)}
    (hne : row ≠ []) : cumulativeBefore S A row 0 = 0 := by
  obtain ⟨n, hn⟩ := Nat.exists_eq_succ_of_ne_zero (List.length_pos_iff.mpr hne).ne'
  unfold cumulativeBefore
  dsimp only
  rw [hn, List.range_succ_eq_map, List.map_cons, hA.cumsum_zero]
  exact hA.sub_self _

/-- Top-p masks, and never the first token of the order, which is a largest. -/
theorem filteredRow_max (hA : A.Lawful) (S : Sorting K) {p : P} (hp : 0 < p)
    {row : List (WithBot K)} (hne : row ≠ []) :
    (∃ f < row.length, (filteredRow S A p row).getD f ⊥ = row.getD f ⊥ ∧
        ∀ j < row.length, row.getD j ⊥ ≤ row.getD f ⊥) ∧
      ∀ t < row.length, (filteredRow S A p row).getD t ⊥ ≤ row.getD t ⊥ := by
  have hperm := S.perm row
  constructor
  · cases hindex : S.index row with
    | nil =>
        rw [hindex] at hperm
        have hlen := hperm.length_eq
        rw [List.length_nil, List.length_range] at hlen
        exact absurd (List.length_eq_zero_iff.mp hlen.symm) hne
    | cons f rest =>
        have hdesc := S.descending row
        rw [hindex] at hperm hdesc
        have hf : f < row.length :=
          List.mem_range.mp (hperm.mem_iff.mp List.mem_cons_self)
        refine ⟨f, hf, ?_, fun j hj => ?_⟩
        · rw [getD_filteredRow S p hf, hindex, List.idxOf_cons_self,
            cumulativeBefore_zero hA S hne]
          exact if_neg (not_lt.mpr (hA.tensor_nonneg p hp))
        · rcases List.mem_cons.mp (hperm.mem_iff.mpr (List.mem_range.mpr hj)) with rfl | hrest
          · exact le_rfl
          · exact (List.pairwise_cons.mp hdesc).1 j hrest
  · intro t ht
    rw [getD_filteredRow S p ht]
    split
    · exact bot_le
    · exact le_rfl

theorem topPBeside_max (hA : A.Lawful) (S : Sorting K) (topP : List P) {p : P} (hp : 0 < p)
    {row : List (WithBot K)} (hne : row ≠ []) :
    (∃ f < row.length, (topPBeside S A topP p row).getD f ⊥ = row.getD f ⊥ ∧
        ∀ j < row.length, row.getD j ⊥ ≤ row.getD f ⊥) ∧
      ∀ t < row.length, (topPBeside S A topP p row).getD t ⊥ ≤ row.getD t ⊥ := by
  unfold topPBeside
  split
  · obtain ⟨hm, hmax⟩ := argmax_spec hne
    exact ⟨⟨_, hm, rfl, hmax⟩, fun _ _ => le_rfl⟩
  · exact filteredRow_max hA S hp hne

omit [Sub K] in
theorem length_keptRow (p : SamplerParams P) (history : List ℕ) (row : List (WithBot K)) :
    (keptRow A p history row).length = row.length := by
  unfold keptRow topKRow temperedRow penalisedRow
  split <;> simp

/-- The token a greedy request gets is a most likely one of its penalised row, whatever the
rows beside it. -/
theorem greedy_max (hA : A.Lawful) (S : Sorting K) (topP : List P) {p : SamplerParams P}
    (hgreedy : p.temperature = 0) (history : List ℕ) {row : List (WithBot K)} (hne : row ≠ []) :
    let base := penalisedRow A p.repetitionPenalty history row
    let token := argmax (topPBeside S A topP p.topP (keptRow A p history row))
    token < row.length ∧ ∀ j < row.length, base.getD j ⊥ ≤ base.getD token ⊥ := by
  intro base token
  have hlen : base.length = row.length := List.length_mapIdx ..
  have hbase : base ≠ [] := by
    rw [← List.length_pos_iff, hlen]
    exact List.length_pos_iff.mpr hne
  set kept := keptRow A p history row with hkept
  have hklen : kept.length = row.length := length_keptRow p history row
  have htempered : kept = topKRow p.topK base := by
    rw [hkept, keptRow, temperedRow, hgreedy, if_neg (lt_irrefl _)]
  obtain ⟨hm, hmax⟩ := argmax_spec hbase
  obtain ⟨hkm, hkle⟩ := topKRow_max p.topK hm hmax
  rw [← htempered] at hkm hkle
  have hkne : kept ≠ [] := by
    rw [← List.length_pos_iff, hklen]
    exact List.length_pos_iff.mpr hne
  obtain ⟨⟨f, hf, hff, hfmax⟩, hple⟩ := topPBeside_max hA S topP p.topP_pos hkne
  have hslen := length_topPBeside (A := A) S topP p.topP kept
  have hsne : topPBeside S A topP p.topP kept ≠ [] := by
    rw [← List.length_pos_iff, hslen]
    exact List.length_pos_iff.mpr hkne
  obtain ⟨ha, hamax⟩ : token < kept.length ∧ ∀ j < kept.length,
      (topPBeside S A topP p.topP kept).getD j ⊥ ≤
        (topPBeside S A topP p.topP kept).getD token ⊥ := by
    rw [← hslen]
    exact argmax_spec hsne
  refine ⟨by omega, fun j hj => ?_⟩
  calc base.getD j ⊥ ≤ base.getD (argmax base) ⊥ := hmax j (by omega)
    _ = kept.getD (argmax base) ⊥ := hkm.symm
    _ ≤ kept.getD f ⊥ := hfmax _ (by omega)
    _ = (topPBeside S A topP p.topP kept).getD f ⊥ := hff.symm
    _ ≤ (topPBeside S A topP p.topP kept).getD token ⊥ := hamax f (by omega)
    _ ≤ kept.getD token ⊥ := hple _ (by omega)
    _ ≤ base.getD token ⊥ := hkle _ (by omega)

end Greedy

/-! ## §6  A batch -/

/-- What a step samples from. -/
structure Batch (K P : Type) [Zero P] [One P] [LinearOrder P] where
  logits : Logits K
  params : List (SamplerParams P)
  generators : Option (List (Option Generator))
  tokenHistory : Option (List (List ℕ))

namespace Batch

variable (B : Batch K P)

def sample (S : Sorting K) (A : Arithmetic K P)
    (logSoftmax : List (WithBot K) → ℕ → WithBot K) (device : String) :
    Except SamplerFault (SamplerOutput K) :=
  forward S A logSoftmax device B.logits B.params B.generators B.tokenHistory

/-- A row's token history; without histories no token is penalised. -/
def history (b : ℕ) : List ℕ := B.tokenHistory.elim [] (·.getD b [])

def generator (b : ℕ) : Option Generator := B.generators.bind (·.getD b none)

end Batch

/-- A draw without the generator it is made with. -/
def Drawn.law : Drawn K → Drawn K
  | argmax t => argmax t
  | multinomial _ probs => multinomial none probs

section Batches

variable {S : Sorting K} {logSoftmax : List (WithBot K) → ℕ → WithBot K}

/-- A row of the step is drawn from its own transforms, up to top-p, which looks at what the
other rows ask for. -/
theorem sample_row (hA : A.Lawful) {device : String} {B : Batch K P} {out : SamplerOutput K}
    (h : B.sample S A logSoftmax device = .ok out) {b : ℕ} {p : SamplerParams P}
    (hp : B.params[b]? = some p) :
    out.tokens[b]? = some (rowDraw A p (B.generator b)
      (topPBeside S A (B.params.map (·.topP)) p.topP
        (keptRow A p (B.history b) (B.logits.row b)))) := by
  have hb : b < B.params.length := (List.getElem?_eq_some_iff.mp hp).1
  unfold Batch.sample forward at h
  by_cases hparams : B.params.length ≠ B.logits.batch
  · rw [if_pos hparams] at h
    cases h
  rw [if_neg hparams] at h
  have hbatch : b < B.logits.batch := not_not.mp hparams ▸ hb
  split at h
  · cases h
  split at h
  · cases h
  rw [if_neg (by omega)] at h
  -- each parameter column names the row's own
  have hcolumn : ∀ {β : Type} (f : SamplerParams P → β) (d : β), (B.params.map f).getD b d = f p := by
    intro β f d
    rw [List.getD_eq_getElem?_getD, List.getElem?_map, hp, Option.map_some, Option.getD_some]
  have hlength : ∀ {β : Type} (f : SamplerParams P → β), b < (B.params.map f).length := by
    intro β f
    rwa [List.length_map]
  cases hwork : B.tokenHistory.elim (.ok B.logits)
      (applyRepetitionPenalty A B.logits (B.params.map (·.repetitionPenalty))) with
  | error e =>
      rw [hwork] at h
      cases h
  | ok work =>
      rw [hwork] at h
      dsimp only at h
      have hpenalised : work.row b =
          penalisedRow A p.repetitionPenalty (B.history b) (B.logits.row b) := by
        unfold Batch.history
        cases htokens : B.tokenHistory with
        | none =>
            rw [htokens] at hwork
            obtain rfl := Except.ok.inj hwork
            exact (penalisedRow_idle hA (.inr rfl) _).symm
        | some histories =>
            rw [htokens] at hwork
            have hrow := (applyRepetitionPenalty_row hA hwork (hlength _)).2
            rwa [hcolumn] at hrow
      cases hdraw : draw A device (applyTopP S A (applyTopK (applyTemperature A work
          (B.params.map (·.temperature))) (B.params.map (·.topK))) (B.params.map (·.topP)))
          B.params B.generators with
      | error e =>
          rw [hdraw] at h
          cases h
      | ok tokens =>
          rw [hdraw] at h
          obtain rfl := Except.ok.inj h
          have hdrawn := draw_row hdraw hp
          rw [(applyTopP_row S A _ _ b).2, hcolumn, (applyTopK_row _ _ (hlength _)).2,
            hcolumn, (applyTemperature_row hA _ _ (hlength _)).2, hcolumn, hpenalised] at hdrawn
          dsimp only
          rw [List.getElem?_map, List.getElem?_range hbatch, Option.map_some, hdrawn]
          rfl

omit [Zero K] [Mul K] [Div K] [Sub K] in
theorem law_rowDraw (p : SamplerParams P) (generator : Option Generator)
    (row : List (WithBot K)) : (rowDraw A p generator row).law = rowDraw A p none row := by
  unfold rowDraw
  split <;> rfl

/-! ## §7  Steps that go through -/

omit [Sub K] [Zero P] in
theorem applyRepetitionPenalty_ok {logits : Logits K} {penalties : List P}
    {history : List (List ℕ)} (hzip : penalties.length = history.length)
    (hrange : ∀ seen ∈ history, ∀ t ∈ seen, t < logits.vocab) :
    ∃ out, applyRepetitionPenalty A logits penalties history = .ok out := by
  unfold applyRepetitionPenalty
  rw [if_neg (not_not.mpr hzip)]
  dsimp only
  set rows := (List.range penalties.length).filter fun i =>
    penalties.getD i 1 ≠ 1 ∧ 0 < (history.getD i []).length with hrows
  by_cases hnone : rows = []
  · exact ⟨logits, if_pos hnone⟩
  rw [if_neg hnone, if_neg]
  · exact ⟨_, rfl⟩
  rintro ⟨r, hr, t, ht, hle⟩
  rw [List.getD_eq_getElem rows 0 hr] at ht
  have hrow : rows[r] ∈ rows := List.getElem_mem hr
  obtain ⟨hlt, hbusy⟩ := List.mem_filter.mp hrow
  have hseen := (of_decide_eq_true hbusy).2
  have hwidth : (history.getD rows[r] []).length ≤
      (rows.map fun i => (history.getD i []).length).foldl max 0 :=
    (le_foldl_max _ 0).2 _ (List.mem_map_of_mem hrow)
  have hlt' : rows[r] < history.length := hzip ▸ List.mem_range.mp hlt
  rw [List.getD_eq_getElem history [] hlt'] at ht hseen hwidth
  have ht' := (mem_padded hseen hwidth).mp ht
  exact absurd (hrange _ (List.getElem_mem hlt') t ht') (Nat.not_lt.mpr hle)

omit [Zero K] [Mul K] [Div K] [Sub K] in
theorem draw_ok (A : Arithmetic K P) {device : String} (logits : Logits K)
    (params : List (SamplerParams P)) {generators : Option (List (Option Generator))}
    (hdevice : ∀ gs ∈ generators, ∀ g : Generator, some g ∈ gs → g.deviceType = device) :
    ∃ tokens, draw A device logits params generators = .ok tokens := by
  unfold draw
  dsimp only
  split
  · exact ⟨_, rfl⟩
  split
  · rename_i i hfind
    have hoff := List.find?_some hfind
    -- the row's generator is one of the given ones
    obtain ⟨g, hgen, hne⟩ := (Option.any_eq_true ..).mp hoff
    obtain ⟨gs, hgs, hget⟩ := Option.bind_eq_some_iff.mp hgen
    have hmem : some g ∈ gs := by
      by_cases hi : i < gs.length
      · rw [List.getD_eq_getElem gs none hi] at hget
        exact hget ▸ List.getElem_mem hi
      · rw [List.getD_eq_default gs none (Nat.le_of_not_lt hi)] at hget
        cases hget
    exact absurd (hdevice gs hgs g hmem) (of_decide_eq_true hne)
  · exact ⟨_, rfl⟩

/-- A step whose columns have a place for each row, whose histories are tokens and whose
generators are on the device samples. -/
theorem sample_ok (S : Sorting K) (A : Arithmetic K P)
    (logSoftmax : List (WithBot K) → ℕ → WithBot K) (device : String)
    (B : Batch K P) (hparams : B.params.length = B.logits.batch)
    (hgenerators : ∀ gs ∈ B.generators, gs.length = B.logits.batch ∧
      ∀ g : Generator, some g ∈ gs → g.deviceType = device)
    (hhistory : ∀ seen ∈ B.tokenHistory, seen.length = B.logits.batch ∧
      ∀ history ∈ seen, ∀ t ∈ history, t < B.logits.vocab) :
    ∃ out, B.sample S A logSoftmax device = .ok out := by
  unfold Batch.sample forward
  rw [if_neg (not_not.mpr hparams), if_neg, if_neg]
  · split
    · exact ⟨_, rfl⟩
    have hwork : ∃ work, B.tokenHistory.elim (.ok B.logits) (applyRepetitionPenalty A B.logits
        (B.params.map (·.repetitionPenalty))) = .ok work := by
      cases hseen : B.tokenHistory with
      | none => exact ⟨_, rfl⟩
      | some seen =>
          obtain ⟨hlen, hrange⟩ := hhistory seen hseen
          refine applyRepetitionPenalty_ok ?_ hrange
          rw [List.length_map, hparams, hlen]
    obtain ⟨work, hwork⟩ := hwork
    rw [hwork]
    dsimp only
    obtain ⟨tokens, htokens⟩ := draw_ok A (applyTopP S A (applyTopK (applyTemperature A work
      (B.params.map (·.temperature))) (B.params.map (·.topK))) (B.params.map (·.topP)))
      B.params fun gs hgs => (hgenerators gs hgs).2
    rw [htokens]
    exact ⟨_, rfl⟩
  · intro hany
    obtain ⟨seen, hseen, hne⟩ := (Option.any_eq_true ..).mp hany
    exact of_decide_eq_true hne (hhistory seen hseen).1
  · intro hany
    obtain ⟨gs, hgs, hne⟩ := (Option.any_eq_true ..).mp hany
    exact of_decide_eq_true hne (hgenerators gs hgs).1

end Batches

/-! ## §8  Rows that ask for the same -/

omit [Zero K] [Mul K] [Div K] [Zero P] in
/-- Among rows that all ask for what it asks for, a row is as it is alone. -/
theorem topPBeside_replicate (S : Sorting K) (A : Arithmetic K P) {n : ℕ} (hn : 0 < n) (p : P)
    (row : List (WithBot K)) :
    topPBeside S A (List.replicate n p) p row = topPRow S A p row := by
  unfold topPBeside topPRow
  refine if_congr ?_ rfl rfl
  rw [List.all_eq_true]
  constructor
  · exact fun h => of_decide_eq_true (h p (List.mem_replicate.mpr ⟨hn.ne', rfl⟩))
  · intro hp x hx
    rw [(List.mem_replicate.mp hx).2]
    exact decide_eq_true hp

theorem shapedRow_eq_beside (S : Sorting K) (A : Arithmetic K P) (p : SamplerParams P)
    (history : List ℕ) (row : List (WithBot K)) : shapedRow S A p history row =
      topPBeside S A [p.topP] p.topP (keptRow A p history row) :=
  (topPBeside_replicate S A Nat.one_pos p.topP _).symm

/-! ## §9  Exact arithmetic -/

section Exact

variable {K : Type} [Field K] [LinearOrder K] (S : Sorting K) (E : Exponential K)

theorem exact_lawful : (Arithmetic.exact E).Lawful where
  mul_one := mul_one
  div_one := div_one
  sub_self := sub_self
  tensor_nonneg _ hp := hp.le
  cumsum_zero x xs := by
    rw [Arithmetic.exact_cumsum, zero_add, Finset.sum_range_one, List.getD_cons_zero]
  softmax_bot row t _ _ hbot := by
    rw [Arithmetic.exact_softmax, Exponential.softmax, hbot, E.exp_bot, zero_div]

/-- Softmax reads a row below the vocabulary only. -/
theorem softmax_row (logits : Logits K) (b : ℕ) {t : ℕ} (ht : t < logits.vocab) :
    E.softmax (logits.row b).length ((logits.row b).getD · ⊥) t =
      E.softmax logits.vocab (logits.entry b) t := by
  unfold Exponential.softmax
  dsimp only
  rw [length_row, getD_row logits b ht]
  refine congrArg (E.exp (logits.entry b t) / ·) (Finset.sum_congr rfl fun j hj => ?_)
  rw [getD_row logits b (Finset.mem_range.mp hj)]

variable [IsStrictOrderedRing K]

/-- Exactly added up, no more than everything is ahead of a token. -/
theorem filteredRow_exact {p : K} (hp : 1 ≤ p) (row : List (WithBot K)) :
    filteredRow S (Arithmetic.exact E) p row = row := by
  refine row_ext (length_filteredRow ..) fun t ht => ?_
  rw [getD_filteredRow S p ht, if_neg]
  let logits : Logits K := ⟨1, row.length, fun _ t => row.getD t ⊥⟩
  have hrow : logits.row 0 = row := row_ext (length_row _ _) fun t ht => getD_row logits 0 ht
  have hidx : (S.index row).idxOf t < logits.vocab := by
    have hlt := List.idxOf_lt_length_of_mem ((S.perm row).mem_iff.mpr (List.mem_range.mpr ht))
    rwa [(S.perm row).length_eq, List.length_range] at hlt
  have hmass := cumulativeBefore_exact S E logits 0 hidx
  rw [hrow] at hmass
  rw [hmass, not_lt, ← hrow]
  exact (massAhead_le_one S E logits 0 (hrow.symm ▸ hidx.le)).trans hp

/-- In exact arithmetic a row is drawn from its own four transforms in any batch. -/
theorem sample_row_exact {logSoftmax : List (WithBot K) → ℕ → WithBot K} {device : String}
    {B : Batch K K} {out : SamplerOutput K}
    (h : B.sample S E logSoftmax device = .ok out) {b : ℕ} {p : SamplerParams K}
    (hp : B.params[b]? = some p) :
    out.tokens[b]? =
      some (rowDraw E p (B.generator b) (shapedRow S E p (B.history b) (B.logits.row b))) := by
  rw [sample_row (exact_lawful E) h hp, shapedRow, topPRow, topPBeside]
  congr 2
  have hmem : p ∈ B.params := List.mem_of_getElem? hp
  by_cases hfull : 1 ≤ p.topP
  · rw [filteredRow_exact S E hfull, ite_self, ite_self]
  · rw [if_neg hfull, if_neg]
    exact fun hall => hfull (of_decide_eq_true
      (List.all_eq_true.mp hall _ (List.mem_map_of_mem hmem)))

end Exact

end TurboServe.Model
