import TurboServe.Lib.Single
import TurboServe.Properties.SamplerRows

/-!
# What the rows beside it do to a row

A row that asks for less than everything is filtered by top-p in every batch. One that asks for
everything is filtered only beside a row that asks for less, and then it loses the tokens ahead
of which the masses, as the tensor library adds them up, come to more than one: in single
precision they do. Otherwise the row is drawn from what it is drawn from alone.
-/

namespace TurboServe.Model

open Lib

variable {K P : Type} [Zero K] [Mul K] [Div K] [Sub K] [LinearOrder K]
variable [Zero P] [One P] [LinearOrder P] {A : Arithmetic K P} {S : Sorting K}

/-! ## §1  A filtered row -/

/-- A token the row may be given: the argmax of a greedy row, one with a number for a logit of
any other. -/
def MayGive (p : SamplerParams P) (row : List (WithBot K)) (t : ℕ) : Prop :=
  t < row.length ∧ row.getD t ⊥ ≠ ⊥ ∧ (p.temperature = 0 → t = argmax row)

/-- No more than everything is ahead of the token. -/
def WithinOne (S : Sorting K) (A : Arithmetic K P) (row : List (WithBot K)) (t : ℕ) : Prop :=
  cumulativeBefore S A row ((S.index row).idxOf t) ≤ A.tensor 1

section Filtered

variable {row : List (WithBot K)}

omit [Zero K] [Mul K] [Div K] [Zero P] [LinearOrder P] in
/-- A row whose numbers have no more than everything ahead of them asks for everything, and
gets it. -/
theorem filteredRow_one (h : ∀ t < row.length, row.getD t ⊥ ≠ ⊥ → WithinOne S A row t) :
    filteredRow S A 1 row = row := by
  refine row_ext (length_filteredRow ..) fun t ht => ?_
  rw [getD_filteredRow S 1 ht]
  by_cases hbot : row.getD t ⊥ = ⊥
  · rw [hbot, ite_self]
  · exact if_neg (not_lt.mpr (h t ht hbot))

/-- The first of the largest stays the first of the largest unless it is masked. -/
theorem argmax_filteredRow (hA : A.Lawful) (hne : row ≠ [])
    (h : row.getD (argmax row) ⊥ ≠ ⊥ → WithinOne S A row (argmax row))
    (hone : (0 : P) < 1) : argmax (filteredRow S A 1 row) = argmax row := by
  obtain ⟨hm, hmax⟩ := argmax_spec hne
  obtain ⟨-, hle⟩ := filteredRow_max hA S hone hne
  have hlen := length_filteredRow (A := A) S 1 row
  have hkept : (filteredRow S A 1 row).getD (argmax row) ⊥ = row.getD (argmax row) ⊥ := by
    rw [getD_filteredRow S 1 hm]
    by_cases hbot : row.getD (argmax row) ⊥ = ⊥
    · rw [hbot, ite_self]
    · exact if_neg (not_lt.mpr (h hbot))
  refine argmax_eq (hlen ▸ hm) (fun j hj => ?_) fun j hj => ?_
  · rw [hlen] at hj
    rw [hkept]
    exact (hle j hj).trans (hmax j hj)
  · rw [hkept]
    exact (hle j (hj.trans hm)).trans_lt (argmax_first hne hj)

/-- A masked number leaves a number that is at least as large. -/
theorem filteredRow_survivor (hA : A.Lawful) (hone : (0 : P) < 1) {t : ℕ} (ht : t < row.length)
    (hnumber : row.getD t ⊥ ≠ ⊥) :
    ∃ f < row.length, (filteredRow S A 1 row).getD f ⊥ ≠ ⊥ := by
  obtain ⟨⟨f, hf, hsame, hlargest⟩, -⟩ :=
    filteredRow_max hA S hone (List.ne_nil_of_length_pos (Nat.zero_lt_of_lt ht))
  refine ⟨f, hf, fun hbot => hnumber (le_bot_iff.mp ?_)⟩
  calc row.getD t ⊥ ≤ row.getD f ⊥ := hlargest t ht
    _ = (filteredRow S A 1 row).getD f ⊥ := hsame.symm
    _ = ⊥ := hbot

/-- What a filtered row is drawn from, when the tokens it may give have no more than
everything ahead of them. -/
theorem rowDraw_filtered (hA : A.Lawful) (hone : (0 : P) < 1) {p : SamplerParams P}
    (h : ∀ t, MayGive p row t → WithinOne S A row t) :
    rowDraw A p none (filteredRow S A 1 row) = rowDraw A p none row := by
  by_cases hnil : row = []
  · subst hnil
    rfl
  unfold rowDraw
  by_cases hgreedy : p.temperature = 0
  · rw [if_pos hgreedy, if_pos hgreedy, argmax_filteredRow hA hnil
      (fun hnumber => h _ ⟨(argmax_spec hnil).1, hnumber, fun _ => rfl⟩) hone]
  · rw [filteredRow_one fun t ht hnumber => h t ⟨ht, hnumber, fun h0 => absurd h0 hgreedy⟩]

/-- A masked token that could be given changes what the row is drawn from. -/
theorem rowDraw_masked (hA : A.Lawful) (hone : (0 : P) < 1) {p : SamplerParams P} {t : ℕ}
    (hgive : MayGive p row t) (hpos : p.temperature ≠ 0 → 0 < A.softmax row t)
    (hmasked : ¬ WithinOne S A row t) :
    rowDraw A p none (filteredRow S A 1 row) ≠ rowDraw A p none row := by
  obtain ⟨ht, hnumber, hargmax⟩ := hgive
  have hlen := length_filteredRow (A := A) S 1 row
  have hbot : (filteredRow S A 1 row).getD t ⊥ = ⊥ := by
    rw [getD_filteredRow S 1 ht]
    exact if_pos (not_le.mp hmasked)
  obtain ⟨f, hf, hsurvives⟩ := filteredRow_survivor (S := S) hA hone ht hnumber
  have hmem : (filteredRow S A 1 row).getD f ⊥ ∈ filteredRow S A 1 row := by
    rw [List.getD_eq_getElem _ _ (hlen ▸ hf)]
    exact List.getElem_mem _
  intro heq
  unfold rowDraw at heq
  by_cases hgreedy : p.temperature = 0
  · rw [if_pos hgreedy, if_pos hgreedy] at heq
    -- the argmax of the filtered row is a number
    have hsame := Drawn.argmax.inj heq
    have hmax := (argmax_spec (List.ne_nil_of_mem hmem)).2 f (hlen ▸ hf)
    rw [hsame, ← hargmax hgreedy, hbot] at hmax
    exact hsurvives (le_bot_iff.mp hmax)
  · rw [if_neg hgreedy, if_neg hgreedy, hlen] at heq
    have hzero := hA.softmax_bot _ t ⟨_, hmem, hsurvives⟩ (hlen ▸ ht) hbot
    have hprob := List.map_inj_left.mp (Drawn.multinomial.inj heq).2 t (List.mem_range.mpr ht)
    rw [hzero] at hprob
    exact (hpos hgreedy).ne hprob

end Filtered

/-! ## §2  Two batches -/

section Batches

variable {logSoftmax : List (WithBot K) → ℕ → WithBot K} {device device₁ device₂ : String}
variable {B B₁ B₂ : Batch K P} {out out₁ out₂ : SamplerOutput K} {b b₁ b₂ : ℕ}
variable {p : SamplerParams P}

/-- What the distribution of a row and what it is alone come down to. -/
theorem sample_cases (hA : A.Lawful) (h : B.sample S A logSoftmax device = .ok out)
    (hp : B.params[b]? = some p) :
    let kept := keptRow A p (B.history b) (B.logits.row b)
    let shaped := shapedRow S A p (B.history b) (B.logits.row b)
    ((p.topP < 1 ∨ ∀ q ∈ B.params, 1 ≤ q.topP) →
        (out.tokens[b]?).map Drawn.law = some (rowDraw A p none shaped)) ∧
      ((¬ p.topP < 1 ∧ ∃ q ∈ B.params, q.topP < 1) →
        shaped = kept ∧
          (out.tokens[b]?).map Drawn.law = some (rowDraw A p none (filteredRow S A 1 kept))) := by
  intro kept shaped
  have hmem : p ∈ B.params := List.mem_of_getElem? hp
  rw [sample_row hA h hp, Option.map_some, law_rowDraw]
  constructor
  · rintro (hless | hall)
    · have hsome : ¬ (B.params.map (·.topP)).all (1 ≤ ·) = true := fun hall =>
        not_le.mpr hless (of_decide_eq_true
          (List.all_eq_true.mp hall _ (List.mem_map_of_mem hmem)))
      rw [topPBeside, if_neg hsome]
      change _ = some (rowDraw A p none (topPRow S A p.topP kept))
      rw [topPRow, if_neg (not_le.mpr hless)]
    · have hevery : (B.params.map (·.topP)).all (1 ≤ ·) = true := by
        refine List.all_eq_true.mpr fun x hx => ?_
        obtain ⟨q, hq, rfl⟩ := List.mem_map.mp hx
        exact decide_eq_true (hall q hq)
      rw [topPBeside, if_pos hevery]
      change _ = some (rowDraw A p none (topPRow S A p.topP kept))
      rw [topPRow, if_pos (hall p hmem)]
  · rintro ⟨hfull, q, hq, hless⟩
    have hone : p.topP = 1 := le_antisymm p.topP_le (not_lt.mp hfull)
    have hsome : ¬ (B.params.map (·.topP)).all (1 ≤ ·) = true := fun hall =>
      not_le.mpr hless (of_decide_eq_true (List.all_eq_true.mp hall _ (List.mem_map_of_mem hq)))
    refine ⟨?_, ?_⟩
    · change topPRow S A p.topP kept = kept
      rw [topPRow, if_pos (not_lt.mp hfull)]
    · rw [topPBeside, if_neg hsome, hone]

omit [Zero K] [Mul K] [Div K] [Sub K] [LinearOrder K] in
/-- A row that asks for everything beside one that asks for less is filtered with it. -/
theorem asks_or_filtered (p : SamplerParams P) (B : Batch K P) :
    (p.topP < 1 ∨ ∀ q ∈ B.params, 1 ≤ q.topP) ∨
      (¬ p.topP < 1 ∧ ∃ q ∈ B.params, q.topP < 1) := by
  by_cases hless : p.topP < 1
  · exact .inl (.inl hless)
  · by_cases hall : ∀ q ∈ B.params, 1 ≤ q.topP
    · exact .inl (.inr hall)
    · push Not at hall
      exact .inr ⟨hless, hall⟩

/-- A row is drawn from what it is drawn from alone if it or nobody beside it asks for less
than everything, or no token it may give has more than everything ahead of it. -/
theorem sample_drawn_alone (hA : A.Lawful) (h : B.sample S A logSoftmax device = .ok out)
    (hp : B.params[b]? = some p) :
    let kept := keptRow A p (B.history b) (B.logits.row b)
    (p.topP < 1 ∨ ∀ q ∈ B.params, 1 ≤ q.topP) ∨ (∀ t, MayGive p kept t → WithinOne S A kept t) →
      (out.tokens[b]?).map Drawn.law =
        some (rowDraw A p none (shapedRow S A p (B.history b) (B.logits.row b))) := by
  intro kept hwhen
  have hone : (0 : P) < 1 := p.topP_pos.trans_le p.topP_le
  obtain ⟨hsame, hfiltered⟩ := sample_cases hA h hp
  rcases asks_or_filtered p B with hasks | hbeside
  · exact hsame hasks
  · rcases hwhen with hasks | hwithin
    · exact hsame hasks
    · obtain ⟨hkept, hlaw⟩ := hfiltered hbeside
      rw [hlaw, hkept, rowDraw_filtered hA hone hwithin]

/-- If it is so drawn, then it or nobody beside it asks for less than everything, or no token
with a chance has more than everything ahead of it. -/
theorem sample_alone_masked (hA : A.Lawful) (h : B.sample S A logSoftmax device = .ok out)
    (hp : B.params[b]? = some p) :
    let kept := keptRow A p (B.history b) (B.logits.row b)
    (out.tokens[b]?).map Drawn.law =
        some (rowDraw A p none (shapedRow S A p (B.history b) (B.logits.row b))) →
      (p.topP < 1 ∨ ∀ q ∈ B.params, 1 ≤ q.topP) ∨
        ∀ t, MayGive p kept t → (p.temperature ≠ 0 → 0 < A.softmax kept t) →
          WithinOne S A kept t := by
  intro kept halone
  have hone : (0 : P) < 1 := p.topP_pos.trans_le p.topP_le
  obtain ⟨-, hfiltered⟩ := sample_cases hA h hp
  rcases asks_or_filtered p B with hasks | hbeside
  · exact .inl hasks
  · refine .inr fun t hgive hpos => ?_
    by_contra hmasked
    obtain ⟨hkept, hlaw⟩ := hfiltered hbeside
    rw [hlaw, hkept] at halone
    exact rowDraw_masked hA hone hgive hpos hmasked (Option.some.inj halone)

/-- The token of a greedy row is a most likely one of its penalised row. -/
theorem sample_greedy (hA : A.Lawful) (h : B.sample S A logSoftmax device = .ok out)
    (hp : B.params[b]? = some p) (hgreedy : p.temperature = 0) (hne : B.logits.row b ≠ []) :
    let base := penalisedRow A p.repetitionPenalty (B.history b) (B.logits.row b)
    ∃ t < base.length, out.tokens[b]? = some (.argmax t) ∧
      ∀ j < base.length, base.getD j ⊥ ≤ base.getD t ⊥ := by
  intro base
  have hlen : base.length = (B.logits.row b).length := List.length_mapIdx ..
  obtain ⟨hlt, hmax⟩ := greedy_max hA S (B.params.map (·.topP)) hgreedy (B.history b) hne
  rw [← hlen] at hlt hmax
  refine ⟨_, hlt, ?_, hmax⟩
  rw [sample_row hA h hp, rowDraw, if_pos hgreedy]

end Batches

/-! ## §3  Single precision -/

/-- `1 + x/k (1 + x/(k+1) (1 + ...))`, of `n` terms more. -/
def expSeries : ℕ → ℕ → ℚ → ℚ
  | 0, _, _ => 1
  | n + 1, k, x => 1 + x / k * expSeries n (k + 1) x

/-- `exp` of a number that is not positive, from a series long enough for all that single
precision does not round to nothing. -/
def expf (x : Single) : Single := .ofRat (1 / expSeries 200 1 (-x.val))

/-- A weight of a softmax: the exponential of what a logit is below the largest. -/
def weight (largest : WithBot Single) (x : WithBot Single) : Single :=
  match x, largest with
  | (x : Single), (m : Single) => expf (x - m)
  | _, _ => 0

/-- The tensors of the sampler, `float32`, on a CPU: the weights are added up in the order of
the row, and `cumsum` adds up in double precision and rounds each sum. -/
def Arithmetic.float32 : Arithmetic Single ℚ where
  tensor := .ofRat
  softmax row i :=
    let largest := row.foldl max ⊥
    weight largest (row.getD i ⊥) / row.foldl (fun total x => total + weight largest x) 0
  cumsum xs i :=
    .ofRat ((xs.take (i + 1)).foldl (fun total x => roundTo 2 53 (-1074) (total + x.val)) 0)

theorem float32_lawful : Arithmetic.float32.Lawful where
  mul_one := Single.mul_one_eq
  div_one := Single.div_one_eq
  sub_self := Single.sub_self_eq
  tensor_nonneg _ hp := Single.ofRat_nonneg hp.le
  cumsum_zero x xs := by
    change Single.ofRat (roundTo 2 53 (-1074) (0 + x.val)) = x
    rw [zero_add, x.fixed_double, Single.ofRat_val]
  softmax_bot row t _ _ hbot := by
    change weight _ (row.getD t ⊥) / _ = 0
    rw [hbot]
    exact Single.zero_div_eq _

instance (row : List (WithBot Single)) (t : ℕ) :
    Decidable (WithinOne (.stable Single) .float32 row t) :=
  inferInstanceAs (Decidable (_ ≤ _))

/-- A row of numbers in a batch of `n`. -/
def rowsOf (n : ℕ) (row : List ℚ) : Logits Single :=
  ⟨n, row.length, fun _ t => Single.ofRat (row.getD t 0)⟩

/-- A request that draws at temperature one from everything. -/
def plainParams : SamplerParams ℚ :=
  ⟨1, 1, 0, 1, false, zero_le_one, zero_lt_one, le_rfl, zero_lt_one⟩

theorem half_le_one : (1 / 2 : ℚ) ≤ 1 := by norm_num

/-- A greedy request that penalises what it has seen and asks for half of the mass. -/
def greedyParams : SamplerParams ℚ :=
  ⟨0, 1 / 2, 3, 2, false, le_rfl, one_half_pos, half_le_one, two_pos⟩

def aloneBatch (row : List ℚ) : Batch Single ℚ := ⟨rowsOf 1 row, [plainParams], none, none⟩

def mixedBatch (row : List ℚ) : Batch Single ℚ :=
  ⟨rowsOf 2 row, [greedyParams, plainParams], some [none, some ⟨"cpu"⟩], some [[1, 1], []]⟩

/-- No row here asks for the log-probability of its token. -/
def noLogSoftmax (_ : List (WithBot Single)) (_ : ℕ) : WithBot Single := ⊥

theorem sample_alone (row : List ℚ) :
    ∃ out, (aloneBatch row).sample (.stable Single) .float32 noLogSoftmax "cpu" = .ok out :=
  sample_ok _ _ _ _ _ rfl (fun _ h => absurd h (Option.not_mem_none _))
    (fun _ h => absurd h (Option.not_mem_none _))

theorem sample_mixed (row : List ℚ) (hrow : 1 < row.length) :
    ∃ out, (mixedBatch row).sample (.stable Single) .float32 noLogSoftmax "cpu" = .ok out := by
  refine sample_ok _ _ _ _ _ rfl (by simp [mixedBatch, rowsOf]) ?_
  simp only [mixedBatch, rowsOf, Option.mem_some_iff, forall_eq']
  simpa using hrow

end TurboServe.Model
