import TurboServe.Lib.Speculation
import TurboServe.Properties.SamplerRows
import TurboServe.Spec.Verifier

/-!
# Speculation samples as the plain engine does

The numbers `torch.rand` returns are independent and even on `[0, 1)`, and `torch.multinomial`
draws by weight. A round drafts tokens and emits what `verify_sequence` makes of them; the
rounds of a request emit with the law of its plain steps, whatever the drafter guesses.
-/

namespace TurboServe.Spec

open TurboServe.Core Model Lib ENNReal

/-! ## §1  Weights -/

section Weights

theorem tsum_weights_ne_top (ws : List ℝ) : (tsum fun t => ENNReal.ofReal (ws.getD t 0)) ≠ ∞ := by
  rw [tsum_eq_sum (s := Finset.range ws.length)]
  · exact ENNReal.sum_ne_top.mpr fun t _ => ENNReal.ofReal_ne_top
  · intro t ht
    rw [List.getD_eq_default _ _ (by simpa using ht), ENNReal.ofReal_zero]

/-- `torch.multinomial`: a token by its weight. What it refuses to draw from is given the
token `0`. -/
noncomputable def weightLaw (ws : List ℝ) : PMF ℕ :=
  open Classical in
  if h : (tsum fun t => ENNReal.ofReal (ws.getD t 0)) = 0 then PMF.pure 0
  else PMF.normalize _ h (tsum_weights_ne_top ws)

noncomputable def drawLaw : Drawn ℝ → PMF ℕ
  | .argmax t => PMF.pure t
  | .multinomial _ probs => weightLaw probs

theorem weightLaw_eq {ws : List ℝ} {p : PMF ℕ}
    (h : ∀ t, ENNReal.ofReal (ws.getD t 0) = p t) : weightLaw ws = p := by
  have hsum : (tsum fun t => ENNReal.ofReal (ws.getD t 0)) = 1 := by rw [tsum_congr h, p.tsum_coe]
  rw [weightLaw, dif_neg (by rw [hsum]; exact one_ne_zero)]
  refine PMF.ext fun t => ?_
  rw [PMF.normalize_apply, hsum, inv_one, mul_one, h]

/-- What `p` has above `q`, or `p` itself. -/
theorem weightLaw_surplus {target ws : List ℝ} {p q : PMF ℕ}
    (htarget : ∀ t, ENNReal.ofReal (target.getD t 0) = p t)
    (h : ∀ t, ENNReal.ofReal (ws.getD t 0) = p t - q t) (hnonneg : ∀ w ∈ ws, 0 ≤ w) :
    weightLaw (if ws.sum ≤ 0 then target else ws) = surplus p q := by
  have hzero : ws.sum ≤ 0 ↔ (tsum fun t => p t - q t) = 0 := by
    rw [tsum_congr fun t => (h t).symm, ENNReal.tsum_eq_zero]
    constructor
    · intro hsum t
      rw [ENNReal.ofReal_eq_zero]
      by_cases ht : t < ws.length
      · rw [List.getD_eq_getElem _ _ ht]
        exact (List.single_le_sum hnonneg _ (List.getElem_mem ht)).trans hsum
      · rw [List.getD_eq_default _ _ (not_lt.mp ht)]
    · intro hall
      have hle : ∀ w ∈ ws, w ≤ 0 := by
        intro w hw
        obtain ⟨t, ht, rfl⟩ := List.mem_iff_getElem.mp hw
        have h0 := ENNReal.ofReal_eq_zero.mp (hall t)
        rwa [List.getD_eq_getElem _ _ ht] at h0
      have hcard := List.sum_le_card_nsmul ws 0 hle
      rwa [nsmul_zero] at hcard
  rw [surplus]
  by_cases hsum : ws.sum ≤ 0
  · rw [if_pos hsum, dif_pos (hzero.mp hsum)]
    exact weightLaw_eq htarget
  · rw [if_neg hsum, dif_neg (mt hzero.mpr hsum), weightLaw, dif_neg]
    · refine PMF.ext fun t => ?_
      rw [PMF.normalize_apply, PMF.normalize_apply, tsum_congr h, h]
    · rw [tsum_congr h]
      exact mt hzero.mpr hsum

end Weights

/-! ## §2  A verification -/

/-- The law of what a verification emits once the bonus token is drawn. -/
noncomputable def emitLaw {drafts : List ℕ} :
    Except VerifyFault (Verdict ℝ drafts) → PMF (List ℕ)
  | .ok v => (drawLaw v.bonus).map (v.acceptedTokens ++ [·])
  | .error _ => PMF.pure []

section Rejection

variable {target : Probs ℝ} {drafts : List ℕ} {draftProbs : Option (Probs ℝ)}

theorem keepTests_eq (uniform : ℕ → ℝ) :
    keepTests target drafts draftProbs uniform
      = tests (fun j => target.entry j (drafts.getD j 0)) (draftAtDraft draftProbs drafts)
          drafts.length uniform := by
  refine List.map_congr_left fun j _ => ?_
  exact decide_eq_decide.mpr Iff.rfl

/-- The rows hold the laws `p` after each of the guesses. -/
def Tabulates (V : ℕ) (row : ℕ → ℕ → ℝ) (law : ℕ → PMF ℕ) (j : ℕ) : Prop :=
  (∀ t < V, row j t = (law j t).toReal) ∧ ∀ t, V ≤ t → law j t = 0

theorem Tabulates.ofReal {V : ℕ} {row : ℕ → ℕ → ℝ} {law : ℕ → PMF ℕ} {j : ℕ}
    (h : Tabulates V row law j) (t : ℕ) :
    ENNReal.ofReal (((List.range V).map (row j)).getD t 0) = law j t := by
  by_cases ht : t < V
  · rw [List.getD_eq_getElem _ _ (by simpa using ht), List.getElem_map, List.getElem_range,
      h.1 t ht, ENNReal.ofReal_toReal ((law j).apply_ne_top t)]
  · rw [List.getD_eq_default _ _ (by simpa using ht), ENNReal.ofReal_zero,
      h.2 t (not_lt.mp ht)]

/-- What the drafter reports of the law `q` it guesses from: its rows, or nothing when every
guess is certain. -/
def Reports (V : ℕ) (drafts : List ℕ) (q : ℕ → PMF ℕ) : Option (Probs ℝ) → Prop
  | none => ∀ j < drafts.length, q j = PMF.pure (drafts.getD j 0)
  | some probs => probs.vocab = V ∧ ∀ j < drafts.length, Tabulates V probs.entry q j

variable {p q : ℕ → PMF ℕ}

theorem bonusWeights_law (htarget : ∀ j ≤ drafts.length, Tabulates target.vocab target.entry p j)
    (hdraft : Reports target.vocab drafts q draftProbs) {n : ℕ} (hn : n ≤ drafts.length) :
    weightLaw (bonusWeights target drafts draftProbs n)
      = if n = drafts.length then p n else surplus (p n) (q n) := by
  have hrow := (htarget n hn).ofReal
  unfold bonusWeights
  by_cases hall : n = drafts.length
  · rw [if_pos hall, if_pos hall, ← hall]
    exact weightLaw_eq hrow
  rw [if_neg hall, if_neg hall]
  have hlt : n < drafts.length := by omega
  dsimp only
  have hnonneg : ∀ w ∈ target.row n, 0 ≤ w := by
    intro w hw
    obtain ⟨t, ht, rfl⟩ := List.mem_map.mp hw
    rw [(htarget n hn).1 t (List.mem_range.mp ht)]
    exact ENNReal.toReal_nonneg
  cases draftProbs with
  | none =>
      refine weightLaw_surplus hrow (fun t => ?_) fun w hw => ?_
      · rw [hdraft n hlt, PMF.pure_apply, ← hrow t]
        by_cases ht : t = drafts.getD n 0
        · subst ht
          rw [if_pos rfl, tsub_eq_zero_of_le]
          · by_cases hin : drafts.getD n 0 < (target.row n).length
            · rw [List.getD_eq_getElem _ _ (by simpa using hin), List.getElem_set_self,
                ENNReal.ofReal_zero]
            · rw [List.getD_eq_default _ _ (by simpa using hin), ENNReal.ofReal_zero]
          · exact (hrow _).trans_le ((p n).coe_le_one _)
        · rw [if_neg ht, tsub_zero]
          congr 1
          rw [List.getD_eq_getElem?_getD, List.getElem?_set_ne (Ne.symm ht),
            ← List.getD_eq_getElem?_getD]
          rfl
      · rcases List.mem_or_eq_of_mem_set hw with hw | rfl
        · exact hnonneg w hw
        · exact le_rfl
  | some probs =>
      obtain ⟨hvocab, hrows⟩ := hdraft
      refine weightLaw_surplus hrow (fun t => ?_) fun w hw => ?_
      · rw [← hrow t, ← (hrows n hlt).ofReal t]
        by_cases ht : t < target.vocab
        · have hleft : t < (List.zipWith (fun a b : ℝ => max (a - b) 0) (target.row n)
              (probs.row n)).length := by
            simpa [Probs.row, hvocab] using ht
          rw [List.getD_eq_getElem _ _ hleft, List.getElem_zipWith,
            List.getD_eq_getElem _ _ (by simpa using ht),
            List.getD_eq_getElem _ _ (by simpa using ht), ENNReal.ofReal_max,
            ENNReal.ofReal_zero, max_eq_left zero_le]
          simp only [Probs.row, List.getElem_map, List.getElem_range]
          apply ENNReal.ofReal_sub
          rw [(hrows n hlt).1 t ht]
          exact ENNReal.toReal_nonneg
        · rw [List.getD_eq_default _ _ (by simp [Probs.row, hvocab]; omega),
            List.getD_eq_default _ _ (by simpa using ht), ENNReal.ofReal_zero, zero_tsub]
      · obtain ⟨t, ht, rfl⟩ := List.mem_iff_getElem.mp hw
        rw [List.getElem_zipWith]
        exact le_max_right _ _

theorem checkSampling_ok {generator : Option Generator}
    (hrows : target.rows = drafts.length + 1)
    (hshape : ∀ probs ∈ draftProbs, probs.rows = drafts.length ∧ probs.vocab = target.vocab ∧
      probs.device = target.device)
    (hdevice : ∀ g ∈ generator, g.deviceType = target.device)
    (hrange : ∀ t ∈ drafts, t < target.vocab) :
    checkSampling target drafts draftProbs generator = .ok () := by
  have hnone : ¬ ∃ t ∈ drafts, target.vocab ≤ t := by
    rintro ⟨t, ht, hle⟩
    exact absurd (hrange t ht) (not_lt.mpr hle)
  unfold checkSampling
  cases draftProbs with
  | none =>
      cases generator with
      | none => simp [hrows, hnone]; rfl
      | some g => simp [hrows, hnone, hdevice g rfl]; rfl
  | some probs =>
      obtain ⟨hlength, hvocab, hplace⟩ := hshape probs rfl
      cases generator with
      | none => simp [hrows, hnone, hlength, hvocab, hplace]; rfl
      | some g => simp [hrows, hnone, hlength, hvocab, hplace, hdevice g rfl]; rfl

/-- The chances with which the tests keep the guesses are those of the rule. -/
theorem chances_eq {P Q : List ℕ → PMF ℕ} {s : List ℕ}
    (htarget : ∀ j ≤ drafts.length,
      Tabulates target.vocab target.entry (fun j => P (s ++ drafts.take j)) j)
    (hdraft : Reports target.vocab drafts (fun j => Q (s ++ drafts.take j)) draftProbs)
    (hrange : ∀ t ∈ drafts, t < target.vocab) :
    ((List.range drafts.length).map fun j =>
      ENNReal.ofReal (target.entry j (drafts.getD j 0)) /
        ENNReal.ofReal (draftAtDraft draftProbs drafts j)) = chances P Q s drafts := by
  apply List.ext_getElem (by rw [length_chances, List.length_map, List.length_range])
  intro j hmap hchance
  have hj : j < drafts.length := by simpa using hmap
  rw [← List.getD_eq_getElem _ 0 hchance, getD_chances P Q s drafts hj, List.getElem_map,
    List.getElem_range]
  have htoken : drafts.getD j 0 = drafts[j] := List.getD_eq_getElem _ _ hj
  have hin : drafts[j] < target.vocab := hrange _ (List.getElem_mem hj)
  rw [htoken, (htarget j hj.le).1 _ hin, ENNReal.ofReal_toReal (PMF.apply_ne_top _ _)]
  congr 1
  cases draftProbs with
  | none =>
      rw [draftAtDraft, Option.elim_none, ENNReal.ofReal_one]
      have hpoint := hdraft j hj
      dsimp only at hpoint
      rw [hpoint, htoken, PMF.pure_apply_self]
  | some probs =>
      rw [draftAtDraft, Option.elim_some, htoken, (hdraft.2 j hj).1 _ hin,
        ENNReal.ofReal_toReal (PMF.apply_ne_top _ _)]

/-- What is emitted once the tests have fallen. -/
theorem emitLaw_rejectionVerdict {P Q : List ℕ → PMF ℕ} {s : List ℕ}
    (htarget : ∀ j ≤ drafts.length,
      Tabulates target.vocab target.entry (fun j => P (s ++ drafts.take j)) j)
    (hdraft : Reports target.vocab drafts (fun j => Q (s ++ drafts.take j)) draftProbs)
    (generator : Option Generator) {keep : List Bool} (hkeep : keep.length = drafts.length) :
    emitLaw (.ok (rejectionVerdict target drafts draftProbs generator keep))
      = judge P Q s drafts keep := by
  have hn : keep.findIdx (!·) ≤ drafts.length := hkeep ▸ List.findIdx_le_length
  have hlaw := bonusWeights_law htarget hdraft hn
  simp only [emitLaw, rejectionVerdict, drawLaw, judge]
  rw [hlaw]
  by_cases hall : keep.findIdx (!·) = drafts.length
  · rw [if_pos hall, if_pos hall, hall, List.take_length]
  · rw [if_neg hall, if_neg hall]

/-- Rejection sampling, its numbers drawn evenly: the guesses are verified against the laws of
the rows. -/
theorem mixture_verify {P Q : List ℕ → PMF ℕ} {s : List ℕ} {generator : Option Generator}
    (htarget : ∀ j ≤ drafts.length,
      Tabulates target.vocab target.entry (fun j => P (s ++ drafts.take j)) j)
    (hdraft : Reports target.vocab drafts (fun j => Q (s ++ drafts.take j)) draftProbs)
    (hnonneg : ∀ j, 0 ≤ target.entry j (drafts.getD j 0))
    (hguess : ∀ j, 0 ≤ draftAtDraft draftProbs drafts j)
    (hcheck : checkSampling target drafts draftProbs generator = .ok ())
    (hrange : ∀ t ∈ drafts, t < target.vocab)
    (h : ∀ ys, Measurable fun u =>
      emitLaw (verifyRejectionSampling target drafts draftProbs generator u) ys) :
    mixture uniforms (fun u =>
        emitLaw (verifyRejectionSampling target drafts draftProbs generator u)) h
      = verify P Q s drafts := by
  have hemit : ∀ u, emitLaw (verifyRejectionSampling target drafts draftProbs generator u)
      = judge P Q s drafts (tests (fun j => target.entry j (drafts.getD j 0))
          (draftAtDraft draftProbs drafts) drafts.length u) := by
    intro u
    rw [verifyRejectionSampling, hcheck, ← keepTests_eq]
    exact emitLaw_rejectionVerdict htarget hdraft generator
      (by rw [keepTests_eq, length_tests])
  rw [← flips_judge, ← chances_eq htarget hdraft hrange,
    ← mixture_tests hnonneg hguess drafts.length (judge P Q s drafts)
      (measurable_of_tests _ _ _ _)]
  congr 1
  exact funext hemit

end Rejection

/-! ## §3  The rows of a sequence -/

section Rows

variable {K : Type} [Field K] [LinearOrder K]

theorem shape_applyRepetitionPenalty {E : Exponential K} {logits out : Logits K}
    {penalties : List K} {history : List (List ℕ)}
    (h : applyRepetitionPenalty E logits penalties history = .ok out) :
    out.batch = logits.batch ∧ out.vocab = logits.vocab := by
  unfold applyRepetitionPenalty at h
  split at h
  · cases h
  dsimp only at h
  split at h
  · cases h
    exact ⟨rfl, rfl⟩
  split at h
  · cases h
  · cases h
    exact ⟨rfl, rfl⟩

theorem shape_transforms (S : Sorting K) (E : Exponential K) (logits : Logits K)
    (temperatures : List K) (topK : List ℕ) (topP : List K) :
    let out := applyTopP S E (applyTopK (applyTemperature E logits temperatures) topK) topP
    out.batch = logits.batch ∧ out.vocab = logits.vocab := by
  have htemperature : (applyTemperature E logits temperatures).batch = logits.batch ∧
      (applyTemperature E logits temperatures).vocab = logits.vocab := by
    unfold applyTemperature
    dsimp only
    split <;> exact ⟨rfl, rfl⟩
  have htopK : ∀ x : Logits K, (applyTopK x topK).batch = x.batch ∧
      (applyTopK x topK).vocab = x.vocab := by
    intro x
    unfold applyTopK
    dsimp only
    split <;> exact ⟨rfl, rfl⟩
  have htopP : ∀ x : Logits K, (applyTopP S E x topP).batch = x.batch ∧
      (applyTopP S E x topP).vocab = x.vocab := by
    intro x
    unfold applyTopP
    split <;> exact ⟨rfl, rfl⟩
  exact ⟨(htopP _).1.trans ((htopK _).1.trans htemperature.1),
    (htopP _).2.trans ((htopK _).2.trans htemperature.2)⟩

/-- The histories a sequence's rows are penalised by, when they are. -/
def givenHistory (params : SamplerParams K) (history : List (List ℕ)) :
    Option (List (List ℕ)) :=
  if params.repetitionPenalty ≠ 1 then some history else none

theorem penalisedLogits_row (E : Exponential K) {logits : Logits K} {params : SamplerParams K}
    {history : List (List ℕ)} (hlength : history.length = logits.batch)
    (hrange : params.repetitionPenalty ≠ 1 → ∀ seen ∈ history, ∀ t ∈ seen, t < logits.vocab) :
    ∃ work, penalisedLogits E logits params (givenHistory params history) = .ok work ∧
      work.batch = logits.batch ∧ work.vocab = logits.vocab ∧ ∀ j < logits.batch,
        work.row j =
          penalisedRow E params.repetitionPenalty (history.getD j []) (logits.row j) := by
  by_cases hone : params.repetitionPenalty = 1
  · rw [givenHistory, if_neg (not_not.mpr hone)]
    exact ⟨logits, rfl, rfl, rfl, fun j _ => (penalisedRow_idle (exact_lawful E) (.inl hone) _).symm⟩
  · have hzip : (List.replicate logits.batch params.repetitionPenalty).length = history.length := by
      rw [List.length_replicate, hlength]
    obtain ⟨work, hwork⟩ := applyRepetitionPenalty_ok (A := .exact E) hzip (hrange hone)
    obtain ⟨hbatch, hvocab⟩ := shape_applyRepetitionPenalty hwork
    refine ⟨work, ?_, hbatch, hvocab, fun j hj => ?_⟩
    · rw [givenHistory, if_pos hone]
      unfold penalisedLogits
      dsimp only
      rw [if_neg hone, if_neg (not_not.mpr hlength), hwork]
      rfl
    · rw [(applyRepetitionPenalty_row (exact_lawful E) hwork (by simpa using hj)).2]
      congr 1
      rw [List.getD_eq_getElem _ _ (by simpa using hj), List.getElem_replicate]

/-- Each row of a sequence is shaped as the sampler shapes it. -/
theorem processedLogits_row (S : Sorting K) (E : Exponential K) {logits : Logits K}
    {params : SamplerParams K} {history : List (List ℕ)} (hlength : history.length = logits.batch)
    (hrange : params.repetitionPenalty ≠ 1 → ∀ seen ∈ history, ∀ t ∈ seen, t < logits.vocab) :
    ∃ out, processedLogits S E logits params (givenHistory params history) = .ok out ∧
      out.batch = logits.batch ∧ out.vocab = logits.vocab ∧ ∀ j < logits.batch,
        out.row j = shapedRow S E params (history.getD j []) (logits.row j) := by
  obtain ⟨work, hwork, hbatch, hvocab, hrow⟩ := penalisedLogits_row E hlength hrange
  obtain ⟨hbatch', hvocab'⟩ := shape_transforms S E work
    (List.replicate logits.batch params.temperature) (List.replicate logits.batch params.topK)
    (List.replicate logits.batch params.topP)
  refine ⟨_, ?_, hbatch'.trans hbatch, hvocab'.trans hvocab, fun j hj => ?_⟩
  · unfold processedLogits
    rw [hwork]
    rfl
  · have hcolumn : ∀ {β : Type} (x d : β), (List.replicate logits.batch x).getD j d = x := by
      intro β x d
      rw [List.getD_eq_getElem _ _ (by simpa using hj), List.getElem_replicate]
    have hin : ∀ {β : Type} (x : β), j < (List.replicate logits.batch x).length := by
      intro β x
      rwa [List.length_replicate]
    rw [(applyTopP_row S _ _ _ j).2, hcolumn, topPBeside_replicate S _ (Nat.zero_lt_of_lt hj),
      (applyTopK_row _ _ (hin _)).2, hcolumn, (applyTemperature_row (exact_lawful E) _ _ (hin _)).2,
      hcolumn, hrow j hj]
    rfl

/-- A row of numbers keeps one that was a largest. -/
theorem shapedRow_survivor (S : Sorting K) (E : Exponential K) (params : SamplerParams K)
    (history : List ℕ) {row : List (WithBot K)} (hne : row ≠ []) (hfinite : ∀ x ∈ row, x ≠ ⊥) :
    ∃ t < row.length, (shapedRow S E params history row).getD t ⊥ ≠ ⊥ := by
  set base := temperedRow (.exact E) params.temperature
    (penalisedRow (.exact E) params.repetitionPenalty history row) with hbase
  have hlen : base.length = row.length := by
    rw [hbase, temperedRow]
    split <;> simp [penalisedRow]
  have hbne : base ≠ [] := by
    rw [← List.length_pos_iff, hlen]
    exact List.length_pos_iff.mpr hne
  have hnumbers : ∀ x ∈ base, x ≠ ⊥ := by
    have hpenalise : ∀ x : WithBot K, x ≠ ⊥ → penalise params.repetitionPenalty x ≠ ⊥ := by
      intro x hx
      obtain ⟨a, rfl⟩ := WithBot.ne_bot_iff_exists.mp hx
      unfold penalise
      split <;> exact WithBot.coe_ne_bot
    have hseen : ∀ x ∈ penalisedRow (.exact E) params.repetitionPenalty history row, x ≠ ⊥ := by
      intro x hx
      obtain ⟨t, ht, rfl⟩ := List.mem_mapIdx.mp hx
      split
      · exact hpenalise _ (hfinite _ (List.getElem_mem ht))
      · exact hfinite _ (List.getElem_mem ht)
    intro x hx
    rw [hbase, temperedRow] at hx
    split at hx
    · obtain ⟨y, hy, rfl⟩ := List.mem_map.mp hx
      obtain ⟨a, ha⟩ := WithBot.ne_bot_iff_exists.mp (hseen y hy)
      rw [← ha]
      exact WithBot.coe_ne_bot
    · exact hseen x hx
  set kept := topKRow params.topK base with hkept
  obtain ⟨hm, hmax⟩ := argmax_spec hbne
  obtain ⟨hkm, -⟩ := topKRow_max params.topK hm hmax
  have hklen : kept.length = base.length := List.length_map ..
  have hkne : kept ≠ [] := by
    rw [← List.length_pos_iff, hklen]
    exact List.length_pos_iff.mpr hbne
  obtain ⟨⟨f, hf, hsame, hlargest⟩, -⟩ :=
    topPBeside_max (exact_lawful E) S [params.topP] params.topP_pos hkne
  refine ⟨f, by rwa [hklen, hlen] at hf, ?_⟩
  rw [shapedRow_eq_beside]
  change (topPBeside S E [params.topP] params.topP kept).getD f ⊥ ≠ ⊥
  rw [hsame]
  intro hbot
  have hle := hlargest (argmax base) (hklen ▸ hm)
  rw [hbot, hkm, List.getD_eq_getElem _ _ hm, le_bot_iff] at hle
  exact hnumbers _ (List.getElem_mem hm) hle

end Rows

/-! ## §4  A request -/

/-- A request and the model it decodes with: `next` is the logit of each token after the tokens
so far. -/
structure Request where
  vocab : ℕ
  next : List ℕ → ℕ → ℝ
  params : SamplerParams ℝ
  device : String
  generator : Option Generator
  sorting : Sorting ℝ
  exponential : Exponential ℝ
  vocab_pos : 0 < vocab
  generator_device : ∀ g ∈ generator, g.deviceType = device

/-- What a drafter proposes: `k` tokens it draws from the law it reports, or tokens it is
certain of. -/
inductive Proposal (vocab : ℕ) : Type where
  | sampled (q : List ℕ → PMF ℕ) (k : ℕ) (inVocab : ∀ s t, vocab ≤ t → q s t = 0)
  | certain (drafts : List ℕ) (inVocab : ∀ t ∈ drafts, t < vocab)

/-- What the sequence held when each of the positions was fed. -/
def histories (s drafts : List ℕ) : List (List ℕ) :=
  (List.range (drafts.length + 1)).map fun j => (s ++ drafts).take (s.length + j)

theorem getD_histories {s drafts : List ℕ} {j : ℕ} (hj : j ≤ drafts.length) :
    (histories s drafts).getD j [] = s ++ drafts.take j := by
  rw [histories, List.getD_eq_getElem _ _ (by simpa using Nat.lt_succ_of_le hj), List.getElem_map,
    List.getElem_range, List.take_length_add_append]

namespace Request

variable (r : Request)

def row (s : List ℕ) : List (WithBot ℝ) :=
  (List.range r.vocab).map fun t => (r.next s t : WithBot ℝ)

/-- The row of a plain step after `s`, as the sampler shapes it. -/
noncomputable def shaped (s : List ℕ) : List (WithBot ℝ) :=
  shapedRow r.sorting r.exponential r.params s (r.row s)

/-- What a plain step after `s` draws from. -/
noncomputable def plainDraw (s : List ℕ) : Drawn ℝ :=
  rowDraw r.exponential r.params r.generator (r.shaped s)

/-- The law of a plain step after `s`. -/
noncomputable def plainLaw (s : List ℕ) : PMF ℕ := drawLaw (r.plainDraw s)

/-- The logits of a draft: a row after each of its beginnings. -/
def logits (s drafts : List ℕ) : Logits ℝ :=
  ⟨drafts.length + 1, r.vocab, fun j t => (r.next (s ++ drafts.take j) t : WithBot ℝ)⟩

noncomputable def verdict (s drafts : List ℕ) (probs : Option (Probs ℝ)) (uniform : ℕ → ℝ) :
    Except VerifyFault (Verdict ℝ drafts) :=
  verifySequence r.sorting r.exponential r.device (r.logits s drafts) drafts r.params probs
    r.generator (givenHistory r.params (histories s drafts)) uniform

theorem measurable_verdict (s drafts : List ℕ) (probs : Option (Probs ℝ)) (ys : List ℕ) :
    Measurable fun u => emitLaw (r.verdict s drafts probs u) ys := by
  unfold verdict verifySequence
  by_cases hgreedy : r.params.temperature = 0
  · simp only [if_pos hgreedy]
    exact measurable_const
  simp only [if_neg hgreedy]
  cases samplingProbs r.sorting r.exponential r.device (r.logits s drafts) r.params
      (givenHistory r.params (histories s drafts)) with
  | error e => exact measurable_const
  | ok target =>
      change Measurable fun u =>
        emitLaw (verifyRejectionSampling target drafts probs r.generator u) ys
      unfold verifyRejectionSampling
      cases checkSampling target drafts probs r.generator with
      | error e => exact measurable_const
      | ok _ =>
          simp only [keepTests_eq]
          exact measurable_of_tests _ _ _ (fun keep =>
            emitLaw (.ok (rejectionVerdict target drafts probs r.generator keep))) ys

/-- The law of what a verification emits. -/
noncomputable def verdictLaw (s drafts : List ℕ) (probs : Option (Probs ℝ)) : PMF (List ℕ) :=
  mixture uniforms (fun u => emitLaw (r.verdict s drafts probs u))
    (r.measurable_verdict s drafts probs)

/-- The distributions a drafter reports with its draft. -/
noncomputable def reported (q : List ℕ → PMF ℕ) (s drafts : List ℕ) : Probs ℝ :=
  ⟨drafts.length, r.vocab, fun j t => (q (s ++ drafts.take j) t).toReal, r.device⟩

/-- A round after `s`: a draft, then its verification. -/
noncomputable def roundLaw (s : List ℕ) : Proposal r.vocab → PMF (List ℕ)
  | .sampled q k _ =>
      (continuation q k s).bind fun drafts => r.verdictLaw s drafts (some (r.reported q s drafts))
  | .certain drafts _ => r.verdictLaw s drafts none

/-- The rounds of the request, the drafter proposing from what the rounds before emitted. -/
noncomputable def run (prompt : List ℕ) (propose : List (List ℕ) → Proposal r.vocab) (m : ℕ) :
    PMF (List (List ℕ)) :=
  rounds (fun h => r.roundLaw (prompt ++ h.flatten) (propose h)) m []

/-! ## §5  One verification -/

theorem row_ne_nil (s : List ℕ) : r.row s ≠ [] := by
  rw [← List.length_pos_iff, row, List.length_map, List.length_range]
  exact r.vocab_pos

theorem length_shaped (s : List ℕ) : (r.shaped s).length = r.vocab := by
  rw [shaped, shapedRow_eq_beside, length_topPBeside, length_keptRow, row, List.length_map,
    List.length_range]

variable {r}

/-- The rows of a draft are the rows of the plain steps after its beginnings. -/
theorem processed {s drafts : List ℕ} (hs : ∀ t ∈ s, t < r.vocab)
    (hdrafts : ∀ t ∈ drafts, t < r.vocab) :
    ∃ work, processedLogits r.sorting r.exponential (r.logits s drafts) r.params
        (givenHistory r.params (histories s drafts)) = .ok work ∧
      work.batch = drafts.length + 1 ∧ work.vocab = r.vocab ∧
      ∀ j ≤ drafts.length, work.row j = r.shaped (s ++ drafts.take j) := by
  have hlength : (histories s drafts).length = (r.logits s drafts).batch := by
    rw [histories, List.length_map, List.length_range]
    rfl
  have hrange : ∀ seen ∈ histories s drafts, ∀ t ∈ seen, t < r.vocab := by
    intro seen hseen t ht
    obtain ⟨j, -, rfl⟩ := List.mem_map.mp hseen
    rcases List.mem_append.mp (List.mem_of_mem_take ht) with h | h
    · exact hs t h
    · exact hdrafts t h
  obtain ⟨work, hwork, hbatch, hvocab, hrow⟩ := processedLogits_row r.sorting r.exponential
    hlength fun (_ : r.params.repetitionPenalty ≠ 1) => hrange
  refine ⟨work, hwork, hbatch, hvocab, fun j hj => ?_⟩
  rw [hrow j (Nat.lt_succ_of_le hj), getD_histories hj]
  rfl

theorem plainLaw_greedy (hgreedy : r.params.temperature = 0) (s : List ℕ) :
    r.plainLaw s = PMF.pure (argmax (r.shaped s)) := by
  rw [plainLaw, plainDraw, rowDraw, if_pos hgreedy, drawLaw]

theorem plainLaw_apply (hsampled : r.params.temperature ≠ 0) (s : List ℕ) (t : ℕ) :
    r.plainLaw s t = if t < r.vocab then
      ENNReal.ofReal (r.exponential.softmax r.vocab ((r.shaped s).getD · ⊥) t) else 0 := by
  set soft := r.exponential.softmax r.vocab ((r.shaped s).getD · ⊥) with hsoft
  have hsum : ∑ t ∈ Finset.range r.vocab, soft t = 1 := by
    apply r.exponential.sum_softmax
    obtain ⟨t, ht, hne⟩ := shapedRow_survivor r.sorting r.exponential r.params s (r.row_ne_nil s)
      (by
        intro x hx
        obtain ⟨t, -, rfl⟩ := List.mem_map.mp hx
        exact WithBot.coe_ne_bot)
    exact ⟨t, by simpa [row] using ht, hne⟩
  have hnonneg : ∀ t, 0 ≤ soft t := fun t => r.exponential.softmax_nonneg t
  have hget : ∀ t, ENNReal.ofReal (((List.range r.vocab).map soft).getD t 0) =
      if t < r.vocab then ENNReal.ofReal (soft t) else 0 := by
    intro t
    by_cases ht : t < r.vocab
    · rw [List.getD_eq_getElem _ _ (by simpa using ht), if_pos ht, List.getElem_map,
        List.getElem_range]
    · rw [List.getD_eq_default _ _ (by simpa using ht), if_neg ht, ENNReal.ofReal_zero]
  have htotal : (tsum fun t => ENNReal.ofReal (((List.range r.vocab).map soft).getD t 0)) = 1 := by
    rw [tsum_eq_sum (s := Finset.range r.vocab)]
    · rw [← ENNReal.ofReal_one, ← hsum, ENNReal.ofReal_sum_of_nonneg fun t _ => hnonneg t]
      refine Finset.sum_congr rfl fun t ht => ?_
      rw [hget, if_pos (Finset.mem_range.mp ht)]
    · intro t ht
      rw [hget, if_neg (by simpa using ht)]
  have hlaw : r.plainLaw s = weightLaw ((List.range r.vocab).map soft) := by
    rw [plainLaw, plainDraw, rowDraw, if_neg hsampled, drawLaw, length_shaped, hsoft,
      ← length_shaped r s]
    rfl
  rw [hlaw, weightLaw, dif_neg (by rw [htotal]; exact one_ne_zero), PMF.normalize_apply, htotal,
    inv_one, mul_one, hget]

/-- A plain step draws a token of the vocabulary. -/
theorem plainLaw_support {s : List ℕ} {t : ℕ} (h : t ∈ (r.plainLaw s).support) : t < r.vocab := by
  by_cases hgreedy : r.params.temperature = 0
  · rw [plainLaw_greedy hgreedy, PMF.mem_support_pure_iff] at h
    have hlt := (greedy_max (exact_lawful r.exponential) r.sorting [r.params.topP] hgreedy s
      (r.row_ne_nil s)).1
    rw [h, shaped, shapedRow_eq_beside]
    exact hlt.trans_eq (by rw [row, List.length_map, List.length_range])
  · by_contra hge
    rw [PMF.mem_support_iff, plainLaw_apply hgreedy, if_neg hge] at h
    exact h rfl

/-- The shaped rows hold the laws of the plain steps. -/
theorem tabulates (hsampled : r.params.temperature ≠ 0) {work : Logits ℝ}
    (hvocab : work.vocab = r.vocab) {law : ℕ → List ℕ} {j : ℕ}
    (hrow : work.row j = r.shaped (law j)) :
    Tabulates r.vocab (softmaxRows r.exponential r.device work).entry
      (fun j => r.plainLaw (law j)) j := by
  have hsoft : ∀ t < r.vocab, r.exponential.softmax work.vocab (work.entry j) t
      = r.exponential.softmax r.vocab ((r.shaped (law j)).getD · ⊥) t := by
    intro t ht
    rw [← softmax_row r.exponential work j (hvocab ▸ ht), hrow, length_shaped]
  constructor
  · intro t ht
    dsimp only
    rw [plainLaw_apply hsampled, if_pos ht,
      ENNReal.toReal_ofReal (r.exponential.softmax_nonneg t), ← hsoft t ht]
    rfl
  · intro t ht
    exact (plainLaw_apply hsampled (law j) t).trans (if_neg (not_lt.mpr ht))

/-- A sampled draft is verified against the laws of the plain steps. -/
theorem verdictLaw_sampled (hsampled : r.params.temperature ≠ 0) {s drafts : List ℕ}
    (hs : ∀ t ∈ s, t < r.vocab) (hdrafts : ∀ t ∈ drafts, t < r.vocab)
    {probs : Option (Probs ℝ)} {q : List ℕ → PMF ℕ}
    (hreports : Reports r.vocab drafts (fun j => q (s ++ drafts.take j)) probs)
    (hshape : ∀ x ∈ probs, x.rows = drafts.length ∧ x.device = r.device)
    (hnonneg : ∀ j, 0 ≤ draftAtDraft probs drafts j) :
    r.verdictLaw s drafts probs = verify r.plainLaw q s drafts := by
  obtain ⟨work, hwork, hbatch, hvocab, hrow⟩ := processed hs hdrafts
  let target := softmaxRows r.exponential r.device work
  have hverdict : (fun u => emitLaw (r.verdict s drafts probs u)) =
      fun u => emitLaw (verifyRejectionSampling target drafts probs r.generator u) := by
    funext u
    rw [verdict, verifySequence, if_neg hsampled, samplingProbs, hwork]
    rfl
  have hrange : ∀ t ∈ drafts, t < target.vocab := fun t ht =>
    (hdrafts t ht).trans_eq hvocab.symm
  have hreports' : Reports target.vocab drafts (fun j => q (s ++ drafts.take j)) probs := by
    rw [show target.vocab = r.vocab from hvocab]
    exact hreports
  rw [verdictLaw, mixture_congr hverdict]
  refine mixture_verify (fun j hj => ?_) hreports' (fun j => r.exponential.softmax_nonneg _)
    hnonneg ?_ hrange _
  · rw [show target.vocab = r.vocab from hvocab]
    exact tabulates hsampled hvocab (hrow j hj)
  · refine checkSampling_ok hbatch (fun x hx => ?_) r.generator_device hrange
    obtain ⟨hrows, hdevice⟩ := hshape x hx
    refine ⟨hrows, ?_, hdevice⟩
    cases probs with
    | none => cases hx
    | some y =>
        obtain rfl := Option.some.inj hx
        exact hreports'.1

/-- Greedy verification is that of a certain draft against certain laws. -/
theorem verify_agreed (g : List ℕ → ℕ) {q : List ℕ → PMF ℕ} (s drafts : List ℕ)
    (hq : ∀ j < drafts.length, q (s ++ drafts.take j) = PMF.pure (drafts.getD j 0)) :
    let greedy := (List.range (drafts.length + 1)).map fun j => g (s ++ drafts.take j)
    verify (fun s => PMF.pure (g s)) q s drafts =
      PMF.pure (agreed drafts greedy ++ [greedy.getD (agreed drafts greedy).length 0]) := by
  induction drafts generalizing s with
  | nil => simp [verify, agreed, PMF.pure_map]
  | cons x xs ih =>
      intro greedy
      have hhead : q s = PMF.pure x := by simpa using hq 0 (Nat.succ_pos _)
      have hgreedy : greedy = g s ::
          (List.range (xs.length + 1)).map fun j => g (s ++ [x] ++ xs.take j) := by
        simp only [greedy, List.length_cons]
        rw [List.range_succ_eq_map]
        simp [Function.comp_def]
      rw [verify, hhead, hgreedy, agreed, PMF.pure_apply_self, div_one]
      by_cases hx : g s = x
      · rw [hx, PMF.pure_apply_self, coin_one_bind, if_pos rfl, if_neg (not_not.mpr rfl),
          ih (s ++ [x]) fun j hj => ?_, PMF.pure_map]
        · rfl
        · have hnext := hq (j + 1) (Nat.succ_lt_succ hj)
          simpa using hnext
      · rw [PMF.pure_apply_of_ne _ _ (Ne.symm hx), coin_zero_bind, if_neg Bool.false_ne_true,
          if_pos hx, surplus_of_disjoint, PMF.pure_map]
        · rfl
        · intro t
          by_cases ht : t = x
          · exact .inl (PMF.pure_apply_of_ne _ _ (ht ▸ Ne.symm hx))
          · exact .inr (PMF.pure_apply_of_ne _ _ ht)

theorem certain_take (s drafts : List ℕ) {j : ℕ} (hj : j < drafts.length) :
    certain s drafts 0 (s ++ drafts.take j) = PMF.pure (drafts.getD j 0) := by
  rw [certain, List.length_append, List.length_take, Nat.min_eq_left hj.le, Nat.add_sub_cancel_left]

theorem verdictLaw_greedy (hgreedy : r.params.temperature = 0) {s drafts : List ℕ}
    (hs : ∀ t ∈ s, t < r.vocab) (hdrafts : ∀ t ∈ drafts, t < r.vocab) (probs : Option (Probs ℝ)) :
    r.verdictLaw s drafts probs = verify r.plainLaw (certain s drafts 0) s drafts := by
  obtain ⟨work, hwork, hbatch, -, hrow⟩ := processed hs hdrafts
  have hrows : (List.range work.batch).map (fun j => argmax (work.row j)) =
      (List.range (drafts.length + 1)).map fun j => argmax (r.shaped (s ++ drafts.take j)) := by
    rw [hbatch]
    refine List.map_congr_left fun j hj => ?_
    rw [hrow j (Nat.le_of_lt_succ (List.mem_range.mp hj))]
  have hgiven : (if r.params.repetitionPenalty ≠ 1 then
      givenHistory r.params (histories s drafts) else none) =
      givenHistory r.params (histories s drafts) := by
    unfold givenHistory
    split <;> rfl
  have hplain : r.plainLaw = fun s => PMF.pure (argmax (r.shaped s)) :=
    funext (plainLaw_greedy hgreedy)
  have hcast : ∀ tokens : List ℕ, tokens.map Nat.cast = tokens := fun tokens => List.map_id tokens
  have hverdict : (fun u => emitLaw (r.verdict s drafts probs u)) =
      fun _ => verify r.plainLaw (certain s drafts 0) s drafts := by
    funext u
    rw [hplain, verify_agreed _ s drafts fun j hj => certain_take s drafts hj, verdict,
      verifySequence, if_pos hgreedy]
    dsimp only
    rw [hgiven, hwork]
    change emitLaw (verifyGreedy work drafts) = _
    rw [verifyGreedy, if_neg (not_not.mpr hbatch)]
    dsimp only [emitLaw, drawLaw]
    rw [PMF.pure_map, hrows, hcast]
  rw [verdictLaw, mixture_congr hverdict, mixture_const]

/-! ## §6  The rounds of a request -/

theorem verdictLaw_certain {s drafts : List ℕ} (hs : ∀ t ∈ s, t < r.vocab)
    (hdrafts : ∀ t ∈ drafts, t < r.vocab) :
    r.verdictLaw s drafts none = verify r.plainLaw (certain s drafts 0) s drafts := by
  by_cases hgreedy : r.params.temperature = 0
  · exact verdictLaw_greedy hgreedy hs hdrafts none
  · exact verdictLaw_sampled hgreedy hs hdrafts (fun j hj => certain_take s drafts hj)
      (fun x hx => by cases hx) fun _ => zero_le_one

theorem verdictLaw_reported {q : List ℕ → PMF ℕ} (hq : ∀ s t, r.vocab ≤ t → q s t = 0)
    (hsampled : r.params.temperature ≠ 0) {s drafts : List ℕ} (hs : ∀ t ∈ s, t < r.vocab)
    (hdrafts : ∀ t ∈ drafts, t < r.vocab) :
    r.verdictLaw s drafts (some (r.reported q s drafts)) = verify r.plainLaw q s drafts := by
  refine verdictLaw_sampled hsampled hs hdrafts ⟨rfl, fun j _ => ⟨fun _ _ => rfl, hq _⟩⟩ ?_
    fun _ => ENNReal.toReal_nonneg
  intro x hx
  obtain rfl := Option.some.inj hx
  exact ⟨rfl, rfl⟩

theorem drafted {q : List ℕ → PMF ℕ} (hq : ∀ s t, r.vocab ≤ t → q s t = 0) {k : ℕ}
    {s drafts : List ℕ} (h : drafts ∈ (continuation q k s).support) :
    ∀ t ∈ drafts, t < r.vocab := by
  refine continuation_support (fun s t ht => ?_) h
  by_contra hge
  exact ht (hq s t (not_lt.mp hge))

/-- The law of a round, one draft at a time. -/
theorem roundLaw_cases (x : Proposal r.vocab) {s : List ℕ} (hs : ∀ t ∈ s, t < r.vocab) :
    (∃ q k, r.roundLaw s x = speculate r.plainLaw q k s ∧ ∀ s t, r.vocab ≤ t → q s t = 0) ∨
      ∃ law : PMF (List ℕ), (∀ drafts ∈ law.support, ∀ t ∈ drafts, t < r.vocab) ∧
        r.roundLaw s x =
          law.bind fun drafts => verify r.plainLaw (certain s drafts 0) s drafts := by
  -- a drafter's law may be used only where the draft has a chance to be drawn
  have hbind : ∀ {law : PMF (List ℕ)} {κ κ' : List ℕ → PMF (List ℕ)},
      (∀ drafts ∈ law.support, κ drafts = κ' drafts) → law.bind κ = law.bind κ' := by
    intro law κ κ' h
    refine PMF.ext fun ys => tsum_congr fun drafts => ?_
    by_cases hmem : drafts ∈ law.support
    · rw [h drafts hmem]
    · rw [PMF.mem_support_iff, not_not] at hmem
      rw [hmem, zero_mul, zero_mul]
  cases x with
  | certain drafts hdrafts =>
      refine .inr ⟨PMF.pure drafts, fun ds hds => ?_, ?_⟩
      · rw [PMF.mem_support_pure_iff] at hds
        exact hds ▸ hdrafts
      · rw [PMF.pure_bind]
        exact verdictLaw_certain hs hdrafts
  | sampled q k hq =>
      by_cases hgreedy : r.params.temperature = 0
      · exact .inr ⟨continuation q k s, fun ds hds => drafted hq hds,
          hbind fun ds hds => verdictLaw_greedy hgreedy hs (drafted hq hds) _⟩
      · refine .inl ⟨q, k, hbind fun ds hds => ?_, hq⟩
        exact verdictLaw_reported hq hgreedy hs (drafted hq hds)

theorem roundLaw_continues (x : Proposal r.vocab) {s : List ℕ} (hs : ∀ t ∈ s, t < r.vocab) :
    Continues r.plainLaw s (r.roundLaw s x) := by
  rcases roundLaw_cases x hs with ⟨q, k, hlaw, -⟩ | ⟨law, -, hlaw⟩
  · rw [hlaw]
    exact Continues.speculate r.plainLaw q k s
  · rw [hlaw]
    exact Continues.bind fun drafts => Continues.certain r.plainLaw s drafts 0

theorem roundLaw_support (x : Proposal r.vocab) {s : List ℕ} (hs : ∀ t ∈ s, t < r.vocab)
    {ys : List ℕ} (h : ys ∈ (r.roundLaw s x).support) :
    ys ≠ [] ∧ ∀ t ∈ ys, t < r.vocab := by
  rcases roundLaw_cases x hs with ⟨q, k, hlaw, hq⟩ | ⟨law, hlaws, hlaw⟩
  all_goals
    rw [hlaw] at h
    obtain ⟨drafts, hdrafts, h⟩ := (PMF.mem_support_bind_iff _ _ _).mp h
    refine ⟨?_, ?_⟩
    · rintro rfl
      exact verify_ne_nil _ _ _ _ h
  · exact verify_support (fun s t ht => plainLaw_support ht) (drafted hq hdrafts) h
  · exact verify_support (fun s t ht => plainLaw_support ht) (hlaws drafts hdrafts) h

/-- What the rounds emitted is of the vocabulary. -/
def InVocab (r : Request) (h : List (List ℕ)) : Prop := ∀ t ∈ h.flatten, t < r.vocab

theorem InVocab.append {prompt : List ℕ} (hprompt : ∀ t ∈ prompt, t < r.vocab)
    {h : List (List ℕ)} (hh : r.InVocab h) : ∀ t ∈ prompt ++ h.flatten, t < r.vocab := by
  intro t ht
  rcases List.mem_append.mp ht with ht | ht
  · exact hprompt t ht
  · exact hh t ht

theorem InVocab.round {prompt : List ℕ} (hprompt : ∀ t ∈ prompt, t < r.vocab)
    (propose : List (List ℕ) → Proposal r.vocab) (h : List (List ℕ)) (ys : List ℕ)
    (hh : r.InVocab h)
    (hys : ys ∈ (r.roundLaw (prompt ++ h.flatten) (propose h)).support) :
    r.InVocab (h ++ [ys]) := by
  intro t ht
  rw [List.flatten_append, List.flatten_singleton] at ht
  rcases List.mem_append.mp ht with ht | ht
  · exact hh t ht
  · exact (roundLaw_support (propose h) (hh.append hprompt) hys).2 t ht

/-- However the drafter proposes, from whatever laws and however many tokens a round: the first
`n` tokens of at least `n` rounds have the law of `n` plain steps, and a plain step is what the
sampler draws of the row in any batch. -/
theorem run_law (r : Request) {prompt : List ℕ} (hprompt : ∀ t ∈ prompt, t < r.vocab)
    (propose : List (List ℕ) → Proposal r.vocab) {n m : ℕ} (hnm : n ≤ m) :
    (r.run prompt propose m).map (fun chunks => chunks.flatten.take n)
        = continuation r.plainLaw n prompt ∧
      ∀ (s : List ℕ) (logSoftmax : List (WithBot ℝ) → ℕ → WithBot ℝ) (device : String)
        (B : Batch ℝ ℝ) (out : SamplerOutput ℝ) (b : ℕ),
        B.sample r.sorting r.exponential logSoftmax device = .ok out →
        B.params[b]? = some r.params → B.logits.row b = r.row s →
        (r.params.repetitionPenalty ≠ 1 → B.history b = s) →
        (out.tokens[b]?).map drawLaw = some (r.plainLaw s) := by
  constructor
  · have hstart : r.InVocab [] := fun t ht => absurd ht List.not_mem_nil
    have hlaw := rounds_take (InVocab.round hprompt propose)
      (fun h hh => roundLaw_continues (propose h) (hh.append hprompt))
      (fun h hh hnil => (roundLaw_support (propose h) (hh.append hprompt) hnil).1 rfl) hnm hstart
    rw [List.flatten_nil, List.append_nil] at hlaw
    exact hlaw
  · intro s logSoftmax device B out b hsample hparams hrow hhistory
    have hlaw : ∀ generator, drawLaw (rowDraw r.exponential r.params generator (r.shaped s))
        = r.plainLaw s := by
      intro generator
      unfold plainLaw plainDraw rowDraw
      split <;> rfl
    have hshaped : shapedRow r.sorting r.exponential r.params (B.history b) (r.row s)
        = r.shaped s := by
      by_cases hone : r.params.repetitionPenalty = 1
      · rw [shaped, shapedRow, shapedRow, keptRow, keptRow,
          penalisedRow_idle (exact_lawful _) (.inl hone),
          penalisedRow_idle (exact_lawful _) (.inl hone)]
      · rw [hhistory hone, shaped]
    rw [sample_row_exact _ _ hsample hparams, hrow, hshaped, Option.map_some]
    exact congrArg some (hlaw _)

theorem even_temperature : (0 : ℝ) ≤ 1 := zero_le_one

theorem even_penalty : (0 : ℝ) < 1 := one_pos

theorem even_topP : (1 : ℝ) ≤ 1 := le_rfl

theorem even_device (g : Generator) (hg : g ∈ (none : Option Generator)) : g.deviceType = "cpu" :=
  absurd hg (Option.not_mem_none g)

/-- Two tokens, always as likely as each other. -/
noncomputable def even : Request where
  vocab := 2
  next _ _ := 0
  params := ⟨1, 1, 0, 1, false, even_temperature, even_penalty, even_topP, even_penalty⟩
  device := "cpu"
  generator := none
  sorting := .stable ℝ
  exponential := .real
  vocab_pos := Nat.two_pos
  generator_device := even_device

theorem run_law_even :
    let propose (_ : List (List ℕ)) : Proposal even.vocab :=
      .certain [1] (List.forall_mem_singleton.mpr Nat.one_lt_two)
    (even.run [0] propose 2).map (fun chunks => chunks.flatten.take 2)
        = continuation even.plainLaw 2 [0] ∧
      ∀ (s : List ℕ) (logSoftmax : List (WithBot ℝ) → ℕ → WithBot ℝ) (device : String)
        (B : Batch ℝ ℝ) (out : SamplerOutput ℝ) (b : ℕ),
        B.sample even.sorting even.exponential logSoftmax device = .ok out →
        B.params[b]? = some even.params → B.logits.row b = even.row s →
        (even.params.repetitionPenalty ≠ 1 → B.history b = s) →
        (out.tokens[b]?).map drawLaw = some (even.plainLaw s) :=
  run_law even (List.forall_mem_singleton.mpr Nat.two_pos) _ le_rfl

end Request

end TurboServe.Spec
