import Mathlib.Data.List.GetD
import Mathlib.Probability.ProbabilityMassFunction.Constructions
import Mathlib.Probability.ProductMeasure

/-!
# Speculative sampling

Tokens are drawn one after another from a law that depends on those before. A drafter guesses
some of them from a law of its own; each guess is kept or replaced so that what is emitted has
the first law again.
-/

namespace TurboServe.Lib

open ENNReal

/-! ## §1  One token -/

/-- Heads with the probability `a`, with certainty from `1` on. -/
noncomputable def coin (a : ℝ≥0∞) : PMF Bool :=
  PMF.ofFintype (fun b => cond b (min 1 a) (1 - min 1 a)) (by
    rw [Fintype.sum_bool]
    exact add_tsub_cancel_of_le (min_le_left 1 a))

theorem coin_bind_apply {β : Type*} (a : ℝ≥0∞) (f : Bool → PMF β) (y : β) :
    (coin a).bind f y = min 1 a * f true y + (1 - min 1 a) * f false y := by
  rw [PMF.bind_apply, tsum_bool, add_comm]
  rfl

theorem coin_zero_bind {β : Type*} (f : Bool → PMF β) : (coin 0).bind f = f false := by
  ext y
  rw [coin_bind_apply, min_eq_right zero_le_one, zero_mul, zero_add, tsub_zero, one_mul]

theorem coin_one_bind {β : Type*} (f : Bool → PMF β) : (coin 1).bind f = f true := by
  ext y
  rw [coin_bind_apply, min_self, tsub_self, one_mul, zero_mul, add_zero]

section One

variable {α : Type*} (p q : PMF α)

theorem tsum_tsub_ne_top : (tsum fun x => p x - q x) ≠ ∞ := by
  have hle : (tsum fun x => p x - q x) ≤ tsum fun x => p x :=
    ENNReal.tsum_le_tsum fun x => tsub_le_self
  rw [p.tsum_coe] at hle
  exact ne_top_of_le_ne_top one_ne_top hle

/-- The part of `p` above `q`, normalised; `p` itself where there is none. -/
noncomputable def surplus : PMF α :=
  open Classical in
  if h : (tsum fun x => p x - q x) = 0 then p
  else PMF.normalize (fun x => p x - q x) h (tsum_tsub_ne_top p q)

/-- A guess from `q`, kept with probability `p / q`. -/
noncomputable def emitOne : PMF α :=
  q.bind fun x => (coin (p x / q x)).bind fun keep =>
    if keep then PMF.pure x else surplus p q

theorem mul_min_div (x : α) : q x * min 1 (p x / q x) = min (q x) (p x) := by
  rcases eq_or_ne (q x) 0 with hzero | hpos
  · rw [hzero, zero_mul]
    exact (min_eq_left bot_le).symm
  · rw [mul_min, mul_one, ENNReal.mul_div_cancel hpos (q.apply_ne_top x)]

/-- `p` lies above `q` by as much as `q` above `p`. -/
theorem tsum_tsub_comm : (tsum fun x => p x - q x) = (tsum fun x => q x - p x) := by
  have hp : (tsum fun x => p x - q x) + (tsum fun x => min (p x) (q x)) = 1 := by
    rw [← ENNReal.tsum_add, ← p.tsum_coe]
    exact tsum_congr fun x => tsub_add_min
  have hq : (tsum fun x => q x - p x) + (tsum fun x => min (p x) (q x)) = 1 := by
    rw [← ENNReal.tsum_add, ← q.tsum_coe]
    refine tsum_congr fun x => ?_
    rw [min_comm]
    exact tsub_add_min
  have htop : (tsum fun x => min (p x) (q x)) ≠ ∞ := by
    intro h
    rw [h, add_top] at hp
    exact one_ne_top hp.symm
  exact (ENNReal.add_left_inj htop).mp (hp.trans hq.symm)

theorem tsum_tsub_mul_surplus (x : α) :
    (tsum fun y => q y - p y) * surplus p q x = p x - q x := by
  rw [← tsum_tsub_comm p q, surplus]
  split_ifs with h
  · rw [h, zero_mul]
    exact (ENNReal.tsum_eq_zero.mp h x).symm
  · rw [PMF.normalize_apply, mul_comm, mul_assoc,
      ENNReal.inv_mul_cancel h (tsum_tsub_ne_top p q), mul_one]

theorem surplus_of_disjoint (h : ∀ x, p x = 0 ∨ q x = 0) : surplus p q = p := by
  have hsame : ∀ x, p x - q x = p x := by
    intro x
    rcases h x with hp | hq
    · rw [hp, zero_tsub]
    · rw [hq, tsub_zero]
  have hsum : (tsum fun x => p x - q x) = 1 := by rw [tsum_congr hsame, p.tsum_coe]
  rw [surplus, dif_neg (by rw [hsum]; exact one_ne_zero)]
  refine PMF.ext fun x => ?_
  rw [PMF.normalize_apply, hsum, inv_one, mul_one, hsame]

theorem surplus_eq_zero {x : α} (h : p x = 0) : surplus p q x = 0 := by
  rw [surplus]
  split_ifs
  · exact h
  · rw [PMF.normalize_apply, h, zero_tsub, zero_mul]

theorem mul_one_tsub_coin (x : α) : q x * (1 - min 1 (p x / q x)) = q x - p x := by
  rw [ENNReal.mul_sub fun _ _ => q.apply_ne_top x, mul_one, mul_min_div, tsub_min]

open Classical in
/-- What is emitted has the law `p`, whatever was guessed from. -/
theorem emitOne_eq : emitOne p q = p := by
  ext x
  have hterm : ∀ y, q y * (coin (p y / q y)).bind
      (fun keep => if keep then PMF.pure y else surplus p q) x
        = (if y = x then min (q x) (p x) else 0) + (q y - p y) * surplus p q x := by
    intro y
    rw [coin_bind_apply, mul_add, ← mul_assoc, ← mul_assoc, mul_min_div, mul_one_tsub_coin]
    rcases eq_or_ne y x with rfl | hne
    · simp
    · simp [hne, hne.symm]
  calc emitOne p q x
      = tsum fun y => (if y = x then min (q x) (p x) else 0) + (q y - p y) * surplus p q x :=
        tsum_congr hterm
    _ = min (q x) (p x) + (tsum fun y => q y - p y) * surplus p q x := by
        rw [ENNReal.tsum_add, tsum_ite_eq, ENNReal.tsum_mul_right]
    _ = min (p x) (q x) + (p x - q x) := by rw [tsum_tsub_mul_surplus, min_comm]
    _ = p x := by rw [add_comm, tsub_add_min]

end One

/-! ## §2  A draft -/

section Draft

variable {α : Type*}

/-- `n` tokens after `s`, one at a time. -/
noncomputable def continuation (p : List α → PMF α) : ℕ → List α → PMF (List α)
  | 0, _ => PMF.pure []
  | n + 1, s => (p s).bind fun x => (continuation p n (s ++ [x])).map (x :: ·)

/-- The guesses kept, up to the first that is replaced; after the last, one token more. -/
noncomputable def verify (p q : List α → PMF α) : List α → List α → PMF (List α)
  | s, [] => (p s).map fun t => [t]
  | s, x :: xs => (coin (p s x / q s x)).bind fun keep =>
      if keep then (verify p q (s ++ [x]) xs).map (x :: ·)
      else (surplus (p s) (q s)).map fun t => [t]

/-- A draft of `k` guesses, then its verification. -/
noncomputable def speculate (p q : List α → PMF α) (k : ℕ) (s : List α) : PMF (List α) :=
  (continuation q k s).bind (verify p q s)

theorem speculate_zero (p q : List α → PMF α) (s : List α) :
    speculate p q 0 s = (p s).map fun t => [t] := PMF.pure_bind _ _

theorem speculate_succ (p q : List α → PMF α) (k : ℕ) (s : List α) :
    speculate p q (k + 1) s = (q s).bind fun x => (coin (p s x / q s x)).bind fun keep =>
      if keep then (speculate p q k (s ++ [x])).map (x :: ·)
      else (surplus (p s) (q s)).map fun t => [t] := by
  rw [speculate, continuation, PMF.bind_bind]
  congr 1
  funext x
  rw [PMF.bind_map]
  -- the coin of the first guess does not wait for the guesses after it
  simp only [Function.comp_def, verify]
  rw [PMF.bind_comm]
  congr 1
  funext keep
  cases keep with
  | true => simp only [if_true, speculate, PMF.map_bind]
  | false => simp only [Bool.false_eq_true, if_false, PMF.bind_const]

/-- What is emitted after `s`, carried on by `p` to `n` tokens. -/
noncomputable def carryOn (p : List α → PMF α) (n : ℕ) (s ys : List α) : PMF (List α) :=
  (continuation p (n - ys.length) (s ++ ys)).map (ys.take n ++ ·)

theorem carryOn_nil (p : List α → PMF α) (n : ℕ) (s : List α) :
    carryOn p n s [] = continuation p n s := by
  rw [carryOn, List.length_nil, Nat.sub_zero, List.append_nil, List.take_nil]
  exact PMF.map_id _

theorem carryOn_zero (p : List α → PMF α) (s ys : List α) : carryOn p 0 s ys = PMF.pure [] := by
  rw [carryOn, Nat.zero_sub, continuation, PMF.pure_map, List.take_zero, List.nil_append]

theorem carryOn_cons (p : List α → PMF α) (n : ℕ) (s : List α) (x : α) (ys : List α) :
    carryOn p (n + 1) s (x :: ys) = (carryOn p n (s ++ [x]) ys).map (x :: ·) := by
  rw [carryOn, carryOn, PMF.map_comp, List.length_cons, Nat.add_sub_add_right,
    List.append_assoc, List.singleton_append]
  rfl

/-- `law` emits a beginning of what `p` draws after `s`: carried on from where it ends it has
`p`'s law, at every length. -/
def Continues (p : List α → PMF α) (s : List α) (law : PMF (List α)) : Prop :=
  ∀ n, law.bind (carryOn p n s) = continuation p n s

theorem Continues.token (p : List α → PMF α) (s : List α) :
    Continues p s ((p s).map fun t => [t]) := by
  intro n
  rw [PMF.bind_map]
  cases n with
  | zero => simp only [Function.comp_def, carryOn_zero, continuation, PMF.bind_const]
  | succ n => simp only [Function.comp_def, carryOn_cons, carryOn_nil, continuation]

/-- Emitted as if drawn from `p` with no draft at all. -/
theorem Continues.speculate (p q : List α → PMF α) (k : ℕ) (s : List α) :
    Continues p s (speculate p q k s) := by
  induction k generalizing s with
  | zero =>
      rw [speculate_zero]
      exact Continues.token p s
  | succ k ih =>
      intro n
      cases n with
      | zero =>
          rw [show carryOn p 0 s = fun _ => PMF.pure [] from funext (carryOn_zero p s)]
          exact PMF.bind_const _ _
      | succ n =>
          let next x := (continuation p n (s ++ [x])).map (x :: ·)
          have hkept : ∀ x, ((Lib.speculate p q k (s ++ [x])).map (x :: ·)).bind
              (carryOn p (n + 1) s) = next x := by
            intro x
            have hcarry := congrArg (fun law => law.map (x :: ·)) (ih (s ++ [x]) n)
            simp only [PMF.map_bind] at hcarry
            rw [PMF.bind_map]
            simp only [Function.comp_def, carryOn_cons]
            exact hcarry
          have hreplaced : ((surplus (p s) (q s)).map fun t => [t]).bind
              (carryOn p (n + 1) s) = (surplus (p s) (q s)).bind next := by
            rw [PMF.bind_map]
            simp only [Function.comp_def, carryOn_cons, carryOn_nil, next]
          have hone := congrArg (fun law => PMF.bind law next) (emitOne_eq (p s) (q s))
          simp only [emitOne, PMF.bind_bind] at hone
          rw [speculate_succ, PMF.bind_bind, continuation, ← hone]
          congr 1
          funext x
          rw [PMF.bind_bind]
          congr 1
          funext keep
          cases keep with
          | true => simpa only [if_true, PMF.pure_bind] using hkept x
          | false => simpa only [Bool.false_eq_true, if_false] using hreplaced

/-- A draft settled in advance continues too, and so does one of many drawn at random. -/
theorem Continues.bind {β : Type*} {p : List α → PMF α} {s : List α} {law : PMF β}
    {κ : β → PMF (List α)} (h : ∀ b, Continues p s (κ b)) : Continues p s (law.bind κ) := by
  intro n
  rw [PMF.bind_bind]
  simp only [h _ n, PMF.bind_const]

/-- The law that guesses the draft `xs` after `s`. -/
noncomputable def certain (s xs : List α) (fallback : α) (s' : List α) : PMF α :=
  PMF.pure (xs.getD (s'.length - s.length) fallback)

theorem continuation_certain (s xs : List α) (fallback : α) {k j : ℕ} (hk : j + k = xs.length) :
    continuation (certain s xs fallback) k (s ++ xs.take j) = PMF.pure (xs.drop j) := by
  induction k generalizing j with
  | zero =>
      rw [Nat.add_zero] at hk
      rw [hk, List.drop_length, continuation]
  | succ k ih =>
      have hj : j < xs.length := by omega
      have hindex : (s ++ xs.take j).length - s.length = j := by
        rw [List.length_append, List.length_take, Nat.min_eq_left hj.le]
        omega
      rw [continuation, certain, hindex, PMF.pure_bind, List.append_assoc,
        List.getD_eq_getElem _ _ hj, List.take_append_getElem, ih (by omega), PMF.pure_map,
        List.drop_eq_getElem_cons hj]

theorem Continues.certain (p : List α → PMF α) (s xs : List α) (fallback : α) :
    Continues p s (verify p (certain s xs fallback) s xs) := by
  have h := Continues.speculate p (Lib.certain s xs fallback) xs.length s
  have hdraft := continuation_certain s xs fallback (Nat.zero_add xs.length)
  rw [List.take_zero, List.append_nil, List.drop_zero] at hdraft
  rwa [Lib.speculate, hdraft, PMF.pure_bind] at h

/-- Guesses come from the laws they are drawn from. -/
theorem continuation_support {q : List α → PMF α} {P : α → Prop}
    (hq : ∀ s x, x ∈ (q s).support → P x) {k : ℕ} {s xs : List α}
    (h : xs ∈ (continuation q k s).support) : ∀ x ∈ xs, P x := by
  induction k generalizing s xs with
  | zero =>
      rw [continuation, PMF.mem_support_pure_iff] at h
      subst h
      exact fun x hx => absurd hx List.not_mem_nil
  | succ k ih =>
      rw [continuation, PMF.mem_support_bind_iff] at h
      obtain ⟨x, hx, h⟩ := h
      rw [PMF.mem_support_map_iff] at h
      obtain ⟨tail, htail, rfl⟩ := h
      intro y hy
      rcases List.mem_cons.mp hy with rfl | hy
      · exact hq s y hx
      · exact ih htail y hy

/-- What is emitted was guessed or is one of `p`'s. -/
theorem verify_support {p q : List α → PMF α} {P : α → Prop}
    (hp : ∀ s x, x ∈ (p s).support → P x) {s xs ys : List α} (hxs : ∀ x ∈ xs, P x)
    (h : ys ∈ (verify p q s xs).support) : ∀ y ∈ ys, P y := by
  induction xs generalizing s ys with
  | nil =>
      rw [verify, PMF.mem_support_map_iff] at h
      obtain ⟨t, ht, rfl⟩ := h
      intro y hy
      rw [List.mem_singleton] at hy
      exact hp s y (hy ▸ ht)
  | cons x xs ih =>
      rw [verify, PMF.mem_support_bind_iff] at h
      obtain ⟨keep, -, h⟩ := h
      cases keep with
      | true =>
          rw [if_pos rfl, PMF.mem_support_map_iff] at h
          obtain ⟨tail, htail, rfl⟩ := h
          intro y hy
          rcases List.mem_cons.mp hy with rfl | hy
          · exact hxs y List.mem_cons_self
          · exact ih (fun z hz => hxs z (List.mem_cons_of_mem x hz)) htail y hy
      | false =>
          rw [if_neg Bool.false_ne_true, PMF.mem_support_map_iff] at h
          obtain ⟨t, ht, rfl⟩ := h
          intro y hy
          rw [List.mem_singleton] at hy
          subst hy
          apply hp s
          rw [PMF.mem_support_iff] at ht ⊢
          exact mt (surplus_eq_zero (p s) (q s)) ht

theorem verify_ne_nil (p q : List α → PMF α) (s xs : List α) :
    [] ∉ (verify p q s xs).support := by
  intro h
  cases xs with
  | nil => simp [verify] at h
  | cons x xs =>
      rw [verify, PMF.mem_support_bind_iff] at h
      obtain ⟨keep, -, h⟩ := h
      cases keep <;> simp at h

end Draft

/-! ## §3  All coins first -/

section Flips

variable {α : Type*}

/-- A coin for each probability. -/
noncomputable def flips : List ℝ≥0∞ → PMF (List Bool)
  | [] => PMF.pure []
  | a :: as => (coin a).bind fun b => (flips as).map (b :: ·)

theorem flips_apply_of_length_ne {as : List ℝ≥0∞} {bs : List Bool} (h : bs.length ≠ as.length) :
    flips as bs = 0 := by
  induction as generalizing bs with
  | nil =>
      apply PMF.pure_apply_of_ne
      rintro rfl
      exact h rfl
  | cons a as ih =>
      have hnone : ∀ b, ((flips as).map (b :: ·)) bs = 0 := by
        intro b
        rw [PMF.map_apply, ENNReal.tsum_eq_zero]
        intro tail
        split_ifs with heq
        · apply ih
          intro hlen
          rw [heq, List.length_cons, List.length_cons, hlen] at h
          exact h rfl
        · rfl
      rw [flips, coin_bind_apply, hnone, hnone, mul_zero, mul_zero, add_zero]

theorem flips_apply {as : List ℝ≥0∞} {bs : List Bool} (h : bs.length = as.length) :
    flips as bs = ∏ j ∈ Finset.range as.length, coin (as.getD j 0) (bs.getD j false) := by
  induction as generalizing bs with
  | nil =>
      rw [List.length_eq_zero_iff.mp h]
      exact PMF.pure_apply_self _
  | cons a as ih =>
      cases bs with
      | nil => cases h
      | cons b bs =>
          have hmap : ∀ c, ((flips as).map (c :: ·)) (b :: bs) =
              if b = c then flips as bs else 0 := by
            intro c
            rw [PMF.map_apply]
            by_cases hbc : b = c
            · simp only [hbc, List.cons.injEq, true_and, if_true]
              rw [tsum_congr fun tail => if_congr eq_comm rfl rfl]
              exact tsum_ite_eq bs _
            · simp [hbc]
          rw [flips, coin_bind_apply, hmap, hmap, List.length_cons, Finset.prod_range_succ']
          simp only [List.getD_cons_succ, List.getD_cons_zero]
          rw [← ih (Nat.succ.inj h), mul_comm _ (coin a b)]
          cases b <;> simp [coin]

/-- The chances of the guesses of a draft. -/
noncomputable def chances (p q : List α → PMF α) : List α → List α → List ℝ≥0∞
  | _, [] => []
  | s, x :: xs => p s x / q s x :: chances p q (s ++ [x]) xs

theorem length_chances (p q : List α → PMF α) (s xs : List α) :
    (chances p q s xs).length = xs.length := by
  induction xs generalizing s with
  | nil => rfl
  | cons x xs ih => exact congrArg (· + 1) (ih _)

theorem getD_chances (p q : List α → PMF α) (s xs : List α) {j : ℕ} (hj : j < xs.length) :
    (chances p q s xs).getD j 0
      = p (s ++ xs.take j) xs[j] / q (s ++ xs.take j) xs[j] := by
  induction xs generalizing s j with
  | nil => exact absurd hj (Nat.not_lt_zero _)
  | cons x xs ih =>
      cases j with
      | zero => simp [chances]
      | succ j =>
          have hsplit : s ++ (x :: xs).take (j + 1) = s ++ [x] ++ xs.take j := by simp
          rw [chances, List.getD_cons_succ, ih (s ++ [x]) (Nat.lt_of_succ_lt_succ hj),
            List.getElem_cons_succ, hsplit]

/-- What is emitted once every coin has fallen: the guesses before the first tail, and one
token more. -/
noncomputable def judge (p q : List α → PMF α) (s xs : List α) (bs : List Bool) : PMF (List α) :=
  let n := bs.findIdx (!·)
  (if n = xs.length then p (s ++ xs)
    else surplus (p (s ++ xs.take n)) (q (s ++ xs.take n))).map (xs.take n ++ [·])

theorem judge_cons_false (p q : List α → PMF α) (s : List α) (x : α) (xs : List α)
    (bs : List Bool) :
    judge p q s (x :: xs) (false :: bs) = (surplus (p s) (q s)).map fun t => [t] := by
  simp [judge, List.findIdx_cons]

theorem judge_cons_true (p q : List α → PMF α) (s : List α) (x : α) (xs : List α)
    (bs : List Bool) :
    judge p q s (x :: xs) (true :: bs) = (judge p q (s ++ [x]) xs bs).map (x :: ·) := by
  simp only [judge, List.findIdx_cons, Bool.not_true, cond_false, List.length_cons,
    Nat.add_right_cancel_iff, List.take_succ_cons, PMF.map_comp, List.append_assoc,
    List.singleton_append]
  rfl

/-- Flipping every coin before the first look at them changes nothing. -/
theorem flips_judge (p q : List α → PMF α) (s xs : List α) :
    (flips (chances p q s xs)).bind (judge p q s xs) = verify p q s xs := by
  induction xs generalizing s with
  | nil =>
      rw [chances, flips, PMF.pure_bind, verify, judge]
      simp
  | cons x xs ih =>
      rw [chances, flips, PMF.bind_bind, verify]
      congr 1
      funext b
      rw [PMF.bind_map]
      cases b with
      | true => simp only [Function.comp_def, judge_cons_true, if_true, ← ih, PMF.map_bind]
      | false => simp only [Function.comp_def, judge_cons_false, PMF.bind_const,
          Bool.false_eq_true, if_false]

end Flips

/-! ## §4  Laws of real draws -/

section Mixture

open MeasureTheory

/-- The law of a draw that depends on a random point. -/
noncomputable def mixture {Ω α : Type*} [MeasurableSpace Ω] [Countable α] (μ : Measure Ω)
    [IsProbabilityMeasure μ] (law : Ω → PMF α) (h : ∀ a, Measurable fun ω => law ω a) : PMF α :=
  ⟨fun a => ∫⁻ ω, law ω a ∂μ, by
    rw [ENNReal.summable.hasSum_iff, ← lintegral_tsum fun a => (h a).aemeasurable]
    simp only [PMF.tsum_coe, lintegral_const, measure_univ, mul_one]⟩

theorem mixture_congr {Ω α : Type*} [MeasurableSpace Ω] [Countable α] {μ : Measure Ω}
    [IsProbabilityMeasure μ] {law law' : Ω → PMF α} {h : ∀ a, Measurable fun ω => law ω a}
    (heq : law = law') : mixture μ law h = mixture μ law' (heq ▸ h) := by
  subst heq
  rfl

theorem mixture_const {Ω α : Type*} [MeasurableSpace Ω] [Countable α] {μ : Measure Ω}
    [IsProbabilityMeasure μ] (law : PMF α) (h : ∀ a, Measurable fun _ : Ω => law a) :
    mixture μ (fun _ => law) h = law := by
  refine PMF.ext fun a => ?_
  change ∫⁻ _, law a ∂μ = law a
  rw [lintegral_const, measure_univ, mul_one]

/-- Real numbers drawn evenly from `[0, 1)`, each on its own. -/
noncomputable def uniforms : Measure (ℕ → ℝ) :=
  Measure.infinitePi fun _ => volume.restrict (Set.Ico 0 1)

instance uniform_isProbabilityMeasure :
    IsProbabilityMeasure (volume.restrict (Set.Ico (0 : ℝ) 1)) :=
  ⟨by rw [Measure.restrict_apply_univ, Real.volume_Ico, sub_zero, ENNReal.ofReal_one]⟩

instance uniforms_isProbabilityMeasure : IsProbabilityMeasure uniforms := by
  unfold uniforms
  infer_instance

/-- The test `u * q < p` is a coin of `p / q`, where `q` is `0` as well. -/
theorem uniform_lt {p q : ℝ} (hp : 0 ≤ p) (hq : 0 ≤ q) :
    volume.restrict (Set.Ico (0 : ℝ) 1) {u | u * q < p}
      = coin (ENNReal.ofReal p / ENNReal.ofReal q) true := by
  have hset : MeasurableSet {u : ℝ | u * q < p} :=
    measurableSet_lt (measurable_id.mul_const q) measurable_const
  rw [Measure.restrict_apply hset]
  change _ = min 1 _
  rcases hq.eq_or_lt with rfl | hq
  · rcases hp.eq_or_lt with rfl | hp
    · simp
    · have hall : {u : ℝ | u * 0 < p} ∩ Set.Ico 0 1 = Set.Ico 0 1 := by
        ext u
        simp [hp]
      rw [hall, Real.volume_Ico, ENNReal.ofReal_zero,
        ENNReal.div_zero (ENNReal.ofReal_pos.mpr hp).ne']
      simp
  · have hbelow : {u : ℝ | u * q < p} ∩ Set.Ico 0 1 = Set.Ico 0 (min 1 (p / q)) := by
      ext u
      simp only [Set.mem_inter_iff, Set.mem_ofPred_eq, Set.mem_Ico, lt_min_iff, lt_div_iff₀ hq]
      tauto
    rw [hbelow, Real.volume_Ico, sub_zero, ENNReal.ofReal_min, ENNReal.ofReal_one,
      ENNReal.ofReal_div_of_pos hq]

theorem uniform_test {p q : ℝ} (hp : 0 ≤ p) (hq : 0 ≤ q) (b : Bool) :
    volume.restrict (Set.Ico (0 : ℝ) 1) {u | decide (u * q < p) = b}
      = coin (ENNReal.ofReal p / ENNReal.ofReal q) b := by
  cases b with
  | true => simpa only [decide_eq_true_iff] using uniform_lt hp hq
  | false =>
      have hset : MeasurableSet {u : ℝ | u * q < p} :=
        measurableSet_lt (measurable_id.mul_const q) measurable_const
      have hcompl : {u : ℝ | decide (u * q < p) = false} = {u | u * q < p}ᶜ := by
        ext u
        simp
      rw [hcompl, measure_compl hset (measure_ne_top _ _), measure_univ, uniform_lt hp hq]
      rfl

/-- The tests of a draft, one number for each. -/
noncomputable def tests (p q : ℕ → ℝ) (k : ℕ) (u : ℕ → ℝ) : List Bool :=
  (List.range k).map fun j => decide (u j * q j < p j)

theorem length_tests (p q : ℕ → ℝ) (k : ℕ) (u : ℕ → ℝ) : (tests p q k u).length = k := by
  rw [tests, List.length_map, List.length_range]

theorem tests_eq_iff (p q : ℕ → ℝ) {k : ℕ} {bs : List Bool} (h : bs.length = k) (u : ℕ → ℝ) :
    tests p q k u = bs ↔
      u ∈ Set.pi (Finset.range k) fun j => {x | decide (x * q j < p j) = bs.getD j false} := by
  subst h
  simp only [Set.mem_pi, Finset.coe_range, Set.mem_Iio, Set.mem_ofPred_eq]
  constructor
  · intro heq j hj
    rw [← heq, tests, List.getD_eq_getElem _ _ (by simpa using hj), List.getElem_map,
      List.getElem_range]
  · intro hall
    apply List.ext_getElem (length_tests p q bs.length u)
    intro j hj hbs
    rw [← List.getD_eq_getElem bs false hbs, ← hall j hbs, ← List.getD_eq_getElem _ false hj,
      List.getD_eq_getElem _ _ hj]
    simp only [tests, List.getElem_map, List.getElem_range]

theorem measurableSet_test (p q : ℝ) (b : Bool) :
    MeasurableSet {x : ℝ | decide (x * q < p) = b} := by
  have hset : MeasurableSet {u : ℝ | u * q < p} :=
    measurableSet_lt (measurable_id.mul_const q) measurable_const
  cases b with
  | true => simpa only [decide_eq_true_iff] using hset
  | false =>
      simp only [decide_eq_false_iff_not]
      exact hset.compl

theorem measurableSet_tests (p q : ℕ → ℝ) (k : ℕ) (bs : List Bool) :
    MeasurableSet {u | tests p q k u = bs} := by
  by_cases h : bs.length = k
  · simp only [tests_eq_iff p q h]
    exact MeasurableSet.pi (Finset.range k).countable_toSet fun j _ => measurableSet_test _ _ _
  · have hnone : {u | tests p q k u = bs} = ∅ := by
      rw [Set.eq_empty_iff_forall_notMem]
      rintro u rfl
      exact h (length_tests p q k u)
    rw [hnone]
    exact MeasurableSet.empty

/-- The tests fall as the coins do. -/
theorem uniforms_tests {p q : ℕ → ℝ} (hp : ∀ j, 0 ≤ p j) (hq : ∀ j, 0 ≤ q j) (k : ℕ)
    (bs : List Bool) :
    uniforms {u | tests p q k u = bs} = flips ((List.range k).map fun j =>
      ENNReal.ofReal (p j) / ENNReal.ofReal (q j)) bs := by
  by_cases h : bs.length = k
  · have hlen : bs.length = ((List.range k).map fun j =>
        ENNReal.ofReal (p j) / ENNReal.ofReal (q j)).length := by simpa using h
    simp only [tests_eq_iff p q h, Set.ofPred_mem_eq]
    rw [uniforms, Measure.infinitePi_pi _ fun j _ => measurableSet_test _ _ _, flips_apply hlen,
      ← hlen, h]
    refine Finset.prod_congr rfl fun j hj => ?_
    rw [uniform_test (hp j) (hq j), List.getD_eq_getElem _ 0 (by simpa using hj),
      List.getElem_map, List.getElem_range]
  · have hnone : {u | tests p q k u = bs} = ∅ := by
      rw [Set.eq_empty_iff_forall_notMem]
      rintro u rfl
      exact h (length_tests p q k u)
    rw [hnone, measure_empty, flips_apply_of_length_ne (by simpa using h)]

theorem measurable_of_tests {α : Type*} (p q : ℕ → ℝ) (k : ℕ) (law : List Bool → PMF α) (a : α) :
    Measurable fun u => law (tests p q k u) a := by
  let _ : MeasurableSpace (List Bool) := ⊤
  have htests : Measurable (tests p q k) :=
    measurable_to_countable' fun bs => measurableSet_tests p q k bs
  exact (measurable_from_top (f := fun bs => law bs a)).comp htests

/-- What depends on random numbers through the tests depends on the coins. -/
theorem mixture_tests {α : Type*} [Countable α] {p q : ℕ → ℝ} (hp : ∀ j, 0 ≤ p j)
    (hq : ∀ j, 0 ≤ q j) (k : ℕ) (law : List Bool → PMF α)
    (h : ∀ a, Measurable fun u => law (tests p q k u) a) :
    mixture uniforms (fun u => law (tests p q k u)) h = (flips ((List.range k).map fun j =>
      ENNReal.ofReal (p j) / ENNReal.ofReal (q j))).bind law := by
  let _ : MeasurableSpace (List Bool) := ⊤
  have htests : Measurable (tests p q k) :=
    measurable_to_countable' fun bs => measurableSet_tests p q k bs
  refine PMF.ext fun a => ?_
  calc mixture uniforms (fun u => law (tests p q k u)) h a
      = ∫⁻ u, law (tests p q k u) a ∂uniforms := rfl
    _ = ∫⁻ bs, law bs a ∂uniforms.map (tests p q k) :=
        (lintegral_map (f := fun bs => law bs a) measurable_from_top htests).symm
    _ = tsum fun bs => law bs a * uniforms.map (tests p q k) {bs} := lintegral_countable' _
    _ = _ := by
        rw [PMF.bind_apply]
        refine tsum_congr fun bs => ?_
        rw [Measure.map_apply htests MeasurableSpace.measurableSet_top, mul_comm]
        exact congrArg (· * _) (uniforms_tests hp hq k bs)

end Mixture

/-! ## §5  Rounds -/

section Rounds

variable {α : Type*}

/-- `m` rounds, each from what the rounds before it emitted. -/
noncomputable def rounds (round : List (List α) → PMF (List α)) :
    ℕ → List (List α) → PMF (List (List α))
  | 0, _ => PMF.pure []
  | m + 1, h => (round h).bind fun ys => (rounds round m (h ++ [ys])).map (ys :: ·)

/-- Rounds that each emit at least one token, and a beginning of what `p` draws: the first `n`
tokens of at least `n` rounds have `p`'s law. `Good` holds of what the rounds can emit. -/
theorem rounds_take {p : List α → PMF α} {prompt : List α}
    {round : List (List α) → PMF (List α)} {Good : List (List α) → Prop}
    (hgood : ∀ h ys, Good h → ys ∈ (round h).support → Good (h ++ [ys]))
    (hcontinues : ∀ h, Good h → Continues p (prompt ++ h.flatten) (round h))
    (hemits : ∀ h, Good h → [] ∉ (round h).support) {n m : ℕ} (hnm : n ≤ m)
    {h : List (List α)} (hh : Good h) :
    (rounds round m h).map (fun chunks => chunks.flatten.take n)
      = continuation p n (prompt ++ h.flatten) := by
  induction m generalizing n h with
  | zero =>
      obtain rfl := Nat.le_zero.mp hnm
      simp only [rounds, PMF.pure_map, List.take_zero, continuation]
  | succ m ih =>
      rw [rounds, PMF.map_bind, ← hcontinues h hh n]
      refine PMF.ext fun zs => ?_
      rw [PMF.bind_apply, PMF.bind_apply]
      refine tsum_congr fun ys => ?_
      by_cases hys : ys ∈ (round h).support
      · have hlength : n - ys.length ≤ m := by
          have hpos : 0 < ys.length := by
            apply List.length_pos_iff.mpr
            rintro rfl
            exact hemits h hh hys
          omega
        have hprompt : prompt ++ (h ++ [ys]).flatten = prompt ++ h.flatten ++ ys := by simp
        rw [carryOn, ← hprompt, ← ih hlength (hgood h ys hh hys), PMF.map_comp, PMF.map_comp]
        simp only [Function.comp_def, List.flatten_cons, List.take_append]
      · rw [PMF.mem_support_iff, not_not] at hys
        rw [hys, zero_mul, zero_mul]

end Rounds

end TurboServe.Lib
