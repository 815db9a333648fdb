import TurboServe.Gateway.Router
import TurboServe.Lib.WeightedChoice

/-!
# Traffic shares

The router's choice with its two draws over any exact numbers, and the probability of each
replica when they are uniform.
-/

namespace TurboServe.Gateway

open TurboServe.Lib MeasureTheory

/-! ## §1  The choice over any exact numbers -/

section Draws

variable {K : Type*} [Field K] [LinearOrder K]

/-- `canary_fraction` -/
def fractionOf (canaryWeight : Option K) : K :=
  match canaryWeight with
  | none => 0
  | some w => min 1 (max 0 (w / 100))

/-- `choose_lane` -/
def drawLane (canaryWeight : Option K) (exclude : List String) (p : ModelPool) (laneDraw : K) :
    Lane :=
  if p.candidates .canary exclude = [] then .stable
  else if p.candidates .stable exclude = [] then .canary
  else if laneDraw < fractionOf canaryWeight then .canary
  else .stable

/-- `_weighted_choice` -/
def drawReplica (replicaDraw : K) (e : BackendEntry) (rest : List BackendEntry) :
    BackendEntry :=
  pickBy (fun e => (e.weight : K)) (replicaDraw * ((e :: rest).map fun e => (e.weight : K)).sum)
    0 e rest

/-- `select` with no forced lane, after the refresh. -/
def drawFrom (canaryWeight : Option K) (exclude : List String) (p : ModelPool)
    (draws : K × K) : Option BackendEntry :=
  let chosen := drawLane canaryWeight exclude p draws.1
  match p.candidates chosen exclude with
  | e :: rest => some (drawReplica draws.2 e rest)
  | [] =>
      match p.candidates chosen.other exclude with
      | e :: rest => some (drawReplica draws.2 e rest)
      | [] => none

/-- `Router.select` -/
def drawSelect (ttl : ℚ) (o : Outside) (canaryWeight : Option K) (exclude : List String)
    (p : ModelPool) (draws : K × K) : Option BackendEntry :=
  drawFrom canaryWeight exclude (refreshPool ttl o p) draws

end Draws

theorem pick_eq_pickBy (draw upto : ℚ) (e : BackendEntry) (rest : List BackendEntry) :
    pick draw upto e rest = pickBy (fun e => e.weight) draw upto e rest := by
  induction rest generalizing upto e with
  | nil => rfl
  | cons e' rest ih =>
      rw [pick, pickBy]
      split
      · rfl
      · exact ih (upto + e.weight) e'

/-- The router's choice is that of rational draws. -/
theorem selectFrom_eq_drawFrom (o : Outside) (exclude : List String) (p : ModelPool) :
    selectFrom o none exclude p =
      drawFrom o.canaryWeight exclude p (o.laneDraw, o.replicaDraw) := by
  have hreplica : ∀ e rest, weightedChoice o e rest = drawReplica o.replicaDraw e rest :=
    fun e rest => pick_eq_pickBy _ _ e rest
  have hlane : chooseLane o p exclude = drawLane o.canaryWeight exclude p o.laneDraw := by
    have hfraction : canaryFraction o = fractionOf o.canaryWeight := by
      unfold canaryFraction fractionOf
      cases o.canaryWeight <;> rfl
    unfold chooseLane drawLane
    rw [hfraction]
  unfold selectFrom drawFrom
  simp only [Option.getD_none, hlane, hreplica]
  all_goals rfl

/-- Fresh verdicts are believed. -/
theorem refreshPool_of_fresh {ttl : ℚ} {o : Outside} {p : ModelPool}
    (h : ∀ e ∈ p.entries, e.isFresh o.now ttl = true) : refreshPool ttl o p = p := by
  obtain ⟨model, entries, hnd⟩ := p
  unfold refreshPool ModelPool.update
  congr 1
  refine (List.map_congr_left fun e he => ?_).trans (List.map_id _)
  rw [if_pos (h e he)]
  rfl

/-! ## §2  Lanes -/

variable {p : ModelPool} {exclude : List String} {e : BackendEntry} {l : Lane}

theorem lane_of_mem_candidates (h : e ∈ p.candidates l exclude) : e.lane = l := by
  have hcond := (List.mem_filter.mp h).2
  rw [decide_eq_true_eq] at hcond
  exact hcond.1

theorem nodup_candidates : (p.candidates l exclude).Nodup :=
  p.names_nodup.of_map.filter _

/-- A lane without a candidate is not drawn if the other one has some. -/
theorem drawLane_ne_nil (c : Option ℝ) (h : p.candidates l exclude ≠ []) (x : ℝ) :
    p.candidates (drawLane c exclude p x) exclude ≠ [] := by
  unfold drawLane
  split
  · next hcanary =>
      cases l with
      | stable => exact h
      | canary => exact absurd hcanary h
  · next hcanary =>
      split
      · exact hcanary
      · next hstable =>
          split
          · exact hcanary
          · exact hstable

/-- A replica is drawn if its lane is, and it among the candidates. -/
theorem drawFrom_eq_some_iff {c : Option ℝ} {a : BackendEntry} {rest : List BackendEntry}
    (hl : p.candidates l exclude = a :: rest) (he : e ∈ a :: rest) (u : ℝ × ℝ) :
    drawFrom c exclude p u = some e ↔
      drawLane c exclude p u.1 = l ∧ drawReplica u.2 a rest = e := by
  have hlane : e.lane = l := lane_of_mem_candidates (hl ▸ he)
  have hne : p.candidates l exclude ≠ [] := hl ▸ List.cons_ne_nil a rest
  unfold drawFrom
  dsimp only
  by_cases hdraw : drawLane c exclude p u.1 = l
  · rw [hdraw, hl]
    exact ⟨fun h => ⟨rfl, Option.some.inj h⟩, fun h => congrArg some h.2⟩
  · constructor
    · intro h
      cases hother : p.candidates (drawLane c exclude p u.1) exclude with
      | nil => exact absurd hother (drawLane_ne_nil c hne u.1)
      | cons b rest' =>
          rw [hother] at h
          have hmem : e ∈ p.candidates (drawLane c exclude p u.1) exclude := by
            rw [hother, ← Option.some.inj h]
            exact pickBy_mem _ _ _ b rest'
          exact absurd ((lane_of_mem_candidates hmem).symm.trans hlane) hdraw
    · rintro ⟨hl', -⟩
      exact absurd hl' hdraw

/-- Only candidates are drawn. -/
theorem mem_candidates_of_drawFrom {c : Option ℝ} {u : ℝ × ℝ}
    (h : drawFrom c exclude p u = some e) : e ∈ p.candidates e.lane exclude := by
  have hany : ∃ l, e ∈ p.candidates l exclude := by
    unfold drawFrom at h
    dsimp only at h
    split at h
    · next b rest hb =>
        refine ⟨drawLane c exclude p u.1, ?_⟩
        rw [hb, ← Option.some.inj h]
        exact pickBy_mem _ _ _ b rest
    · split at h
      · next b rest hb =>
          refine ⟨(drawLane c exclude p u.1).other, ?_⟩
          rw [hb, ← Option.some.inj h]
          exact pickBy_mem _ _ _ b rest
      · cases h
  obtain ⟨l, hl⟩ := hany
  rw [lane_of_mem_candidates hl]
  exact hl

theorem drawFrom_eq_none_iff (c : Option ℝ) (u : ℝ × ℝ) :
    drawFrom c exclude p u = none ↔ ∀ l, p.candidates l exclude = [] := by
  constructor
  · intro h l
    by_contra hne
    have hdrawn := drawLane_ne_nil c hne u.1
    unfold drawFrom at h
    dsimp only at h
    split at h
    · cases h
    · next hnil => exact hdrawn hnil
  · intro h
    unfold drawFrom
    simp only [h]

/-! ## §3  Shares -/

/-- The share of a lane at canary weight `c`. -/
noncomputable def laneShare (c : ℝ) (exclude : List String) (p : ModelPool) (l : Lane) : ℝ :=
  if p.candidates l.other exclude = [] then 1
  else
    match l with
    | .canary => c / 100
    | .stable => 1 - c / 100

theorem laneShare_nonneg {c : ℝ} (hc : c ∈ Set.Icc 0 100) : 0 ≤ laneShare c exclude p l := by
  unfold laneShare
  split
  · exact zero_le_one
  · cases l with
    | stable =>
        rw [sub_nonneg, div_le_one (by norm_num)]
        exact hc.2
    | canary => exact div_nonneg hc.1 (by norm_num)

theorem fractionOf_of_mem {c : ℝ} (hc : c ∈ Set.Icc 0 100) : fractionOf (some c) = c / 100 := by
  obtain ⟨h0, h1⟩ := hc
  have hlow : 0 ≤ c / 100 := div_nonneg h0 (by norm_num)
  have hhigh : c / 100 ≤ 1 := by
    rw [div_le_one (by norm_num)]
    exact h1
  rw [fractionOf, max_eq_right hlow, min_eq_right hhigh]

theorem unitDraw_drawLane {c : ℝ} (hc : c ∈ Set.Icc 0 100)
    (h : p.candidates l exclude ≠ []) :
    unitDraw {x | drawLane (some c) exclude p x = l} =
      ENNReal.ofReal (laneShare c exclude p l) := by
  have hlow : 0 ≤ c / 100 := div_nonneg hc.1 (by norm_num)
  have hhigh : c / 100 ≤ 1 := by
    rw [div_le_one (by norm_num)]
    exact hc.2
  unfold laneShare
  by_cases hother : p.candidates l.other exclude = []
  · -- the lane is drawn whatever the draw
    have hall : {x | drawLane (some c) exclude p x = l} = Set.univ := by
      refine Set.eq_univ_of_forall fun x => ?_
      cases l with
      | stable => exact if_pos hother
      | canary => exact (if_neg h).trans (if_pos hother)
    rw [hall, if_pos hother, measure_univ, ENNReal.ofReal_one]
  · rw [if_neg hother]
    cases l with
    | stable =>
        have hcanary : ¬ p.candidates .canary exclude = [] := hother
        have hset : {x | drawLane (some c) exclude p x = .stable} = {x | ¬ x < c / 100} := by
          ext x
          simp only [drawLane, Set.mem_ofPred_eq, fractionOf_of_mem hc]
          rw [if_neg hcanary, if_neg h]
          split <;> simp [*]
        rw [hset, unitDraw_not_Iio hlow]
    | canary =>
        have hstable : ¬ p.candidates .stable exclude = [] := hother
        have hset : {x | drawLane (some c) exclude p x = .canary} = {x | x < c / 100} := by
          ext x
          simp only [drawLane, Set.mem_ofPred_eq, fractionOf_of_mem hc]
          rw [if_neg h, if_neg hstable]
          split <;> simp [*]
        rw [hset, unitDraw_Iio hhigh]

/-- The two draws are independent. -/
theorem prob_of_candidate {c : ℝ} (hc : c ∈ Set.Icc 0 100) {a : BackendEntry}
    {rest : List BackendEntry} (hl : p.candidates e.lane exclude = a :: rest)
    (he : e ∈ a :: rest) (hw : ∀ e ∈ p.entries, 0 < e.weight) :
    (unitDraw.prod unitDraw).real {u | drawFrom (some c) exclude p u = some e} =
      e.weight / ((a :: rest).map fun e => (e.weight : ℝ)).sum * laneShare c exclude p e.lane := by
  have hne : p.candidates e.lane exclude ≠ [] := hl ▸ List.cons_ne_nil a rest
  have hpos : ∀ b ∈ a :: rest, 0 < (b.weight : ℝ) := by
    intro b hb
    have hmem : b ∈ p.candidates e.lane exclude := hl ▸ hb
    exact Rat.cast_pos.mpr (hw b (List.mem_filter.mp hmem).1)
  have hset : {u | drawFrom (some c) exclude p u = some e} =
      {x | drawLane (some c) exclude p x = e.lane} ×ˢ {y | drawReplica y a rest = e} := by
    ext u
    exact drawFrom_eq_some_iff hl he u
  have hreplica := unitDraw_pickBy (w := fun b : BackendEntry => (b.weight : ℝ)) a rest
    (hl ▸ nodup_candidates) hpos he
  have hsum : 0 ≤ ((a :: rest).map fun e => (e.weight : ℝ)).sum := by
    refine List.sum_nonneg fun x hx => ?_
    obtain ⟨b, hb, rfl⟩ := List.mem_map.mp hx
    exact (hpos b hb).le
  have hshare : 0 ≤ e.weight / ((a :: rest).map fun e => (e.weight : ℝ)).sum :=
    div_nonneg (hpos e he).le hsum
  have hlane : 0 ≤ laneShare c exclude p e.lane := laneShare_nonneg hc
  rw [hset, measureReal_def, Measure.prod_prod, unitDraw_drawLane hc hne]
  change (_ * unitDraw {x | pickBy (fun b : BackendEntry => (b.weight : ℝ)) (x * _) 0 a rest = e}).toReal = _
  rw [hreplica, ENNReal.toReal_mul, ENNReal.toReal_ofReal hlane, ENNReal.toReal_ofReal hshare,
    mul_comm]

/-- Two stable replicas and a canary. -/
def threeReplicas : ModelPool where
  model := "m"
  entries := [{ name := "a", checkedAt := some 0 },
    { name := "b", weight := 3, checkedAt := some 0 },
    { name := "c", lane := .canary, checkedAt := some 0 }]
  names_nodup := by decide

def atStart : Outside where
  now := 1
  meanwhile := id
  probe := fun _ => true
  canaryWeight := some 25
  laneDraw := 0
  replicaDraw := 0
  failedAt := 0
  firstAt := 0
  endedAt := 0

end TurboServe.Gateway
