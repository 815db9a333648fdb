import TurboServe.Canary.Driving

/-!
# The cluster after a rollout

When the rollout loop returns or raises, the cluster agrees with the controller exactly
when no command of the driver raised but the last, the scaling of the canary.
-/

namespace TurboServe.Canary

open CanaryController World

/-! ## §1  Agreement -/

/-- The cluster is where the controller's final state calls for; `image` is the version
that was rolled out. -/
structure Agrees (image : String) (c : CanaryController) (k : Cluster) : Prop where
  ended : c.state ≠ .canary
  traffic : k.canaryTraffic = some 0
  lanes : ∃ a b, k.canaryLane = some a ∧ k.stableLane = some b ∧ a + b = 100
  promoted : c.state = .promoted → k.stableImage = image

/-- The verdict on a run that ended: it agrees and is excused, or neither. -/
def Fair (image : String) (base : List (Command × Bool)) (p : Progress) : Prop :=
  Agrees image p.controller p.world.cluster ∧ Excused base p.world ∨
    ¬ Agrees image p.controller p.world.cluster ∧ Blamed base p.world

theorem Drained.agrees {image : String} {c : CanaryController} {k : Cluster}
    (h : Drained k) (hc : c.state ≠ .canary)
    (hp : c.state = .promoted → k.stableImage = image) : Agrees image c k :=
  ⟨hc, h.traffic, ⟨0, 100, h.canaryLane, h.stableLane, rfl⟩, hp⟩

theorem HalfShifted.not_agrees {image : String} {c : CanaryController} {k : Cluster}
    {weight : ℕ} (h : HalfShifted weight k) (hw : 1 ≤ weight ∧ weight ≤ 100) :
    ¬ Agrees image c k := by
  rintro ⟨-, htraffic, ⟨a, b, ha, hb, hsum⟩, -⟩
  obtain rfl := Option.some_inj.mp (hb.symm.trans h.stableLane)
  rcases h.canaryLane with ⟨-, hlane⟩ | hlane
  · have := Option.some_inj.mp (htraffic.symm.trans hlane)
    omega
  · have := Option.some_inj.mp (ha.symm.trans hlane)
    omega

/-! ## §2  Between two polls -/

/-- A run between two polls: the cluster has the split of the controller's step, and no
command raised so far. -/
structure Shifting (image : String) (base : List (Command × Bool)) (p : Progress) :
    Prop where
  state : p.controller.state = .canary
  index : p.controller.stepIndex < p.controller.config.steps.length
  split : Split p.controller.canaryWeight p.world.cluster
  image : p.world.cluster.canaryImage = image
  clean : Clean base p.world

/-- The weight of a step of the configuration. -/
theorem weight_mem {c : CanaryController} (hc : c.state = .canary)
    (hi : c.stepIndex < c.config.steps.length) :
    1 ≤ c.canaryWeight ∧ c.canaryWeight ≤ 100 := by
  unfold canaryWeight
  rw [hc]
  simp only [List.getD_eq_getElem _ _ hi]
  exact c.config.steps_mem _ (List.getElem_mem hi)

theorem canaryWeight_congr {c c' : CanaryController} (hs : c'.state = c.state)
    (hi : c'.stepIndex = c.stepIndex) (hc : c'.config = c.config) :
    c'.canaryWeight = c.canaryWeight := by
  rw [canaryWeight_eq, canaryWeight_eq, hs, hi, hc]

/-- Requests that are observed do not move the rollout. -/
theorem foldl_observe_keeps (os : List Observed) (c : CanaryController) :
    let c' := os.foldl (fun c o => c.observe o.lane o.ok o.ttftMs o.e2eMs o.moment) c
    c'.state = c.state ∧ c'.stepIndex = c.stepIndex ∧ c'.config = c.config := by
  induction os generalizing c with
  | nil => exact ⟨rfl, rfl, rfl⟩
  | cons o os ih =>
      obtain ⟨h₁, h₂, h₃⟩ := ih (c.observe o.lane o.ok o.ttftMs o.e2eMs o.moment)
      cases hl : o.lane with
      | stable =>
          rw [hl] at h₁ h₂ h₃
          simp only [List.foldl_cons, hl]
          exact ⟨h₁, h₂, h₃⟩
      | canary =>
          rw [hl] at h₁ h₂ h₃
          simp only [List.foldl_cons, hl]
          exact ⟨h₁, h₂, h₃⟩

variable {image : String} {base : List (Command × Bool)} {p : Progress}

theorem Shifting.observe (h : Shifting image base p) (os : List Observed) :
    Shifting image base (p.observe os) := by
  obtain ⟨h₁, h₂, h₃⟩ := foldl_observe_keeps os p.controller
  refine ⟨h₁.trans h.state, ?_, ?_, h.image, h.clean⟩
  · change (os.foldl _ p.controller).stepIndex < (os.foldl _ p.controller).config.steps.length
    rw [h₂, h₃]
    exact h.index
  · change Split (canaryWeight (os.foldl _ p.controller)) p.world.cluster
    rw [canaryWeight_congr h₁ h₂ h₃]
    exact h.split

variable (fails : ℕ → Command → Bool)

/-- Giving up ends fairly. -/
theorem giveUp_fair (h : Shifting image base p) (reason : String) (now : ℚ)
    (outcome : RolloutOutcome) :
    Fair image base (CanaryRunner.giveUp fails p reason now outcome).2 := by
  unfold CanaryRunner.giveUp CanaryController.abort
  rw [if_neg (not_not.mpr h.state)]
  simp only [CanaryController.record]
  rcases abort_cases fails h.clean h.split with ⟨hexc, hdrained, -⟩ | ⟨hraised, hblamed, hhalf⟩
  · refine Or.inl ⟨?_, ?_⟩
    · split <;> exact hdrained.agrees nofun nofun
    · split <;> exact hexc
  · rw [hraised]
    exact Or.inr ⟨hhalf.not_agrees (weight_mem h.state h.index), hblamed⟩

/-- An iteration ends the run fairly, leaves it between two polls, or leaves it to the
loop's condition to end it fairly. -/
def FairStep (image : String) (base : List (Command × Bool)) :
    Except (RunStatus × Progress) (ℕ × Progress) → Prop
  | .error ended => Fair image base ended.2
  | .ok next => Shifting image base next.2 ∨
      next.2.controller.state ≠ .canary ∧ Fair image base next.2

theorem judgeOnce_fair (h : Shifting image base p) (failures : ℕ) (now : ℚ)
    (stable canary : Option LaneSummary) :
    FairStep image base (CanaryRunner.judgeOnce fails failures p now stable canary) := by
  have hout := p.controller.call_tick now stable canary
  unfold CanaryRunner.judgeOnce
  simp only [call] at hout
  generalize p.controller.tick now stable canary = t at hout ⊢
  obtain ⟨d, c'⟩ := t
  have hw := weight_mem h.state h.index
  cases hout with
  | idleTick _ _ _ hidle => exact absurd h.state hidle
  | judged _ _ _ _ _ _ hv _ hsetup =>
      simp only
      generalize d.kind = kind at hv ⊢
      generalize hstate : c'.state = state at hv
      generalize hindex : c'.stepIndex = index at hv
      generalize hbegan : c'.stepStartedAt = began at hv
      have hconfig := hsetup.config
      cases hv with
      | hold =>
          simp only [CanaryRunner.apply, Bool.false_eq_true, if_false]
          refine Or.inl ⟨hstate, ?_, ?_, h.image, h.clean⟩
          · change c'.stepIndex < c'.config.steps.length
            rw [hindex, hconfig]
            exact h.index
          · rw [canaryWeight_congr (hstate.trans h.state.symm) hindex hconfig]
            exact h.split
      | rollback =>
          simp only [CanaryRunner.apply]
          rcases abort_cases fails h.clean h.split with
            ⟨hexc, hdrained, -⟩ | ⟨hraised, hblamed, hhalf⟩
          · have hnot : c'.state ≠ .canary := by
              rw [hstate]
              decide
            have hagrees : Agrees image c' (p.world.abort fails).2.cluster :=
              hdrained.agrees hnot fun hp => by
                rw [hstate] at hp
                cases hp
            cases hr : (p.world.abort fails).1 with
            | true => exact Or.inl ⟨hagrees, hexc⟩
            | false => exact Or.inr ⟨hnot, Or.inl ⟨hagrees, hexc⟩⟩
          · simp only [hraised, if_true]
            exact Or.inr ⟨hhalf.not_agrees hw, hblamed⟩
      | promote =>
          simp only [CanaryRunner.apply]
          rcases promote_cases fails h.clean h.split with
            ⟨hexc, hdrained, himage⟩ | ⟨hraised, hblamed, hhalf⟩
          · have hnot : c'.state ≠ .canary := by
              rw [hstate]
              decide
            have hagrees : Agrees image c' (p.world.promote fails).2.cluster :=
              hdrained.agrees hnot fun _ => himage.trans h.image
            cases hr : (p.world.promote fails).1 with
            | true => exact Or.inl ⟨hagrees, hexc⟩
            | false => exact Or.inr ⟨hnot, Or.inl ⟨hagrees, hexc⟩⟩
          · simp only [hraised, if_true]
            exact Or.inr ⟨hhalf.not_agrees hw, hblamed⟩
      | advance _ hk =>
          simp only [CanaryRunner.apply]
          have hi : c'.stepIndex < c'.config.steps.length := by
            rw [hindex, hconfig]
            omega
          rcases setWeight_cases fails h.clean (weight_mem hstate hi).2 with
            ⟨w', heq, hclean, hk'⟩ | ⟨w', heq, hblamed, -⟩
          · simp only [heq, Progress.after, Bool.false_eq_true, if_false]
            refine Or.inl ⟨hstate, hi, ?_, ?_, hclean⟩
            · rw [hk']
              exact ⟨rfl, rfl, rfl⟩
            · rw [hk']
              exact h.image
          · simp only [heq, Progress.after, if_true]
            exact Or.inr ⟨fun ha => ha.ended hstate, hblamed⟩

/-! ## §3  Whole runs -/

theorem iterate_fair (r : CanaryRunner) (h : Shifting image base p) (started : ℚ)
    (poll : Poll) (failures : ℕ) :
    FairStep image base (r.iterate fails started poll failures p) := by
  have h' := h.observe poll.observed
  unfold CanaryRunner.iterate
  cases r.deadlineS.filter fun limit => decide (limit ≤ poll.now - started) with
  | some limit => exact giveUp_fair fails h' _ _ _
  | none =>
      cases poll.fetched with
      | noSource => exact judgeOnce_fair fails h' _ _ _ _
      | summaries stable canary => exact judgeOnce_fair fails h' _ _ _ _
      | unavailable message =>
          simp only
          split
          · exact giveUp_fair fails h' _ _ _
          · exact Or.inl h'

/-- Induction on the polls: a run that ends, ends fairly. -/
theorem loop_fair (r : CanaryRunner) (started : ℚ) (polls : List Poll) (failures : ℕ)
    (h : Shifting image base p ∨ p.controller.state ≠ .canary ∧ Fair image base p)
    (hended : (r.loop fails started polls failures p).1 ≠ .polling) :
    Fair image base (r.loop fails started polls failures p).2 := by
  induction polls generalizing failures p with
  | nil =>
      unfold CanaryRunner.loop at hended ⊢
      rcases h with h | ⟨hnot, hfair⟩
      · rw [if_pos h.state] at hended
        exact absurd rfl hended
      · rw [if_neg hnot]
        exact hfair
  | cons poll polls ih =>
      unfold CanaryRunner.loop at hended ⊢
      rcases h with h | ⟨hnot, hfair⟩
      · rw [if_pos h.state] at hended ⊢
        have hit := iterate_fair fails r h started poll failures
        cases hr : r.iterate fails started poll failures p with
        | error ended =>
            rw [hr] at hit
            exact hit
        | ok next =>
            rw [hr] at hit hended
            exact ih next.1 hit hended
      · rw [if_neg hnot]
        exact hfair

/-- Where `run` ends. -/
theorem run_fair (r : CanaryRunner) {version : String} (started : ℚ) (polls : List Poll)
    {c : CanaryController} (w : World) (hstart : c.CanStart version)
    (hended : (r.run fails version started polls c w).1 ≠ .polling) :
    Fair w.cluster.canaryImage w.commands (r.run fails version started polls c w).2 := by
  unfold CanaryRunner.run start at hended ⊢
  rw [if_neg hstart.1, if_neg hstart.2] at hended ⊢
  simp only [CanaryController.record] at hended ⊢
  generalize hc : CanaryController.clearWindows _ = c' at hended ⊢
  have hstate : c'.state = .canary := by rw [← hc]; rfl
  have hindex : c'.stepIndex = 0 := by rw [← hc]; rfl
  have hpos : c'.stepIndex < c'.config.steps.length := by
    rw [hindex]
    exact length_pos c'.config
  have hw := weight_mem hstate hpos
  have hsame : ∀ ds, canaryWeight { c' with history := ds } = c'.canaryWeight :=
    fun ds => canaryWeight_congr rfl rfl rfl
  simp only [hsame] at hended ⊢
  rcases setWeight_cases fails (Clean.refl w) hw.2 with
    ⟨w', heq, hclean, hk⟩ | ⟨w', heq, hblamed, -⟩
  · simp only [heq, Bool.false_eq_true, if_false] at hended ⊢
    refine loop_fair fails r started polls 0 (Or.inl ⟨hstate, hpos, ?_, ?_, hclean⟩) hended
    · rw [hk]
      exact ⟨rfl, rfl, rfl⟩
    · rw [hk]
  · simp only [heq, if_true]
    exact Or.inr ⟨fun ha => ha.ended hstate, hblamed⟩

/-- A rollout that may not start changes nothing. When one that may start returns or
raises, the cluster agrees with the controller if and only if no command of the driver
raised but the scaling of the canary. -/
theorem cluster_agrees (r : CanaryRunner) (version : String) (started : ℚ)
    (polls : List Poll) (c : CanaryController) (w : World)
    (hended : (r.run fails version started polls c w).1 ≠ .polling) :
    (¬ c.CanStart version →
      (r.run fails version started polls c w).1 = .raised ∧
      (r.run fails version started polls c w).2.controller = c ∧
      (r.run fails version started polls c w).2.world = w) ∧
    (c.CanStart version → ∃ issued,
      (r.run fails version started polls c w).2.world.commands = w.commands ++ issued ∧
      (Agrees w.cluster.canaryImage (r.run fails version started polls c w).2.controller
          (r.run fails version started polls c w).2.world.cluster ↔
        ∀ e ∈ issued, e.2 = true → ∃ replicas, e.1 = .scaleCanary replicas)) := by
  constructor
  · intro hno
    have hraise : ∃ fault, c.start version started = .error fault := by
      unfold start
      split_ifs with hs hv
      · exact ⟨_, rfl⟩
      · exact ⟨_, rfl⟩
      · exact absurd ⟨hs, hv⟩ hno
    obtain ⟨fault, hraise⟩ := hraise
    unfold CanaryRunner.run
    rw [hraise]
    exact ⟨rfl, rfl, rfl⟩
  · intro hstart
    rcases run_fair fails r started polls w hstart hended with ⟨hagrees, hexc⟩ | ⟨hnot, hbl⟩
    · obtain ⟨issued, heq, hall⟩ := hexc
      exact ⟨issued, heq, iff_of_true hagrees hall⟩
    · have hno := hbl.not_excused
      obtain ⟨issued, heq, -⟩ := hbl
      exact ⟨issued, heq, iff_of_false hnot fun hall => hno ⟨issued, heq, hall⟩⟩

/-! ## §4  A command that raises -/

/-- A rollout of one step, judged on one request. -/
def oneStep : CanaryConfig where
  steps := [100]
  stepHoldS := 1
  windowS := 10
  minRequests := 1

def oneStepRunner : CanaryRunner where
  deadlineS := none
  formatG := fun _ => ""
  maxMetricFailures := 3
  one_le_maxMetricFailures := by decide

def settled : World := ⟨⟨some 0, some 0, some 100, "old", "new", 1⟩, []⟩

def healthy : LaneSummary := ⟨.canary, 1, 0, none, none, none, by decide⟩

/-- Two polls: a tick during the hold time, one after it. -/
def twoPolls : List Poll :=
  [⟨[], 0, .summaries (some healthy) (some healthy)⟩,
    ⟨[], 2, .summaries (some healthy) (some healthy)⟩]

theorem cluster_agrees_promoted :
    Agrees "new" (oneStepRunner.run (fun _ _ => false) "v" 0 twoPolls
      (CanaryController.new oneStep) settled).2.controller
      (oneStepRunner.run (fun _ _ => false) "v" 0 twoPolls
        (CanaryController.new oneStep) settled).2.world.cluster := by
  obtain ⟨issued, heq, hiff⟩ := (cluster_agrees (fun _ _ => false) oneStepRunner "v" 0
    twoPolls (CanaryController.new oneStep) settled (by decide +kernel)).2
      ⟨by decide, by decide⟩
  refine hiff.mpr fun e he hraised => ?_
  have hissued : ∀ e ∈ (oneStepRunner.run (fun _ _ => false) "v" 0 twoPolls
      (CanaryController.new oneStep) settled).2.world.commands, e.2 = false := by
    decide +kernel
  rw [heq] at hissued
  rw [hissued e (List.mem_append_right _ he)] at hraised
  cases hraised

/-- The first patch of the stable Service raises: the run raises with the rollout still
on, and the lanes sum to 200. -/
theorem cluster_half_shifted :
    (oneStepRunner.run (fun n _ => decide (n = 1)) "v" 0 twoPolls
      (CanaryController.new oneStep) settled).1 = .raised ∧
    (oneStepRunner.run (fun n _ => decide (n = 1)) "v" 0 twoPolls
      (CanaryController.new oneStep) settled).2.world.cluster =
        ⟨some 100, some 100, some 100, "old", "new", 1⟩ ∧
    ¬ Agrees "new" (oneStepRunner.run (fun n _ => decide (n = 1)) "v" 0 twoPolls
      (CanaryController.new oneStep) settled).2.controller
      (oneStepRunner.run (fun n _ => decide (n = 1)) "v" 0 twoPolls
        (CanaryController.new oneStep) settled).2.world.cluster := by
  refine ⟨by decide +kernel, by decide +kernel, fun h => h.ended (by decide +kernel)⟩

end TurboServe.Canary
