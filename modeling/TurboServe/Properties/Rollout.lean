import TurboServe.Canary.Rollout

/-!
# Rollout safety

What every run of the canary controller keeps: promotion only through every step,
the moves of the weight, the terminal states, no influence of what was observed
before a start, and a history that replays.
-/

namespace TurboServe.Canary

open CanaryController

/-! ## §1  Promotion -/

/-- The call begins no other rollout and forgets none. -/
def SameRollout (c : CanaryController) : Op → Prop
  | .start version _ => ¬ c.CanStart version
  | .reset => False
  | _ => True

/-- In a rollout that began at `t`, steps `0 … k - 1` were passed in this order, each
by a tick of the entries; step `k` began at `now`. -/
inductive PassedSteps (config : CanaryConfig) (t : ℚ) :
    List (CanaryController × Op) → ℕ → ℚ → Prop where
  | nil : PassedSteps config t [] 0 t
  | other {entries : List (CanaryController × Op)} {k : ℕ} {now : ℚ}
      {c : CanaryController} {op : Op} (h : PassedSteps config t entries k now)
      (hs : SameRollout c op) : PassedSteps config t (entries ++ [(c, op)]) k now
  | pass {entries : List (CanaryController × Op)} {k : ℕ} {now : ℚ}
      {c : CanaryController} {moment : ℚ} {stable canary : Option LaneSummary}
      (h : PassedSteps config t entries k now) (hc : c.state = .canary)
      (hk : c.stepIndex = k)
      (hp : Passes config now moment (c.summaries moment stable canary).1
        (c.summaries moment stable canary).2.1) :
      PassedSteps config t (entries ++ [(c, .tick moment stable canary)]) (k + 1) moment

/-- Since its last start, the run passed the first `k` steps; step `k` began at `now`. -/
def SinceStart (config : CanaryConfig) (ops : List Op) (k : ℕ) (now : ℚ) : Prop :=
  ∃ pre version moment post,
    ops = pre ++ .start version moment :: post ∧
    ((CanaryController.new config).run pre).CanStart version ∧
    PassedSteps config moment
      (((CanaryController.new config).run (pre ++ [.start version moment])).trace post) k now

theorem SinceStart.append {config : CanaryConfig} {ops : List Op} {k k' : ℕ}
    {now now' : ℚ} (op : Op) (h : SinceStart config ops k now)
    (hstep : ∀ t entries, PassedSteps config t entries k now →
      PassedSteps config t
        (entries ++ [((CanaryController.new config).run ops, op)]) k' now') :
    SinceStart config (ops ++ [op]) k' now' := by
  obtain ⟨pre, version, moment, post, rfl, hcan, hp⟩ := h
  refine ⟨pre, version, moment, post ++ [op], by simp, hcan, ?_⟩
  rw [trace_append, ← run_append]
  have := hstep moment _ hp
  simpa [trace] using this

/-- Where the run stands: on the way at the step the controller is at, or promoted
with every step behind it. -/
theorem sinceStart_run (config : CanaryConfig) (ops : List Op) :
    (((CanaryController.new config).run ops).state = .canary →
      SinceStart config ops ((CanaryController.new config).run ops).stepIndex
        ((CanaryController.new config).run ops).stepStartedAt) ∧
    (((CanaryController.new config).run ops).state = .promoted →
      ∃ now, SinceStart config ops config.steps.length now) := by
  induction ops using List.reverseRecOn with
  | nil => exact ⟨fun h => (nomatch h), fun h => nomatch h⟩
  | append_singleton ops op ih =>
      have hsound := (Sound.new config).run ops
      have hstays : ∀ {k now}, SameRollout ((CanaryController.new config).run ops) op →
          SinceStart config ops k now → SinceStart config (ops ++ [op]) k now :=
        fun hs h => h.append op fun _ _ hp => hp.other hs
      have happend := run_append (CanaryController.new config) ops [op]
      rw [run_cons] at happend
      rw [happend]
      have ho := ((CanaryController.new config).run ops).call_spec op
      generalize hc : (CanaryController.new config).run ops = c at *
      generalize c.call op = r at ho
      change (r.2.state = _ → SinceStart _ _ r.2.stepIndex r.2.stepStartedAt) ∧
        (r.2.state = _ → _)
      cases ho with
      | started version moment hcan =>
          refine ⟨fun _ => ⟨ops, version, moment, [], by simp, hc ▸ hcan, .nil⟩,
            fun h => nomatch h⟩
      | startRefused version moment hcan =>
          exact ⟨fun h => hstays hcan (ih.1 h), fun h => (ih.2 h).imp fun _ => hstays hcan⟩
      | aborted reason moment _ d c' hk hs =>
          refine ⟨fun h => ?_, fun h => ?_⟩ <;> rw [hs] at h <;> cases h
      | abortRefused =>
          exact ⟨fun h => hstays trivial (ih.1 h),
            fun h => (ih.2 h).imp fun _ => hstays trivial⟩
      | reset => exact ⟨fun h => (nomatch h), fun h => nomatch h⟩
      | observed lane ok ttftMs e2eMs moment c' hs hi hb =>
          rw [hs, hi, hb]
          exact ⟨fun h => hstays trivial (ih.1 h),
            fun h => (ih.2 h).imp fun _ => hstays trivial⟩
      | idleTick =>
          exact ⟨fun h => hstays trivial (ih.1 h),
            fun h => (ih.2 h).imp fun _ => hstays trivial⟩
      | judged moment stable canary hst d c' hv =>
          have hlt := hsound.stepIndex_lt
          have hsince := ih.1 hst
          generalize d.kind = kind at hv
          generalize c'.state = st at hv ⊢
          generalize c'.stepIndex = ix at hv ⊢
          generalize c'.stepStartedAt = bg at hv ⊢
          have hpass : ∀ (hp : Passes c.config c.stepStartedAt moment
              (c.summaries moment stable canary).1 (c.summaries moment stable canary).2.1),
              SinceStart config (ops ++ [.tick moment stable canary]) (c.stepIndex + 1)
                moment := by
            intro hp
            rw [hsound.config_eq] at hp
            refine hsince.append _ fun t entries h => ?_
            rw [hc]
            exact h.pass hst rfl hp
          cases hv with
          | hold => exact ⟨fun _ => hstays trivial hsince, fun h => nomatch h⟩
          | rollback => exact ⟨fun h => (nomatch h), fun h => nomatch h⟩
          | promote hp hk =>
              refine ⟨fun h => (nomatch h), fun _ => ⟨moment, ?_⟩⟩
              rw [hsound.config_eq] at hk
              have hlen : config.steps.length = c.stepIndex + 1 := by omega
              exact hlen ▸ hpass hp
          | advance hp hk => exact ⟨fun _ => hpass hp, fun h => nomatch h⟩

/-! ## §2  The weight -/

/-- How one call moves the weight: a start sets the first step, an advance of the
running rollout goes one step up, every other call keeps the weight or sets 0. -/
structure WeightMoves (config : CanaryConfig) (c : CanaryController) (op : Op) : Prop where
  started : ∀ version moment, op = .start version moment → c.CanStart version →
    (c.call op).2.canaryWeight = config.steps.head config.steps_ne_nil
  advanced : ∀ d, op.isStart = false → (c.call op).1 = some d → d.kind = .advance →
    ∃ k, config.steps[k]? = some c.canaryWeight ∧
      config.steps[k + 1]? = some (c.call op).2.canaryWeight
  otherwise : (∀ version moment, op = .start version moment → ¬ c.CanStart version) →
    (∀ d, (c.call op).1 = some d → d.kind ≠ .advance) →
    (c.call op).2.canaryWeight = c.canaryWeight ∨ (c.call op).2.canaryWeight = 0

theorem getElem?_of_weightAt {config : CanaryConfig} {k : ℕ} (hk : k < config.steps.length) :
    config.steps[k]? = some (weightAt config .canary k) := by
  rw [weightAt, List.getD_eq_getElem?_getD, List.getElem?_eq_getElem hk]
  rfl

theorem weightMoves_judged {config : CanaryConfig} {c c' : CanaryController} {moment : ℚ}
    {stable canary : LaneSummary} {kind : DecisionKind} (h : Sound config c)
    (hst : c.state = .canary) (hw : SameSetup c c')
    (hv : Verdict c moment stable canary kind c'.state c'.stepIndex c'.stepStartedAt) :
    (kind = .advance → ∃ k, config.steps[k]? = some c.canaryWeight ∧
      config.steps[k + 1]? = some c'.canaryWeight) ∧
    (kind ≠ .advance → c'.canaryWeight = c.canaryWeight ∨ c'.canaryWeight = 0) := by
  have hlt := h.stepIndex_lt
  have hcfg := h.config_eq
  rw [canaryWeight_eq c, canaryWeight_eq c', hw.config, hcfg, hst]
  generalize c'.state = st at hv ⊢
  generalize c'.stepIndex = ix at hv ⊢
  generalize c'.stepStartedAt = bg at hv
  cases hv with
  | hold => exact ⟨fun hk => (nomatch hk), fun _ => Or.inl rfl⟩
  | rollback => exact ⟨fun hk => (nomatch hk), fun _ => Or.inr rfl⟩
  | promote hp hk =>
      rw [hcfg] at hk
      exact ⟨fun hk => (nomatch hk), fun _ => Or.inl (h.weight_last hk).symm⟩
  | advance hp hk =>
      rw [hcfg] at hk
      refine ⟨fun _ => ⟨c.stepIndex, getElem?_of_weightAt hlt, getElem?_of_weightAt ?_⟩,
        fun hn => absurd rfl hn⟩
      omega

theorem weightMoves (config : CanaryConfig) (c : CanaryController) (h : Sound config c)
    (op : Op) : WeightMoves config c op := by
  have ho := c.call_spec op
  have hcfg := h.config_eq
  generalize hr : c.call op = r at ho
  cases ho with
  | started version moment hcan =>
      refine ⟨fun _ _ _ _ => ?_, fun d hs => (by cases hs),
        fun hn => absurd hcan (hn _ _ rfl)⟩
      rw [hr, canaryWeight_eq]
      change weightAt c.config .canary 0 = _
      rw [hcfg, weightAt, List.getD_eq_getElem?_getD, List.head_eq_getElem,
        List.getElem?_eq_getElem (length_pos config)]
      rfl
  | startRefused version moment hcan =>
      refine ⟨fun v t hop hc => ?_, fun d hs => (by cases hs), fun _ _ => Or.inl (by rw [hr])⟩
      cases hop
      exact absurd hc hcan
  | aborted reason moment _ d c' hk hs =>
      refine ⟨fun v t hop => (by cases hop), fun e _ he hke => ?_, fun _ _ => Or.inr ?_⟩
      · rw [hr] at he
        cases he
        rw [hk] at hke
        cases hke
      · rw [hr, canaryWeight_eq]
        simp only [hs, weightAt]
  | abortRefused =>
      refine ⟨fun v t hop => (by cases hop), fun e _ he => ?_, fun _ _ => Or.inl (by rw [hr])⟩
      rw [hr] at he
      cases he
  | reset =>
      refine ⟨fun v t hop => (by cases hop), fun e _ he => ?_,
        fun _ _ => Or.inr (by rw [hr]; rfl)⟩
      rw [hr] at he
      cases he
  | observed lane ok ttftMs e2eMs moment c' hs hi hb hh hw =>
      refine ⟨fun v t hop => (by cases hop), fun e _ he => ?_, fun _ _ => Or.inl ?_⟩
      · rw [hr] at he
        cases he
      · rw [hr, canaryWeight_eq, canaryWeight_eq]
        simp only [hs, hi, hw.config]
  | idleTick moment stable canary hst d hk =>
      refine ⟨fun v t hop => (by cases hop), fun e _ he hke => ?_,
        fun _ _ => Or.inl (by rw [hr])⟩
      rw [hr] at he
      cases he
      rw [hk] at hke
      cases hke
  | judged moment stable canary hst d c' hv _ hw =>
      obtain ⟨hadv, hoth⟩ := weightMoves_judged h hst hw hv
      refine ⟨fun v t hop => (by cases hop), fun e _ he hke => ?_, fun _ hne => ?_⟩
      · rw [hr] at he ⊢
        cases he
        exact hadv hke
      · rw [hr] at hne ⊢
        exact hoth (hne d rfl)

/-! ## §3  Terminal states and earlier samples -/

theorem left_by (c : CanaryController) (op : Op)
    (hterm : c.state = .promoted ∨ c.state = .rolledBack)
    (hleft : (c.call op).2.state ≠ c.state) : op.isStart = true ∨ op = .reset := by
  have hnot : c.state ≠ .canary := by
    rcases hterm with h | h <;> rw [h] <;> decide
  have ho := c.call_spec op
  generalize c.call op = r at ho hleft
  cases ho with
  | started => exact Or.inl rfl
  | startRefused => exact Or.inl rfl
  | aborted _ _ h => exact absurd h hnot
  | abortRefused => exact absurd rfl hleft
  | reset => exact Or.inr rfl
  | observed _ _ _ _ _ _ hs => exact absurd hs hleft
  | idleTick => exact absurd rfl hleft
  | judged _ _ _ h => exact absurd h hnot

/-- A start leaves nothing of what came before it. -/
theorem begun_fresh {config : CanaryConfig} {c : CanaryController} (h : Sound config c)
    (version : String) (moment : ℚ) :
    c.begun version moment = (CanaryController.new config).begun version moment := by
  simp only [begun, clearWindows, h.config_eq, h.stable_clear, h.canary_clear]
  rfl

theorem call_of_canStart {c : CanaryController} {version : String} (moment : ℚ)
    (h : c.CanStart version) :
    c.call (.start version moment) =
      (some (c.begun version moment).1, (c.begun version moment).2) := by
  simp only [call, start, h.1, h.2, if_false]
  rfl

theorem fresh_after_start {config : CanaryConfig} {c : CanaryController}
    (h : Sound config c) {version : String} (moment : ℚ) (hcan : c.CanStart version) :
    c.call (.start version moment) =
      (CanaryController.new config).call (.start version moment) := by
  have hnew : (CanaryController.new config).CanStart version :=
    ⟨fun hs => (nomatch hs), hcan.2⟩
  rw [call_of_canStart moment hcan, call_of_canStart moment hnew, begun_fresh h]

/-! ## §4  The rollout is safe -/

/-- For every policy and every run of calls from a new controller. -/
theorem rollout_safe (config : CanaryConfig) (ops : List Op) :
    let c := (CanaryController.new config).run ops
    -- promoted only through every step since the last start
    (c.state = .promoted → ∃ now, SinceStart config ops config.steps.length now) ∧
    -- no weight outside a rollout, and one step at a time inside
    (c.state ≠ .canary → c.state ≠ .promoted → c.canaryWeight = 0) ∧
    (∀ op, WeightMoves config c op) ∧
    -- terminal states end by start or reset
    (∀ op, c.state = .promoted ∨ c.state = .rolledBack → (c.call op).2.state ≠ c.state →
      op.isStart = true ∨ op = .reset) ∧
    -- after a start, everything is as if nothing had come before it
    (∀ version moment post, c.CanStart version →
      c.decisions (.start version moment :: post) =
        (CanaryController.new config).decisions (.start version moment :: post) ∧
      c.run (.start version moment :: post) =
        (CanaryController.new config).run (.start version moment :: post)) ∧
    -- the history replays, entry by entry and as a whole
    Replays config c.history ∧ replay c.history = (c.state, c.stepIndex) ∧
    c.canaryWeight = weightAt config c.state c.stepIndex := by
  intro c
  have hsound : Sound config c := (Sound.new config).run ops
  refine ⟨(sinceStart_run config ops).2, ?_, weightMoves config c hsound, left_by c, ?_,
    hsound.replays, hsound.replay_eq, ?_⟩
  · intro hcan hprom
    rw [canaryWeight_eq]
    cases hs : c.state with
    | idle => rfl
    | canary => exact absurd hs hcan
    | promoted => exact absurd hs hprom
    | rolledBack => rfl
  · intro version moment post hcan
    have hcall := fresh_after_start hsound moment hcan
    simp only [decisions, run_cons, hcall, and_self]
  · rw [canaryWeight_eq, hsound.config_eq]

/-- A short rollout: a tick too early holds, the next two promote. -/
example :
    let config : CanaryConfig := { steps := [10, 100], minRequests := 1 }
    let seen : LaneSummary := ⟨.canary, 1, 0, none, none, none, by decide⟩
    let tick := fun t => Op.tick t (some seen) (some seen)
    (((CanaryController.new config).decisions
      [.start "v2" 0, tick 10, tick 300, tick 600]).map fun d =>
        d.map fun d => (d.kind, d.weight)) =
      [some (.advance, 10), some (.hold, 10), some (.advance, 100),
        some (.promote, 100)] := by
  decide +kernel

end TurboServe.Canary
