import TurboServe.Canary.K8s
import TurboServe.Canary.Rollout

/-!
# What the driver's calls do

Each call of the driver either takes effect or names the command that raised, with the
annotations it leaves behind.
-/

namespace TurboServe.Canary

/-! ## §1  Which commands raised -/

/-- The commands since `base`, none of which raised. -/
def Clean (base : List (Command × Bool)) (w : World) : Prop :=
  ∃ issued, w.commands = base ++ issued ∧ ∀ e ∈ issued, e.2 = false

/-- Only a scale command raised since `base`. -/
def Excused (base : List (Command × Bool)) (w : World) : Prop :=
  ∃ issued, w.commands = base ++ issued ∧
    ∀ e ∈ issued, e.2 = true → ∃ replicas, e.1 = .scaleCanary replicas

/-- Another command raised. -/
def Blamed (base : List (Command × Bool)) (w : World) : Prop :=
  ∃ issued, w.commands = base ++ issued ∧
    ∃ e ∈ issued, e.2 = true ∧ ∀ replicas, e.1 ≠ .scaleCanary replicas

variable {base : List (Command × Bool)} {w : World}

theorem Clean.refl (w : World) : Clean w.commands w :=
  ⟨[], (List.append_nil _).symm, nofun⟩

theorem Clean.excused (h : Clean base w) : Excused base w := by
  obtain ⟨issued, heq, hall⟩ := h
  refine ⟨issued, heq, fun e he hraised => ?_⟩
  rw [hall e he] at hraised
  cases hraised

theorem Blamed.not_excused (h : Blamed base w) : ¬ Excused base w := by
  rintro ⟨issued, heq, hall⟩
  obtain ⟨issued', heq', e, he, hraised, hscale⟩ := h
  obtain rfl := List.append_cancel_left (heq.symm.trans heq')
  obtain ⟨replicas, hr⟩ := hall e he hraised
  exact hscale replicas hr

theorem Clean.snoc (h : Clean base w) {cmd : Command} {k : Cluster} :
    Clean base ⟨k, w.commands ++ [(cmd, false)]⟩ := by
  obtain ⟨issued, heq, hall⟩ := h
  refine ⟨issued ++ [(cmd, false)], by simp only [heq, List.append_assoc], fun e he => ?_⟩
  rcases List.mem_append.mp he with he | he
  · exact hall e he
  · rw [List.mem_singleton.mp he]

theorem Clean.blame (h : Clean base w) {cmd : Command} {k : Cluster}
    (hcmd : ∀ replicas, cmd ≠ .scaleCanary replicas) :
    Blamed base ⟨k, w.commands ++ [(cmd, true)]⟩ := by
  obtain ⟨issued, heq, -⟩ := h
  exact ⟨issued ++ [(cmd, true)], by simp only [heq, List.append_assoc], (cmd, true),
    List.mem_append_right _ (List.mem_singleton_self _), rfl, hcmd⟩

theorem Clean.excuse (h : Clean base w) {replicas : ℕ} {k : Cluster} :
    Excused base ⟨k, w.commands ++ [(.scaleCanary replicas, true)]⟩ := by
  obtain ⟨issued, heq, hall⟩ := h
  refine ⟨issued ++ [(.scaleCanary replicas, true)], by simp only [heq, List.append_assoc],
    fun e he hraised => ?_⟩
  rcases List.mem_append.mp he with he | he
  · rw [hall e he] at hraised
    cases hraised
  · exact ⟨replicas, congrArg Prod.fst (List.mem_singleton.mp he)⟩

/-! ## §2  The annotations -/

/-- The annotations of a drained canary. -/
structure Drained (k : Cluster) : Prop where
  traffic : k.canaryTraffic = some 0
  canaryLane : k.canaryLane = some 0
  stableLane : k.stableLane = some 100

/-- Neither Service drained, or the canary's alone, from an even split of `weight`. -/
structure HalfShifted (weight : ℕ) (k : Cluster) : Prop where
  canaryLane : k.canaryLane = some weight ∧ k.canaryTraffic = some weight ∨
    k.canaryLane = some 0
  stableLane : k.stableLane = some (100 - weight)

/-- The canary takes `weight`, stable the rest. -/
structure Split (weight : ℕ) (k : Cluster) : Prop where
  traffic : k.canaryTraffic = some weight
  canaryLane : k.canaryLane = some weight
  stableLane : k.stableLane = some (100 - weight)

/-! ## §3  The driver's calls -/

namespace World

variable (fails : ℕ → Command → Bool)

/-- A command takes effect or raises. -/
theorem exec_cases (w : World) (cmd : Command) :
    w.exec fails cmd = (true, ⟨w.cluster, w.commands ++ [(cmd, true)]⟩) ∨
      w.exec fails cmd =
        (false, ⟨w.cluster.apply cmd, w.commands ++ [(cmd, false)]⟩) := by
  unfold exec
  cases fails w.commands.length cmd with
  | true => exact Or.inl rfl
  | false => exact Or.inr rfl

/-- Both Services patched, or none, or the canary's alone. -/
theorem setWeight_cases (h : Clean base w) {percent : ℕ} (hp : percent ≤ 100) :
    (∃ w', w.setWeight fails percent = (false, w') ∧ Clean base w' ∧
      w'.cluster = { w.cluster with
        canaryTraffic := some percent, canaryLane := some percent
        stableLane := some (100 - percent) }) ∨
    ∃ w', w.setWeight fails percent = (true, w') ∧ Blamed base w' ∧
      (w'.cluster = w.cluster ∨
        w'.cluster = { w.cluster with
          canaryTraffic := some percent, canaryLane := some percent }) := by
  unfold setWeight
  rw [if_neg (Nat.not_lt.mpr hp)]
  rcases exec_cases fails w (.patchCanaryService percent) with h₁ | h₁
  · rw [h₁]
    exact Or.inr ⟨_, rfl, h.blame nofun, Or.inl rfl⟩
  · rw [h₁]
    have hclean : Clean base
        ⟨w.cluster.apply (.patchCanaryService percent),
          w.commands ++ [(.patchCanaryService percent, false)]⟩ := h.snoc
    rcases exec_cases fails
      ⟨w.cluster.apply (.patchCanaryService percent),
        w.commands ++ [(.patchCanaryService percent, false)]⟩
      (.patchStableService (100 - percent)) with h₂ | h₂
    · refine Or.inr ⟨_, h₂, hclean.blame nofun, Or.inr rfl⟩
    · exact Or.inl ⟨_, h₂, hclean.snoc, rfl⟩

/-- Taking the canary out of a split. -/
theorem abort_cases (h : Clean base w) {weight : ℕ} (hsplit : Split weight w.cluster) :
    (Excused base (w.abort fails).2 ∧ Drained (w.abort fails).2.cluster ∧
      (w.abort fails).2.cluster.stableImage = w.cluster.stableImage) ∨
    (w.abort fails).1 = true ∧ Blamed base (w.abort fails).2 ∧
      HalfShifted weight (w.abort fails).2.cluster := by
  unfold abort
  rcases setWeight_cases fails h (Nat.zero_le 100) with
    ⟨w', heq, hclean, hk⟩ | ⟨w', heq, hblamed, hk⟩
  · rw [heq]
    refine Or.inl ?_
    rcases exec_cases fails w' (.scaleCanary 0) with h₂ | h₂
    · simp only [Effect.andThen, Bool.false_eq_true, if_false, h₂]
      refine ⟨hclean.excuse, ?_, ?_⟩
      · rw [hk]
        exact ⟨rfl, rfl, rfl⟩
      · rw [hk]
    · simp only [Effect.andThen, Bool.false_eq_true, if_false, h₂]
      refine ⟨hclean.snoc.excused, ?_, ?_⟩
      · rw [hk]
        exact ⟨rfl, rfl, rfl⟩
      · rw [hk]
        rfl
  · rw [heq]
    refine Or.inr ⟨rfl, hblamed, ?_⟩
    simp only [Effect.andThen, if_true]
    rcases hk with hk | hk
    · rw [hk]
      exact ⟨Or.inl ⟨hsplit.canaryLane, hsplit.traffic⟩, hsplit.stableLane⟩
    · rw [hk]
      exact ⟨Or.inr rfl, hsplit.stableLane⟩

/-- Promoting from a split ends with stable on the canary's image and the canary drained,
or with a command that raised and the split still there, at least in part. -/
theorem promote_cases (h : Clean base w) {weight : ℕ} (hsplit : Split weight w.cluster) :
    (Excused base (w.promote fails).2 ∧ Drained (w.promote fails).2.cluster ∧
      (w.promote fails).2.cluster.stableImage = w.cluster.canaryImage) ∨
    (w.promote fails).1 = true ∧ Blamed base (w.promote fails).2 ∧
      HalfShifted weight (w.promote fails).2.cluster := by
  have hstill : ∀ k : Cluster, k.canaryTraffic = w.cluster.canaryTraffic →
      k.canaryLane = w.cluster.canaryLane → k.stableLane = w.cluster.stableLane →
      HalfShifted weight k := by
    intro k h₁ h₂ h₃
    exact ⟨Or.inl ⟨h₂.trans hsplit.canaryLane, h₁.trans hsplit.traffic⟩,
      h₃.trans hsplit.stableLane⟩
  unfold promote readCanaryImage
  cases hr : fails w.commands.length .getCanaryImage ||
      decide (w.cluster.canaryImage = "") with
  | true =>
      exact Or.inr ⟨rfl, h.blame nofun, hstill _ rfl rfl rfl⟩
  | false =>
      have hclean₁ : Clean base ⟨w.cluster, w.commands ++ [(.getCanaryImage, false)]⟩ :=
        h.snoc
      simp only [Effect.andThen, Bool.false_eq_true, if_false]
      rcases exec_cases fails ⟨w.cluster, w.commands ++ [(.getCanaryImage, false)]⟩
        (.setStableImage w.cluster.canaryImage) with h₁ | h₁
      · rw [h₁]
        exact Or.inr ⟨rfl, hclean₁.blame nofun, hstill _ rfl rfl rfl⟩
      · rw [h₁]
        have hclean₂ : Clean base
            ⟨w.cluster.apply (.setStableImage w.cluster.canaryImage),
              w.commands ++ [(.getCanaryImage, false)] ++
                [(.setStableImage w.cluster.canaryImage, false)]⟩ := hclean₁.snoc
        rcases exec_cases fails
          ⟨w.cluster.apply (.setStableImage w.cluster.canaryImage),
            w.commands ++ [(.getCanaryImage, false)] ++
              [(.setStableImage w.cluster.canaryImage, false)]⟩ .rolloutStatus with h₂ | h₂
        · simp only [Bool.false_eq_true, if_false, h₂]
          exact Or.inr ⟨rfl, hclean₂.blame nofun, hstill _ rfl rfl rfl⟩
        · simp only [Bool.false_eq_true, if_false, h₂]
          exact abort_cases fails hclean₂.snoc
            ⟨hsplit.traffic, hsplit.canaryLane, hsplit.stableLane⟩

end World

end TurboServe.Canary
