import TurboServe.Canary.Rollout

/-!
# Stalls and steps that had their traffic

A tick rolls back as stalled from the time since the step began and the requests that are in
the window now. A step whose window has drained again looks stalled as well; the history says
which steps have seen their traffic.
-/

namespace TurboServe.Canary

/-- A rollback for the stall reason. -/
def Decision.isStall (d : Decision) : Bool :=
  match d.reason with
  | .stalled _ _ _ _ => true
  | _ => false

/-- The decision was made on enough canary requests. -/
def Decision.sawEnough (config : CanaryConfig) (d : Decision) : Bool :=
  d.canary.any fun s => decide (config.minRequests ≤ s.requests)

namespace CanaryController

variable (c : CanaryController)

/-- The canary requests in the window of a tick. -/
def canaryRequests (moment : ℚ) (stable canary : Option LaneSummary) : ℕ :=
  (c.summaries moment stable canary).2.1.requests

/-- The decisions recorded since the current step began. -/
def stepHistory : List Decision := c.history.rtakeWhile fun d => decide (d.kind ≠ .advance)

/-! ## §1  Steps along a run -/

/-- A tick of a running rollout that sees enough canary requests in the window. -/
def seesEnough : Op → Bool
  | .tick moment stable canary =>
      decide (c.state = .canary ∧
        c.config.minRequests ≤ c.canaryRequests moment stable canary)
  | _ => false

/-- One call; the flag says whether a tick since the current step began has seen enough. -/
def watch (x : CanaryController × Bool) (op : Op) : CanaryController × Bool :=
  ((x.1.call op).2,
    if (x.1.call op).1.any (fun d => decide (d.kind = .advance)) then false
    else x.2 || x.1.seesEnough op)

def watched (config : CanaryConfig) (ops : List Op) : CanaryController × Bool :=
  ops.foldl watch (.new config, false)

theorem watched_snoc (config : CanaryConfig) (ops : List Op) (op : Op) :
    watched config (ops ++ [op]) = watch (watched config ops) op := by
  unfold watched
  rw [List.foldl_append]
  rfl

theorem watched_run (config : CanaryConfig) (ops : List Op) :
    (watched config ops).1 = (CanaryController.new config).run ops := by
  induction ops using List.reverseRecOn with
  | nil => rfl
  | append_singleton ops op ih =>
      rw [watched_snoc, run_append, ← ih]
      rfl

variable {c} {moment : ℚ} {stable canary : Option LaneSummary}

/-- A running tick records the canary summary it judged. -/
theorem tick_canary (h : c.state = .canary) :
    (c.tick moment stable canary).1.canary = some (c.summaries moment stable canary).2.1 := by
  rw [tick, if_neg (not_not.mpr h)]
  simp only [judge]
  split
  · split <;> rfl
  · split
    · rfl
    · split
      · rfl
      · split <;> rfl

theorem judge_stall_iff {s k : LaneSummary} : (c.judge moment s k).1.isStall = true ↔
    k.requests < c.config.minRequests ∧
      ∃ limit ∈ c.config.stallTimeoutS, limit ≤ moment - c.stepStartedAt := by
  simp only [judge]
  by_cases hmin : k.requests < c.config.minRequests
  · rw [if_pos hmin]
    by_cases hany : (c.config.stallTimeoutS.any fun limit =>
        decide (limit ≤ moment - c.stepStartedAt)) = true
    · rw [if_pos hany]
      rw [Option.any_eq_true_iff_get] at hany
      obtain ⟨hsome, hle⟩ := hany
      exact iff_of_true rfl ⟨hmin, _, Option.get_mem hsome, of_decide_eq_true hle⟩
    · rw [if_neg hany]
      refine iff_of_false Bool.false_ne_true fun h => hany ?_
      obtain ⟨-, limit, hlimit, hle⟩ := h
      rw [Option.mem_def.mp hlimit]
      exact decide_eq_true hle
  · rw [if_neg hmin]
    refine iff_of_false ?_ fun h => hmin h.1
    split
    · exact Bool.false_ne_true
    · split
      · exact Bool.false_ne_true
      · split <;> exact Bool.false_ne_true

/-- When a tick rolls back as stalled. -/
theorem tick_stall_iff : (c.tick moment stable canary).1.isStall = true ↔
    c.state = .canary ∧ c.canaryRequests moment stable canary < c.config.minRequests ∧
      ∃ limit ∈ c.config.stallTimeoutS, limit ≤ moment - c.stepStartedAt := by
  obtain ⟨-, -, hbegan, -, hsetup⟩ := c.summaries_spec moment stable canary
  unfold tick
  by_cases hrunning : c.state = .canary
  · rw [if_neg (not_not.mpr hrunning)]
    dsimp only
    rw [judge_stall_iff, hsetup.config, hbegan]
    exact ⟨fun h => ⟨hrunning, h⟩, fun h => h.2⟩
  · rw [if_pos hrunning]
    exact iff_of_false Bool.false_ne_true fun h => hrunning h.1

/-! ## §2  What the history says of a step -/

/-- What one more decision does to the history of the step. -/
theorem stepHistory_records {c' : CanaryController} {d : Decision}
    (h : c'.history = c.history ++ [d]) :
    c'.stepHistory = if d.kind = .advance then [] else c.stepHistory ++ [d] := by
  unfold stepHistory
  rw [h, List.rtakeWhile_concat]
  by_cases hkind : d.kind = .advance
  · rw [if_pos hkind, if_neg (by simp [hkind])]
  · rw [if_neg hkind, if_pos (by simp [hkind])]

/-- While a rollout runs, one call keeps the flag and the history of the step together. -/
theorem watch_history {config : CanaryConfig} {x : CanaryController × Bool} {op : Op}
    (hconfig : x.1.config = config)
    (hx : x.1.state = .canary → x.2 = x.1.stepHistory.any (·.sawEnough config))
    (h : (watch x op).1.state = .canary) :
    (watch x op).2 = (watch x op).1.stepHistory.any (·.sawEnough config) := by
  have hspec := x.1.call_spec op
  unfold watch at h ⊢
  dsimp only at h ⊢
  generalize hr : x.1.call op = r at h hspec ⊢
  cases hspec with
  | started version moment _ =>
      rw [stepHistory, begun, record]
      rfl
  | startRefused version moment _ =>
      show (x.2 || false) = _
      rw [Bool.or_false]
      exact hx h
  | aborted reason moment hc d c' hk hs hi hrec hw =>
      rw [hs] at h
      cases h
  | abortRefused reason moment hc =>
      exact absurd h hc
  | reset => cases h
  | observed lane ok ttftMs e2eMs moment c' hs hi hb hh hw =>
      show (x.2 || false) = _
      have hsame : c'.stepHistory = x.1.stepHistory := by
        unfold stepHistory
        rw [hh]
      rw [Bool.or_false, hsame]
      exact hx (hs ▸ h)
  | idleTick moment stable canary hc d hk => exact absurd h hc
  | judged moment stable canary hc d c' hv hrec hw =>
      have hd : d = (x.1.tick moment stable canary).1 :=
        (Option.some_inj.mp (congrArg Prod.fst hr)).symm
      have hsaw : d.sawEnough config = x.1.seesEnough (.tick moment stable canary) := by
        rw [Decision.sawEnough, hd, tick_canary hc, Option.any_some, seesEnough, hconfig]
        simp only [hc, true_and]
        rfl
      rw [stepHistory_records hrec.history]
      show (if decide (d.kind = .advance) = true then false else _) = _
      by_cases hkind : d.kind = .advance
      · rw [if_pos hkind, if_pos (decide_eq_true hkind)]
        rfl
      · rw [if_neg hkind, if_neg (by simp [hkind]), List.any_append, List.any_cons, List.any_nil,
          Bool.or_false, hx hc, hsaw]

/-- While a rollout runs, the flag is what the history of the step shows. -/
theorem watched_history (config : CanaryConfig) (ops : List Op)
    (h : (watched config ops).1.state = .canary) :
    (watched config ops).2 = (watched config ops).1.stepHistory.any (·.sawEnough config) := by
  induction ops using List.reverseRecOn with
  | nil => cases h
  | append_singleton ops op ih =>
      have hconfig : (watched config ops).1.config = config := by
        rw [watched_run]
        exact ((Sound.new config).run ops).config_eq
      rw [watched_snoc] at h ⊢
      exact watch_history hconfig ih h

/-! ## §3  Stalls -/

/-- The window of a step that has had its traffic does not run dry past the timeout. -/
def KeepsTraffic (c : CanaryController) (moment : ℚ) (stable canary : Option LaneSummary) :
    Prop :=
  c.state = .canary → c.stepHistory.any (·.sawEnough c.config) = true →
    c.config.minRequests ≤ c.canaryRequests moment stable canary ∨
      ∀ limit ∈ c.config.stallTimeoutS, moment - c.stepStartedAt < limit

/-- **A stall rollback means the step never got its traffic** if and only if no tick finds the
window of a step drained, past the timeout, that has had it. -/
theorem stall_sound_iff (config : CanaryConfig) (ops : List Op) (moment : ℚ)
    (stable canary : Option LaneSummary) :
    ((((CanaryController.new config).run ops).tick moment stable canary).1.isStall = true →
        (watched config ops).2 = false) ↔
      ((CanaryController.new config).run ops).KeepsTraffic moment stable canary := by
  have hrun := watched_run config ops
  have hconfig := ((Sound.new config).run ops).config_eq
  have hhistory := watched_history config ops
  rw [hrun] at hhistory
  generalize (CanaryController.new config).run ops = c at hconfig hhistory
  unfold KeepsTraffic
  rw [tick_stall_iff]
  constructor
  · intro hsound hrunning hsaw
    by_contra hdry
    push Not at hdry
    have hflag := hsound ⟨hrunning, hdry⟩
    rw [hhistory hrunning, ← hconfig, hsaw] at hflag
    cases hflag
  · rintro hkeeps ⟨hrunning, hfew, limit, hlimit, hle⟩
    rw [hhistory hrunning, ← hconfig]
    by_contra hsaw
    rcases hkeeps hrunning (Bool.not_eq_false _ ▸ hsaw) with henough | hearly
    · exact absurd hfew (not_lt.mpr henough)
    · exact absurd hle (not_le.mpr (hearly limit hlimit))

/-- A step with a healthy request at 10 s, seen by the tick at 20 s, is rolled back as stalled
at 320 s, when the window has drained. -/
theorem drained_step_stalls :
    let config : CanaryConfig := { minRequests := 1, stallTimeoutS := some 310 }
    let ops : List Op := [.start "v2" 0, .observe .canary true none none 10, .tick 20 none none]
    (((CanaryController.new config).run ops).tick 320 none none).1.isStall = true ∧
      (watched config ops).2 = true := by
  decide +kernel

end CanaryController

end TurboServe.Canary
