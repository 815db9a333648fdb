import TurboServe.System.FairShare

/-!
# What `tenant_fair` promises

Tenants that stay backlogged share admissions in proportion to their weights, and
none waits long, as long as no tenant restarts further ahead of the others than
its own quantum.

The clock is the finish tag of the last admission, `vtime + 1 / weight`, while
`_next_tenant` selects by start tags: one admission of a light tenant sets the
clock far ahead, and whoever becomes backlogged next starts from there.
-/

namespace TurboServe.Core

/-! ## §1  Proportional share -/

/-- Two tenants that stay backlogged are admitted in proportion to their weights,
up to one quantum each, in every run whose restarts are within a quantum. -/
theorem share_proportional {weights : List (String × ℚ)}
    (hw : ∀ p ∈ weights, (0 : ℚ) < p.2) (tenantOf : SeqId → String)
    (before interval : List QueueOp)
    (hrestart : everyRestart restartsWithin tenantOf (WaitQueue.new true weights)
      (before ++ interval) = true)
    (q : WaitQueue ℚ)
    (hq : (runQueue tenantOf (WaitQueue.new true weights) before).1 = q) (i j : String)
    (hi : staysBacklogged tenantOf i q interval = true)
    (hj : staysBacklogged tenantOf j q interval = true) :
    |((runQueue tenantOf q interval).2.count i : ℚ) / q.weightOf i -
      ((runQueue tenantOf q interval).2.count j : ℚ) / q.weightOf j| ≤
        1 / q.weightOf i + 1 / q.weightOf j := by
  have hnew := (WaitQueue.new_inv (W := ℚ) tenantOf true weights).1
  obtain ⟨hinv, hfair, hweights⟩ := run_keeps before hnew rfl
  rw [everyRestart_append, Bool.and_eq_true] at hrestart
  have hlevel := level_of_run restartsWithin_restrains (fun _ _ _ => trivial) hw before
    hrestart.1
  rw [hq] at hinv hfair hweights hlevel hrestart
  rw [← weightOf_eq hweights] at hlevel
  have hpos : ∀ t, 0 < q.weightOf t := weightOf_pos (hweights ▸ hw)
  by_cases hij : i = j
  · subst hij
    have := one_div_pos.mpr (hpos i)
    rw [sub_self, abs_zero]
    linarith
  · have hrun := stretch_of_run restartsWithin_restrains {i, j} interval hinv
      hfair hrestart.2 (by
        intro t ht
        rcases Finset.mem_insert.mp ht with rfl | ht
        · exact hi
        · rw [Finset.mem_singleton.mp ht]
          exact hj)
    exact hrun.proportional hpos (fun _ _ _ => trivial) hlevel (by simp) (by simp) hij

/-! ## §2  Bounded wait -/

/-- A tenant that stays backlogged is admitted at least once in every
`⌈sum of the backlogged weights / its weight⌉ + 1` admissions, in every run whose
restarts are within a quantum, when rounding up every other tenant's share
separately does not exceed that. -/
theorem wait_bounded {weights : List (String × ℚ)}
    (hw : ∀ p ∈ weights, (0 : ℚ) < p.2) (tenantOf : SeqId → String)
    (before interval : List QueueOp)
    (hrestart : everyRestart restartsBefore tenantOf (WaitQueue.new true weights)
      (before ++ interval) = true)
    (q : WaitQueue ℚ)
    (hq : (runQueue tenantOf (WaitQueue.new true weights) before).1 = q) (i : String)
    (hi : staysBacklogged tenantOf i q interval = true)
    (hround : ∑ j ∈ (everBacklogged tenantOf q interval).erase i,
        ⌈q.weightOf j / q.weightOf i⌉₊ ≤
      ⌈(∑ j ∈ everBacklogged tenantOf q interval, q.weightOf j) / q.weightOf i⌉₊)
    (hlong : ⌈(∑ j ∈ everBacklogged tenantOf q interval, q.weightOf j) /
      q.weightOf i⌉₊ + 1 ≤ (runQueue tenantOf q interval).2.length) :
    i ∈ (runQueue tenantOf q interval).2 := by
  have hnew := (WaitQueue.new_inv (W := ℚ) tenantOf true weights).1
  obtain ⟨hinv, hfair, hweights⟩ := run_keeps before hnew rfl
  rw [everyRestart_append, Bool.and_eq_true] at hrestart
  have hlevel := level_of_run restartsBefore_restrains (fun _ _ hlt => hlt) hw before
    hrestart.1
  rw [hq] at hinv hfair hweights hlevel hrestart
  rw [← weightOf_eq hweights] at hlevel
  have hpos : ∀ t, 0 < q.weightOf t := weightOf_pos (hweights ▸ hw)
  have hrun := stretch_of_run restartsBefore_restrains {i} interval hinv
    hfair hrestart.2 (by
      intro t ht
      rw [Finset.mem_singleton.mp ht]
      exact hi)
  by_contra hwait
  have hle := hrun.bounded_wait hpos hlevel (by simp) hwait
  omega

/-! ## §3  Runs -/

/-- Sequence 0 belongs to the light tenant, 1 to "i" and the others to "j". -/
def tenantOfRun : SeqId → String
  | 0 => "a"
  | 1 => "i"
  | _ => "j"

/-- "a" has a tenth of the weight of the others. -/
def lightWeights : List (String × ℚ) := [("a", 1 / 10), ("i", 1), ("j", 1)]

theorem lightWeights_pos : ∀ p ∈ lightWeights, (0 : ℚ) < p.2 := by decide +kernel

/-- "a" is admitted once, and only then "i" becomes backlogged. -/
def lightFirst : List QueueOp :=
  [.push 0, .push 2, .push 3, .push 4, .push 5, .push 6, .push 7, .pop, .push 1]

/-- "i" and "j" are backlogged from the start. -/
def together : List QueueOp :=
  [.push 1, .push 1, .push 1, .push 2, .push 3, .push 4, .push 5]

/-- Four admissions of two tenants of one weight: two each. -/
theorem share_proportional_together :
    ∃ q : WaitQueue ℚ,
      (runQueue tenantOfRun q [.pop, .pop, .pop, .pop]).2 = ["i", "j", "i", "j"] ∧
      |((runQueue tenantOfRun q [.pop, .pop, .pop, .pop]).2.count "i" : ℚ) /
          q.weightOf "i" -
        ((runQueue tenantOfRun q [.pop, .pop, .pop, .pop]).2.count "j" : ℚ) /
          q.weightOf "j"| ≤ 1 / q.weightOf "i" + 1 / q.weightOf "j" :=
  ⟨(runQueue tenantOfRun (WaitQueue.new true lightWeights) together).1, by decide +kernel,
    share_proportional lightWeights_pos tenantOfRun together
      [.pop, .pop, .pop, .pop] (by decide +kernel) _ rfl "i" "j" (by decide +kernel)
      (by decide +kernel)⟩

/-- The light tenant's admission sets the clock ten quanta ahead of "j": "i"
starts there, and "j" is admitted five times in a row. -/
theorem share_not_proportional :
    ∃ q : WaitQueue ℚ,
      (runQueue tenantOfRun (WaitQueue.new true lightWeights) lightFirst).1 = q ∧
      staysBacklogged tenantOfRun "i" q [.pop, .pop, .pop, .pop, .pop] = true ∧
      staysBacklogged tenantOfRun "j" q [.pop, .pop, .pop, .pop, .pop] = true ∧
      ¬ |((runQueue tenantOfRun q [.pop, .pop, .pop, .pop, .pop]).2.count "i" : ℚ) /
          q.weightOf "i" -
        ((runQueue tenantOfRun q [.pop, .pop, .pop, .pop, .pop]).2.count "j" : ℚ) /
          q.weightOf "j"| ≤ 1 / q.weightOf "i" + 1 / q.weightOf "j" := by
  refine ⟨_, rfl, ?_, ?_, ?_⟩ <;> decide +kernel

/-- Three admissions of two tenants of one weight: "j" has its turn. -/
theorem wait_bounded_together :
    ∃ q : WaitQueue ℚ, (runQueue tenantOfRun q [.pop, .pop, .pop]).2 = ["i", "j", "i"] ∧
      "j" ∈ (runQueue tenantOfRun q [.pop, .pop, .pop]).2 :=
  ⟨(runQueue tenantOfRun (WaitQueue.new true lightWeights) together).1, by decide +kernel,
    wait_bounded lightWeights_pos tenantOfRun together
      [.pop, .pop, .pop] (by decide +kernel) _ rfl "j" (by decide +kernel)
      (by decide +kernel) (by decide +kernel)⟩

/-- After the light tenant's admission only "i" and "j" are backlogged, of weight
one each, and "i" is not among the next three admissions. -/
theorem wait_not_bounded :
    ∃ q : WaitQueue ℚ,
      (runQueue tenantOfRun (WaitQueue.new true lightWeights) lightFirst).1 = q ∧
      staysBacklogged tenantOfRun "i" q [.pop, .pop, .pop] = true ∧
      ⌈(∑ j ∈ everBacklogged tenantOfRun q [.pop, .pop, .pop], q.weightOf j) /
        q.weightOf "i"⌉₊ + 1 ≤ (runQueue tenantOfRun q [.pop, .pop, .pop]).2.length ∧
      "i" ∉ (runQueue tenantOfRun q [.pop, .pop, .pop]).2 := by
  refine ⟨_, rfl, ?_, ?_, ?_⟩ <;> decide +kernel

end TurboServe.Core
