import TurboServe.System.Runs

/-!
# The step path raises nothing

No exception the source can raise between entering and leaving `schedule()` is
reachable: every `raise` of the modelled functions is a `Fault`, and so is a
loop of the model running out of fuel.
-/

namespace TurboServe.Core

variable {D W : Type} [BlockDigest D] [DecidableEq D] [VirtualTime W]

/-- `schedule()` returns a batch in every reachable state. -/
theorem schedule_never_raises {s : Scheduler D W} (h : Reachable s) :
    (∃ out s', s.schedule = .ok (out, s')) ∧ ∀ e : Fault, s.schedule ≠ .error e := by
  obtain ⟨out, s', hok, -⟩ := schedule_spec h.inv
  refine ⟨⟨out, s', hok⟩, fun e he => ?_⟩
  rw [hok] at he
  cases he

/-- The retirement path raises nothing either, for sequences in flight. -/
theorem lifecycle_never_raises {s : Scheduler D W} (h : Reachable s) {op : Op}
    (hadm : op.admissible s = true) (hadd : ∀ r output, op ≠ .addSequence r output) :
    ∃ s', op.run s = .ok s' := by
  have hinv := h.inv
  cases op with
  | addRequest r => exact ⟨_, rfl⟩
  | addSequence r output => exact absurd rfl (hadd r output)
  | schedule =>
      obtain ⟨out, s', hok, -⟩ := schedule_spec hinv
      exact ⟨s', by simp only [Op.run, hok, bind, Except.bind]⟩
  | appendToken i tok eos =>
      obtain ⟨s', hok, -⟩ := appendToken_spec hinv (of_decide_eq_true hadm) tok eos
      exact ⟨s', by simp only [Op.run, hok, bind, Except.bind]⟩
  | abort rid =>
      rcases abort_spec hinv rid with ⟨-, hok⟩ | ⟨i, s', -, -, hok, -⟩
      · exact ⟨s, by simp only [Op.run, hok, bind, Except.bind]⟩
      · exact ⟨s', by simp only [Op.run, hok, bind, Except.bind]⟩
  | finish i reason tok =>
      obtain ⟨s', hok, -⟩ := finish_spec hinv (of_decide_eq_true hadm) reason tok
      exact ⟨s', hok⟩
  | reset => exact ⟨_, rfl⟩

/-- The step that has to preempt, in a pool of four blocks. -/
theorem schedule_never_raises_small :
    ∃ s : Scheduler FreeDigest ℚ, s.running = [0, 1] ∧
      ∃ out s', s.schedule = .ok (out, s') := by
  have h : observe FreeDigest smallConfig 4 smallOps (fun s _ _ => s.running) =
      some [0, 1] := by decide
  obtain ⟨s, out, s', hs, -, hrun⟩ := observe_eq_some h
  exact ⟨s, hrun, (schedule_never_raises hs).1⟩

end TurboServe.Core
