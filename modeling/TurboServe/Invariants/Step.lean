import TurboServe.Invariants.Micro

/-!
# One step of the scheduler

`schedule()` never fails under the scheduler's invariant, and it is a run of
small steps: every fact about a batch is an induction over that run. Both loops
of the step are covered, with the fuel their model gives them.
-/

namespace TurboServe.Core

variable {D W : Type} [BlockDigest D] [VirtualTime W]

/-- A run of small steps. -/
abbrev Micros : Scheduler D W × StepAcc → Scheduler D W × StepAcc → Prop :=
  Relation.ReflTransGen Micro

/-! ## §1  Small steps keep the batch well formed -/

variable {s s' : Scheduler D W} {acc acc' : StepAcc}

omit [BlockDigest D] in
theorem EntryOk.of_frame {item : ScheduledSeq} {i : SeqId} (h : EntryOk s item)
    (hne : item.seq ≠ i) (hrun : item.seq ∈ s'.running)
    (hseq : s'.seqs item.seq = s.seqs item.seq)
    (hframe : Frame s.blockManager s'.blockManager i) : EntryOk s' item where
  running := hrun
  table_eq := by rw [hseq]; exact h.table_eq
  context_eq := by rw [hseq]; exact h.context_eq
  tokens_eq := by rw [hseq]; exact h.tokens_eq
  slots_eq := by rw [hframe.blockSize_eq]; exact h.slots_eq
  prefill_eq := by rw [hseq]; exact h.prefill_eq
  chunk_eq := by rw [hseq]; exact h.chunk_eq
  published := by
    rw [hframe.state_eq _ hne, hframe.blockSize_eq]
    exact h.published

namespace StepInv

variable (h : StepInv s acc)

include h

theorem mem_scheduled {item : ScheduledSeq} (hitem : item ∈ acc.entries) :
    item.seq ∈ acc.scheduledIds :=
  h.ids.mem_iff.mp (List.mem_map_of_mem hitem)

theorem scheduled_running {i : SeqId} (hi : i ∈ acc.scheduledIds) : i ∈ s.running := by
  obtain ⟨item, hitem, rfl⟩ := List.mem_map.mp (h.ids.mem_iff.mpr hi)
  exact (h.entries item hitem).running

end StepInv

/-- The entry of a sequence that just grew. -/
theorem entryOk_of_grown (h : Inv s) {i : SeqId} {n : ℕ} {slots : List Slot}
    {m' : BlockManager D} {seq' : Sequence} {item : ScheduledSeq} (hi : i ∈ s.running)
    (hgrown : Grown s.blockManager m' (s.seqs i) n slots seq')
    (hframe : Frame s.blockManager m' i) (hitem : ItemOf (s.seqs i) i n slots seq' item) :
    EntryOk (s.grown i m' (advanced seq' n)) item := by
  have heq := hgrown.seq_eq
  have hself : (s.grown i m' (advanced seq' n)).seqs item.seq = advanced seq' n := by
    rw [hitem.seq_eq]
    exact Function.update_self _ _ _
  have hstart : item.start = (s.seqs i).numComputedTokens := by
    rw [ScheduledSeq.start, hitem.context_eq, hitem.num_eq, Nat.add_sub_cancel]
  have htoks : (advanced seq' n).tokenIds = (s.seqs i).tokenIds := by rw [heq]; rfl
  have hprompt : (advanced seq' n).numPromptTokens = (s.seqs i).numPromptTokens := by
    rw [heq]; rfl
  have hcomp : (advanced seq' n).numComputedTokens =
      (s.seqs i).numComputedTokens + n := by rw [heq]
  obtain ⟨st, hst⟩ := (h.manager_head hi).holds _ List.mem_cons_self
  refine
    { running := hitem.seq_eq ▸ hi, table_eq := ?_, context_eq := ?_, tokens_eq := ?_
      slots_eq := ?_, prefill_eq := ?_, chunk_eq := ?_, published := ⟨st, ?_, ?_⟩ }
  · rw [hself]
    exact hitem.table_eq
  · rw [hself, hcomp]
    exact hitem.context_eq
  · rw [hself, htoks, hstart, hitem.context_eq]
    exact hitem.tokens_eq
  · rw [hitem.slots_eq, hgrown.slots_eq, ScheduledSeq.positions, hstart, hitem.num_eq,
      hitem.table_eq]
    show _ = List.map (slotAt m'.blockSize _) _
    rw [hframe.blockSize_eq]
  · rw [hself, hprompt, hstart]
    exact hitem.prefill_eq
  · rw [hself, hprompt, hitem.context_eq]
    exact hitem.chunk_eq
  · show m'.state item.seq = some st
    rw [hitem.seq_eq, hgrown.state_eq, ← h.id_of_running hi]
    exact hst.state_eq
  · show st.numPublished * m'.blockSize ≤ item.start
    rw [hframe.blockSize_eq, hstart]
    exact hst.published_le

/-- How the batch grows by one entry. -/
theorem entries_emitted (i : SeqId) (n : ℕ) (item : ScheduledSeq) :
    (acc.emitted i n item).entries.Perm (item :: acc.entries) := by
  unfold StepAcc.emitted StepAcc.entries
  cases item.isPrefill with
  | true =>
      simp only [if_true, List.append_assoc, List.singleton_append]
      exact List.perm_middle
  | false =>
      simp only [Bool.false_eq_true, if_false]
      rw [← List.append_assoc]
      exact List.perm_append_comm

theorem numNew_le (seq : Sequence) (budget : ℕ) :
    seq.numNewTokensToCompute budget ≤ budget ∧
      seq.numNewTokensToCompute budget ≤ seq.numUncomputedTokens := by
  unfold Sequence.numNewTokensToCompute
  split
  · exact ⟨Nat.zero_le _, Nat.zero_le _⟩
  · exact ⟨Nat.min_le_left _ _, Nat.min_le_right _ _⟩

theorem emitted_stepInv (h : StepInv s acc) {i : SeqId} {n : ℕ} {slots : List Slot}
    {m' : BlockManager D} {seq' : Sequence} {item : ScheduledSeq}
    (hi : i ∈ s.running) (hnew : i ∉ acc.scheduledIds)
    (hbudget : acc.budget.exhausted = false)
    (hn : n = (s.seqs i).numNewTokensToCompute acc.budget.tokens)
    (hgrown : Grown s.blockManager m' (s.seqs i) n slots seq')
    (hframe : Frame s.blockManager m' i)
    (hmanager : ManagerInv m' (advanced seq' n :: (s.running.erase i).map s.seqs))
    (hitem : ItemOf (s.seqs i) i n slots seq' item) :
    StepInv (s.grown i m' (advanced seq' n)) (acc.emitted i n item) := by
  have hperm : (acc.emitted i n item).entries.Perm (item :: acc.entries) :=
    entries_emitted i n item
  have hle : n ≤ acc.budget.tokens := hn ▸ (numNew_le _ _).1
  have hseqs : 1 ≤ acc.budget.seqs := by
    simp only [Budget.exhausted, decide_eq_false_iff_not, not_or] at hbudget
    omega
  refine
    { inv := grown_inv h.inv hi hgrown hframe hmanager, entries := ?_, ids := ?_
      nodup := List.nodup_cons.mpr ⟨hnew, h.nodup⟩, prefills := ?_, decodes := ?_
      tokens := ?_, seqs := ?_, preemptedNow := h.preemptedNow }
  · intro x hx
    rcases List.mem_cons.mp (hperm.mem_iff.mp hx) with rfl | hx
    · exact entryOk_of_grown h.inv hi hgrown hframe hitem
    · have hne : x.seq ≠ i := fun heq => hnew (heq ▸ h.mem_scheduled hx)
      have hx' := h.entries x hx
      exact hx'.of_frame hne hx'.running (Function.update_of_ne hne _ _) hframe
  · refine (hperm.map _).trans ?_
    rw [List.map_cons, hitem.seq_eq]
    exact List.Perm.cons i h.ids
  · intro x hx
    simp only [StepAcc.emitted] at hx
    split at hx
    · next hp =>
        rcases List.mem_append.mp hx with hx | hx
        · exact h.prefills x hx
        · exact List.mem_singleton.mp hx ▸ hp
    · exact h.prefills x hx
  · intro x hx
    simp only [StepAcc.emitted] at hx
    split at hx
    · exact h.decodes x hx
    · next hp =>
        rcases List.mem_append.mp hx with hx | hx
        · exact h.decodes x hx
        · rw [List.mem_singleton.mp hx]
          simpa using hp
  · have hsum : ((acc.emitted i n item).entries.map (·.numNewTokens)).sum =
        n + (acc.entries.map (·.numNewTokens)).sum := by
      rw [(hperm.map _).sum_eq, List.map_cons, List.sum_cons, hitem.num_eq]
    have htok := h.tokens
    rw [hsum]
    show acc.budget.tokens - n + (n + _) = s.config.maxNumBatchedTokens
    omega
  · have := h.seqs
    show acc.budget.seqs - 1 + (i :: acc.scheduledIds).length = s.config.maxNumSeqs
    rw [List.length_cons]
    omega

/-- Every small step keeps the invariant of the step. -/
theorem Micro.stepInv {x y : Scheduler D W × StepAcc} (hm : Micro x y)
    (h : StepInv x.1 x.2) : StepInv y.1 y.2 := by
  cases hm with
  | @preempt s acc v m' hv hnew hframe hmanager hidx =>
      refine { h with
        inv := sentBack_inv h.inv hv hframe hmanager, entries := ?_, preemptedNow := ?_ }
      · intro item hitem
        have hok := h.entries item hitem
        have hne : item.seq ≠ v := fun heq => hnew (heq ▸ h.mem_scheduled hitem)
        refine hok.of_frame hne ?_ (Function.update_of_ne hne _ _) hframe
        exact h.inv.running_nodup.mem_erase_iff.mpr ⟨hne, hok.running⟩
      · intro i hi
        rcases List.mem_cons.mp hi with rfl | hi
        · exact List.mem_append_right _ (List.mem_singleton.mpr rfl)
        · exact List.mem_append_left _ (h.preemptedNow i hi)
  | @enter s acc i rest q' n m' seq' hpop hnow hbudget hcan hmay hadopted hframe hmanager
      hidx =>
      obtain ⟨hi, hperm, -⟩ := hpop.spec h.inv
      have hnr := not_running_of_queued h.inv hi
      refine { h with
        inv := admitted_inv h.inv hpop hadopted hframe hmanager
        entries := ?_, preemptedNow := ?_ }
      · intro item hitem
        have hok := h.entries item hitem
        have hne : item.seq ≠ i := fun heq => hnr (heq ▸ hok.running)
        exact hok.of_frame hne (List.mem_append_left _ hok.running)
          (Function.update_of_ne hne _ _) hframe
      · intro j hj
        have hj' := h.preemptedNow j hj
        cases hpop with
        | resumed hcons =>
            rw [show s.preempted = i :: rest from hcons] at hj'
            exact (List.mem_cons.mp hj').resolve_left fun heq => hnow (heq ▸ hj)
        | arrived hnone =>
            rw [show s.preempted = [] from hnone] at hj'
            cases hj'
  | @grow s acc i n slots m' seq' item hi hnew hbudget hn hmay hgrown hframe hmanager
      hitem =>
      exact emitted_stepInv h hi hnew hbudget hn hgrown hframe hmanager hitem
  | @rollback s acc i m' hi hframe hmanager hidx =>
      have hnr := not_running_of_queued h.inv hi
      refine { h with
        inv := rolledBack_inv h.inv hi hframe hmanager, entries := ?_
        preemptedNow := h.preemptedNow }
      intro item hitem
      have hok := h.entries item hitem
      have hne : item.seq ≠ i := fun heq => hnr (heq ▸ hok.running)
      exact hok.of_frame hne hok.running (Function.update_of_ne hne _ _) hframe

theorem Micros.stepInv {x y : Scheduler D W × StepAcc} (hm : Micros x y)
    (h : StepInv x.1 x.2) : StepInv y.1 y.2 := by
  induction hm with
  | refl => exact h
  | tail _ hstep ih => exact hstep.stepInv ih

/-- A property of the middle of a step that every small step keeps. -/
theorem Micros.induct {P : Scheduler D W → StepAcc → Prop}
    (hstep : ∀ x y : Scheduler D W × StepAcc, Micro x y → StepInv x.1 x.2 →
      P x.1 x.2 → P y.1 y.2)
    {x y : Scheduler D W × StepAcc} (hm : Micros x y) (h : StepInv x.1 x.2)
    (hx : P x.1 x.2) : P y.1 y.2 := by
  induction hm with
  | refl => exact hx
  | tail hm hlast ih => exact hstep _ _ hlast (Micros.stepInv hm h) ih

/-- What no small step changes. -/
theorem Micro.same {x y : Scheduler D W × StepAcc} (hm : Micro x y) :
    y.1.config = x.1.config ∧ y.1.byRequest = x.1.byRequest ∧
      y.1.seqCounter = x.1.seqCounter ∧ y.1.numFinished = x.1.numFinished ∧
      (∀ j, (y.1.seqs j).promptTokenIds = (x.1.seqs j).promptTokenIds ∧
        (y.1.seqs j).outputTokenIds = (x.1.seqs j).outputTokenIds ∧
        (y.1.seqs j).sampling = (x.1.seqs j).sampling ∧
        (y.1.seqs j).loraId = (x.1.seqs j).loraId ∧
        (y.1.seqs j).requestId = (x.1.seqs j).requestId) ∧
      (∀ j ∈ x.1.running ++ x.1.preempted, j ∈ y.1.running ++ y.1.preempted) := by
  have hupd : ∀ (seqs : SeqId → Sequence) (i : SeqId) (seq' : Sequence),
      seq'.promptTokenIds = (seqs i).promptTokenIds →
      seq'.outputTokenIds = (seqs i).outputTokenIds →
      seq'.sampling = (seqs i).sampling → seq'.loraId = (seqs i).loraId →
      seq'.requestId = (seqs i).requestId → ∀ j,
      (Function.update seqs i seq' j).promptTokenIds = (seqs j).promptTokenIds ∧
        (Function.update seqs i seq' j).outputTokenIds = (seqs j).outputTokenIds ∧
        (Function.update seqs i seq' j).sampling = (seqs j).sampling ∧
        (Function.update seqs i seq' j).loraId = (seqs j).loraId ∧
        (Function.update seqs i seq' j).requestId = (seqs j).requestId := by
    intro seqs i seq' h₁ h₂ h₃ h₄ h₅ j
    by_cases hji : j = i
    · rw [hji, Function.update_self]
      exact ⟨h₁, h₂, h₃, h₄, h₅⟩
    · rw [Function.update_of_ne hji]
      exact ⟨rfl, rfl, rfl, rfl, rfl⟩
  cases hm with
  | @preempt s acc v m' hv hnew hframe hmanager hidx =>
      refine ⟨rfl, rfl, rfl, rfl, hupd _ _ _ rfl rfl rfl rfl rfl, fun j hj => ?_⟩
      simp only [Scheduler.sentBack, List.mem_append, List.mem_singleton] at hj ⊢
      by_cases hjv : j = v
      · exact Or.inr (Or.inr hjv)
      · exact hj.imp (fun hr => (List.mem_erase_of_ne hjv).mpr hr) Or.inl
  | @enter s acc i rest q' n m' seq' hpop hnow hbudget hcan hmay hadopted hframe hmanager
      hidx =>
      have heq := hadopted.seq_eq
      refine ⟨rfl, rfl, rfl, rfl, hupd _ _ _ (by rw [heq]) (by rw [heq]) (by rw [heq])
        (by rw [heq]) (by rw [heq]), fun j hj => ?_⟩
      simp only [Scheduler.admitted, List.mem_append, List.mem_singleton] at hj ⊢
      cases hpop with
      | resumed hcons =>
          rw [show s.preempted = i :: rest from hcons, List.mem_cons] at hj
          tauto
      | arrived hnone =>
          rw [show s.preempted = [] from hnone] at hj
          simp at hj
          exact Or.inl (Or.inl hj)
  | @grow s acc i n slots m' seq' item hi hnew hbudget hn hmay hgrown hframe hmanager
      hitem =>
      have heq := hgrown.seq_eq
      exact ⟨rfl, rfl, rfl, rfl, hupd _ _ _ (by rw [heq]) (by rw [heq]) (by rw [heq])
        (by rw [heq]) (by rw [heq]), fun j hj => hj⟩
  | @rollback s acc i m' hi hframe hmanager hidx =>
      exact ⟨rfl, rfl, rfl, rfl, hupd _ _ _ rfl rfl rfl rfl rfl, fun j hj => hj⟩

end TurboServe.Core
