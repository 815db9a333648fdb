import TurboServe.Invariants.Step

/-!
# `schedule()` as a run of small steps

The functions of the step, one specification each: `emit`, `preempt`,
`make_room`, the two loops, and `schedule` itself. Each succeeds, and what it
did is a run of small steps.
-/

namespace TurboServe.Core

variable {D W : Type} [BlockDigest D] [VirtualTime W]
variable {s : Scheduler D W} {acc : StepAcc}

/-! ## §1  Emission and preemption -/

theorem ScheduledSeq.create_ok {i : SeqId} {n ctx : ℕ} {toks : List TokenId}
    {slots : List Slot} {table : List BlockId} {p c : Bool} {cached : ℕ}
    (h₁ : 1 ≤ n) (h₂ : toks.length = n) (h₃ : slots.length = n) (h₄ : n ≤ ctx) :
    ScheduledSeq.create i n ctx toks slots table p c cached =
      .ok ⟨i, n, ctx, toks, slots, table, p, c, cached, h₁, h₂, h₃, h₄⟩ := by
  simp only [ScheduledSeq.create, dif_pos h₁, dif_pos h₂, dif_pos h₃, dif_pos h₄]

omit [BlockDigest D] in
theorem mayRun_pos {seq : Sequence} {n : ℕ} (h : s.mayRun seq n = true) : 0 < n := by
  simp only [Scheduler.mayRun, decide_eq_true_eq] at h
  exact h.1

/-- The tokens a step gives a sequence are tokens it has. -/
theorem computed_add_numNew_le {seq : Sequence}
    (h : seq.numComputedTokens ≤ seq.numTokens) (budget : ℕ) :
    seq.numComputedTokens + seq.numNewTokensToCompute budget ≤ seq.numTokens := by
  have hle := (numNew_le seq budget).2
  unfold Sequence.numUncomputedTokens at hle
  omega

theorem Inv.computed_le (h : Inv s) {i : SeqId} (hi : i ∈ s.running) :
    (s.seqs i).numComputedTokens ≤ (s.seqs i).numTokens := by
  obtain ⟨st, hst⟩ := (h.manager_head hi).holds _ List.mem_cons_self
  exact hst.computed_le

/-- `_emit` succeeds once there is room, and is one small step. -/
theorem emit_spec [DecidableEq D] (h : StepInv s acc) {i : SeqId} {n : ℕ} (hi : i ∈ s.running)
    (hnew : i ∉ acc.scheduledIds) (hbudget : acc.budget.exhausted = false)
    (hn : n = (s.seqs i).numNewTokensToCompute acc.budget.tokens)
    (hmay : s.mayRun (s.seqs i) n = true)
    (hroom : ((s.seqs i).numComputedTokens + n) ⌈/⌉ s.blockManager.blockSize ≤
      s.blockManager.allocator.numAllocatable + (s.seqs i).blockTable.length)
    (cached : ℕ) :
    ∃ y item, s.emit acc i n cached = .ok y ∧ Micro (s, acc) y ∧
      y.2 = acc.emitted i n item ∧
      (y.1.seqs i).numComputedTokens = (s.seqs i).numComputedTokens + n ∧
      y.1.running = s.running := by
  have hid := h.inv.id_of_running hi
  have hpos : 1 ≤ n := mayRun_pos hmay
  have hle : (s.seqs i).numComputedTokens + n ≤ (s.seqs i).numTokens :=
    hn ▸ computed_add_numNew_le (h.inv.computed_le hi) _
  obtain ⟨slots, m', seq', happ, hgrown, hframe, hmanager, -⟩ :=
    appendSlots_spec (h.inv.manager_head hi) hle hroom
  rw [hid] at hframe
  have heq := hgrown.seq_eq
  have hnum : seq'.numTokens = (s.seqs i).numTokens := by rw [heq]; rfl
  have hcomp : seq'.numComputedTokens = (s.seqs i).numComputedTokens := by rw [heq]
  have htoks : seq'.tokenIds = (s.seqs i).tokenIds := by rw [heq]; rfl
  have hrange : seq'.tokensInRange (s.seqs i).numComputedTokens
      ((s.seqs i).numComputedTokens + n) = .ok _ :=
    Sequence.tokensInRange_ok (Nat.le_add_right _ n) (hnum ▸ hle)
  have hslen : slots.length = n := by rw [hgrown.slots_eq]; simp
  have htlen : ((seq'.tokenIds.take ((s.seqs i).numComputedTokens + n)).drop
      (s.seqs i).numComputedTokens).length = n := by
    rw [Sequence.length_slice (hnum ▸ hle), Nat.add_sub_cancel_left]
  have hadv : seq'.advanceComputed n = .ok _ :=
    Sequence.advanceComputed_ok (by rw [hcomp, hnum]; exact hle)
  have hcreate : ScheduledSeq.create i n ((s.seqs i).numComputedTokens + n) _ slots
      seq'.blockTable (decide ((s.seqs i).numComputedTokens < (s.seqs i).numPromptTokens))
      (decide ((s.seqs i).numComputedTokens < (s.seqs i).numPromptTokens) &&
        decide ((s.seqs i).numComputedTokens + n < (s.seqs i).numPromptTokens)) cached =
      .ok _ :=
    ScheduledSeq.create_ok hpos htlen hslen (Nat.le_add_left _ _)
  have hprompt : seq'.numPromptTokens = (s.seqs i).numPromptTokens := by rw [heq]; rfl
  generalize hitem : (⟨i, n, (s.seqs i).numComputedTokens + n, _, slots,
    seq'.blockTable, _, _, cached, hpos, htlen, hslen, Nat.le_add_left _ _⟩ :
      ScheduledSeq) = item at hcreate
  have hof : ItemOf (s.seqs i) i n slots seq' item := by
    subst hitem
    exact ⟨rfl, rfl, rfl, by rw [← htoks], rfl, rfl, rfl, rfl⟩
  refine ⟨_, item, ?_, Micro.grow i n slots m' seq' item hi hnew hbudget hn hmay hgrown
    hframe hmanager hof, rfl, ?_, rfl⟩
  rotate_left
  · show (Function.update s.seqs i (advanced seq' n) i).numComputedTokens = _
    rw [Function.update_self, advanced, hcomp]
  have hacc : ({ acc with
      budget := ⟨acc.budget.tokens - n, acc.budget.seqs - 1⟩
      scheduledIds := (s.seqs i).seqId :: acc.scheduledIds
      prefills := if item.isPrefill then acc.prefills ++ [item] else acc.prefills
      decodes := if item.isPrefill then acc.decodes else acc.decodes ++ [item] } :
        StepAcc) = acc.emitted i n item := by
    rw [hid]
    rfl
  rw [← hacc, hof.prefill_eq]
  simp only [Scheduler.emit, happ, hrange, hcreate, hadv, bind, Except.bind]
  rfl

/-- `_preempt` succeeds on every running sequence, and is one small step. -/
theorem preempt_spec [DecidableEq D] (h : StepInv s acc) {v : SeqId} (hv : v ∈ s.running)
    (hnew : v ∉ acc.scheduledIds) :
    ∃ m', s.preempt acc v = .ok (s.sentBack v m', acc.sentBack v) ∧
      Micro (s, acc) (s.sentBack v m', acc.sentBack v) := by
  have hid := h.inv.id_of_running hv
  obtain ⟨m', hfree, hmanager, hframe, hidx⟩ := free_spec (h.inv.manager_head hv)
  rw [hid] at hframe
  refine ⟨m', ?_, Micro.preempt v m' hv hnew hframe hmanager hidx⟩
  have hacc : ({ acc with
      preemptedNow := (s.seqs v).seqId :: acc.preemptedNow
      preempted := acc.preempted ++ [v] } : StepAcc) = acc.sentBack v := by
    rw [hid]
    rfl
  simp only [Scheduler.preempt, BlockManager.preempt, hfree, bind, Except.bind, hacc]
  rfl

/-! ## §2  Making room -/

theorem mem_victimCandidates {i v : SeqId} (h : Inv s) :
    v ∈ s.victimCandidates acc i ↔ v ∈ s.running ∧ v ≠ i ∧ v ∉ acc.scheduledIds := by
  simp only [Scheduler.victimCandidates, List.mem_filter, decide_eq_true_eq]
  constructor
  · rintro ⟨hv, hne, hns, -⟩
    exact ⟨hv, hne, h.id_of_running hv ▸ hns⟩
  · rintro ⟨hv, hne, hns⟩
    exact ⟨hv, hne, (h.id_of_running hv).symm ▸ hns, h.running_status v hv⟩

/-- What `_make_room` leaves behind: either room for `i`, or `i` itself back in
the queue because nobody else could be preempted. -/
structure RoomMade (s : Scheduler D W) (acc : StepAcc) (i : SeqId) (n : ℕ)
    (room : Bool) (s' : Scheduler D W) (acc' : StepAcc) : Prop where
  run : Micros (s, acc) (s', acc')
  budget_eq : acc'.budget = acc.budget
  scheduledIds_eq : acc'.scheduledIds = acc.scheduledIds
  granted : room = true → i ∈ s'.running ∧ s'.seqs i = s.seqs i ∧
    s'.blockManager.canAppend (s.seqs i) n = true
  refused : room = false → i ∈ s'.preempted ∧ ∃ s₁ acc₁, Micros (s, acc) (s₁, acc₁) ∧
    i ∈ s₁.running ∧ s₁.seqs i = s.seqs i ∧ s₁.victimCandidates acc₁ i = [] ∧
    acc₁.scheduledIds = acc.scheduledIds ∧
    s₁.blockManager.canAppend (s.seqs i) n = false
  head : room = true → s.running.head? = some i → s'.running.head? = some i

theorem makeRoom_spec [DecidableEq D] (fuel : ℕ) (h : StepInv s acc) {i : SeqId} {n : ℕ}
    (hi : i ∈ s.running) (hnew : i ∉ acc.scheduledIds)
    (hfuel : s.running.length ≤ fuel) :
    ∃ room s' acc', s.makeRoom acc i n fuel = .ok (room, s', acc') ∧
      RoomMade s acc i n room s' acc' := by
  induction fuel generalizing s acc with
  | zero =>
      have := List.length_pos_of_mem hi
      omega
  | succ fuel ih =>
      by_cases hcan : s.blockManager.canAppend (s.seqs i) n = true
      · exact ⟨true, s, acc, by simp [Scheduler.makeRoom, hcan],
          { run := .refl, budget_eq := rfl, scheduledIds_eq := rfl
            granted := fun _ => ⟨hi, rfl, hcan⟩, refused := by simp
            head := fun _ hh => hh }⟩
      · have hcan' : s.blockManager.canAppend (s.seqs i) n = false := by simpa using hcan
        cases hvic : s.pickVictim acc i with
        | none =>
            -- nobody to preempt: `i` goes back itself
            obtain ⟨m', hpre, hmicro⟩ := preempt_spec h hi hnew
            refine ⟨false, _, _, ?_,
              { run := .single hmicro, budget_eq := rfl, scheduledIds_eq := rfl
                granted := by simp
                refused := fun _ => ⟨?_, s, acc, .refl, hi, rfl, ?_, rfl, hcan'⟩
                head := by simp }⟩
            · simp only [Scheduler.makeRoom, hcan', Bool.false_eq_true, if_false, hvic,
                hpre, bind, Except.bind]
            · exact List.mem_append_right _ (List.mem_singleton.mpr rfl)
            · exact Lib.minBy_eq_none.mp hvic
        | some v =>
            obtain ⟨hv, hne, hvns⟩ := (mem_victimCandidates h.inv).mp (Lib.minBy_mem hvic)
            obtain ⟨m', hpre, hmicro⟩ := preempt_spec h hv hvns
            have hi' : i ∈ (s.sentBack v m').running :=
              h.inv.running_nodup.mem_erase_iff.mpr ⟨Ne.symm hne, hi⟩
            have hlen : (s.sentBack v m').running.length ≤ fuel := by
              show (s.running.erase v).length ≤ fuel
              have hpos := List.length_pos_of_mem hv
              rw [List.length_erase_of_mem hv]
              omega
            obtain ⟨room, s', acc', hok, hmade⟩ :=
              ih (hmicro.stepInv h) hi' hnew hlen
            have hseq : (s.sentBack v m').seqs i = s.seqs i :=
              Function.update_of_ne (Ne.symm hne) _ _
            refine ⟨room, s', acc', ?_,
              { run := .head hmicro hmade.run, budget_eq := hmade.budget_eq
                scheduledIds_eq := hmade.scheduledIds_eq
                granted := fun hr => ?_, refused := fun hr => ?_
                head := fun hr hh => hmade.head hr ?_ }⟩
            · simp only [Scheduler.makeRoom, hcan', Bool.false_eq_true, if_false, hvic,
                hpre, bind, Except.bind]
              exact hok
            · have hg := hmade.granted hr
              rwa [hseq] at hg
            · obtain ⟨hp, s₁, acc₁, hrun, hrest⟩ := hmade.refused hr
              rw [hseq] at hrest
              exact ⟨hp, s₁, acc₁, .head hmicro hrun, hrest⟩
            · -- the victim is another one, so the head stays
              obtain ⟨tail, htail⟩ := List.head?_eq_some_iff.mp hh
              show (s.running.erase v).head? = some i
              rw [htail, List.erase_cons_tail (by simpa using Ne.symm hne)]
              rfl

/-! ## §3  The running sequences -/

theorem Micros.queued {x y : Scheduler D W × StepAcc} (hm : Micros x y) {j : SeqId}
    (hj : j ∈ x.1.running ++ x.1.preempted) : j ∈ y.1.running ++ y.1.preempted := by
  induction hm with
  | refl => exact hj
  | tail _ hstep ih => exact hstep.same.2.2.2.2.2 j ih

/-- One round of `_schedule_running`, for a sequence that is given tokens. -/
theorem scheduleRunning_cons [DecidableEq D] {i : SeqId} (rest : List SeqId)
    (hbudget : acc.budget.exhausted = false) (hstatus : (s.seqs i).status = .running)
    (hmay : s.mayRun (s.seqs i)
      ((s.seqs i).numNewTokensToCompute acc.budget.tokens) = true) :
    s.scheduleRunning acc (i :: rest) = (do
      let room ← s.makeRoom acc i
        ((s.seqs i).numNewTokensToCompute acc.budget.tokens) (s.running.length + 1)
      if room.1 then
        let r ← room.2.1.emit room.2.2 i
          ((s.seqs i).numNewTokensToCompute acc.budget.tokens) 0
        r.1.scheduleRunning r.2 rest
      else room.2.1.scheduleRunning room.2.2 rest) := by
  simp [Scheduler.scheduleRunning, hbudget, hstatus, hmay]

/-- Emission after `_make_room` said yes. -/
theorem emit_after_room [DecidableEq D] (h : StepInv s acc) {i : SeqId}
    (hnew : i ∉ acc.scheduledIds)
    (hbudget : acc.budget.exhausted = false)
    (hmay : s.mayRun (s.seqs i)
      ((s.seqs i).numNewTokensToCompute acc.budget.tokens) = true)
    {s' : Scheduler D W} {acc' : StepAcc}
    (hmade : RoomMade s acc i ((s.seqs i).numNewTokensToCompute acc.budget.tokens) true
      s' acc') :
    ∃ y, s'.emit acc' i ((s.seqs i).numNewTokensToCompute acc.budget.tokens) 0 =
        .ok y ∧ Micros (s, acc) y ∧
      y.2.scheduledIds = i :: acc.scheduledIds ∧ y.1.running = s'.running ∧
      (y.1.seqs i).numComputedTokens = (s.seqs i).numComputedTokens +
        (s.seqs i).numNewTokensToCompute acc.budget.tokens := by
  obtain ⟨hi', hseq, hcan⟩ := hmade.granted rfl
  have h' := Micros.stepInv hmade.run h
  have hmay' : s'.mayRun (s'.seqs i)
      ((s.seqs i).numNewTokensToCompute acc.budget.tokens) = true := by
    have hconf : s'.config = s.config := by
      refine Micros.induct (P := fun t _ => t.config = s.config) ?_ hmade.run h rfl
      exact fun x y hm _ hx => hm.same.1.trans hx
    rw [Scheduler.mayRun, hconf, hseq]
    exact hmay
  obtain ⟨y, item, hok, hmicro, hacc, hcomp, hrun⟩ := emit_spec h' hi'
    (hmade.scheduledIds_eq ▸ hnew) (hmade.budget_eq ▸ hbudget)
    (by rw [hseq, hmade.budget_eq]) hmay'
    (by rw [hseq]; exact (canAppend_iff.mp hcan).2) 0
  rw [hseq] at hcomp
  refine ⟨y, hok, .tail hmade.run hmicro, ?_, hrun, hcomp⟩
  rw [hacc, ← hmade.scheduledIds_eq]
  rfl

theorem scheduleRunning_spec [DecidableEq D] (l : List SeqId) (h : StepInv s acc) (hnd : l.Nodup)
    (hqueued : ∀ j ∈ l, j ∈ s.running ++ s.preempted)
    (hnew : ∀ j ∈ l, j ∉ acc.scheduledIds) :
    ∃ y, s.scheduleRunning acc l = .ok y ∧ Micros (s, acc) y := by
  induction l generalizing s acc with
  | nil => exact ⟨(s, acc), rfl, .refl⟩
  | cons i rest ih =>
      obtain ⟨hirest, hrest⟩ := List.nodup_cons.mp hnd
      have hrest_queued : ∀ j ∈ rest, j ∈ s.running ++ s.preempted := fun j hj =>
        hqueued j (List.mem_cons_of_mem _ hj)
      have hrest_new : ∀ j ∈ rest, j ∉ acc.scheduledIds := fun j hj =>
        hnew j (List.mem_cons_of_mem _ hj)
      cases hbudget : acc.budget.exhausted with
      | true => exact ⟨(s, acc), by simp [Scheduler.scheduleRunning, hbudget], .refl⟩
      | false =>
          by_cases hstatus : (s.seqs i).status = .running
          · cases hmay : s.mayRun (s.seqs i)
                ((s.seqs i).numNewTokensToCompute acc.budget.tokens) with
            | false =>
                obtain ⟨y, hok, hrun⟩ := ih h hrest hrest_queued hrest_new
                exact ⟨y, by simp [Scheduler.scheduleRunning, hbudget, hstatus, hmay, hok],
                  hrun⟩
            | true =>
                have hi : i ∈ s.running := by
                  rcases List.mem_append.mp (hqueued i List.mem_cons_self) with hr | hp
                  · exact hr
                  · rw [h.inv.preempted_status i hp] at hstatus
                    cases hstatus
                have hinew := hnew i List.mem_cons_self
                obtain ⟨room, s', acc', hroom, hmade⟩ := makeRoom_spec
                  (s.running.length + 1) h
                  (n := (s.seqs i).numNewTokensToCompute acc.budget.tokens)
                  hi hinew (Nat.le_succ _)
                cases room with
                | false =>
                    obtain ⟨y, hok, hrun⟩ := ih (Micros.stepInv hmade.run h) hrest
                      (fun j hj => hmade.run.queued (hrest_queued j hj))
                      (fun j hj => hmade.scheduledIds_eq ▸ hrest_new j hj)
                    refine ⟨y, ?_, hmade.run.trans hrun⟩
                    rw [scheduleRunning_cons _ hbudget hstatus hmay, hroom]
                    simpa [bind, Except.bind] using hok
                | true =>
                    obtain ⟨y₁, hemit, hrun₁, hids, -⟩ :=
                      emit_after_room h hinew hbudget hmay hmade
                    have h₁ : StepInv y₁.1 y₁.2 := Micros.stepInv hrun₁ h
                    obtain ⟨y, hok, hrun⟩ := ih h₁ hrest
                      (fun j hj => hrun₁.queued (hrest_queued j hj))
                      (fun j hj => by
                        rw [hids, List.mem_cons, not_or]
                        exact ⟨fun heq => hirest (heq ▸ hj), hrest_new j hj⟩)
                    refine ⟨y, ?_, hrun₁.trans hrun⟩
                    rw [scheduleRunning_cons _ hbudget hstatus hmay, hroom]
                    simpa [bind, Except.bind, hemit] using hok
          · obtain ⟨y, hok, hrun⟩ := ih h hrest hrest_queued hrest_new
            exact ⟨y, by simp [Scheduler.scheduleRunning, hbudget, hstatus, hok], hrun⟩

/-! ## §4  Admission -/

/-- The head of the admission order, and what popping it leaves. -/
theorem nextQueued_spec (h : Inv s) :
    (s.nextQueued = .ok none ∧ s.preempted = [] ∧ s.waiting.toList = []) ∨
      ∃ b i rest q', s.nextQueued = .ok (some (b, i)) ∧ Popped s i rest q' ∧
        ∀ seqs' m', ({ s with seqs := seqs', blockManager := m' } :
            Scheduler D W).popQueued b =
          .ok { s with
            seqs := seqs', blockManager := m', preempted := rest, waiting := q' } := by
  cases hp : s.preempted with
  | cons i rest =>
      refine Or.inr ⟨true, i, rest, s.waiting, by simp [Scheduler.nextQueued, hp],
        .resumed hp, fun seqs' m' => ?_⟩
      simp [Scheduler.popQueued]
  | nil =>
      rcases WaitQueue.peek_spec h.queue h.waiting_nodup with ⟨hnone, hnil⟩ | hhead
      · exact Or.inl ⟨by simp [Scheduler.nextQueued, hp, hnone, bind, Except.bind],
          rfl, hnil⟩
      · obtain ⟨i, q', hpeek, -, hpop, -, -⟩ := hhead
        refine Or.inr ⟨false, i, [], q', ?_, .arrived hp hpeek hpop, fun seqs' m' => ?_⟩
        · simp [Scheduler.nextQueued, hp, hpeek, bind, Except.bind]
        · simp [Scheduler.popQueued, hpop, bind, Except.bind]

theorem Adopted.computed_add_le {m : BlockManager D} {seq seq' : Sequence} {n : ℕ}
    (h : Adopted m seq n seq') (budget : ℕ) :
    seq'.numComputedTokens + seq'.numNewTokensToCompute budget ≤ seq'.numTokens := by
  refine computed_add_numNew_le ?_ budget
  have hcomp : seq'.numComputedTokens = n := by rw [h.seq_eq]
  have hnum : seq'.numTokens = seq.numTokens := by rw [h.seq_eq]; rfl
  rw [hcomp, hnum]
  exact h.computed_lt.le

/-- Adoption leaves the number of tokens a step would compute to the budget and
to the status, which is not `FINISHED` on either side. -/
theorem numNew_congr {seq seq' : Sequence} (budget : ℕ)
    (hf : seq.isFinished = false) (hf' : seq'.isFinished = false)
    (hu : seq'.numUncomputedTokens = seq.numUncomputedTokens) :
    seq'.numNewTokensToCompute budget = seq.numNewTokensToCompute budget := by
  simp only [Sequence.numNewTokensToCompute, hf, hf', hu]

/-- One round of `_schedule_admissions`: the head of the queue adopts its
cached prefix, and is either put back, which ends the loop, or scheduled. -/
theorem admit_step [DecidableEq D] (h : StepInv s acc) {b : Bool} {i : SeqId} {rest : List SeqId}
    {q' : WaitQueue W} (hbudget : acc.budget.exhausted = false)
    (hnext : s.nextQueued = .ok (some (b, i))) (hpop : Popped s i rest q')
    (hpopq : ∀ seqs' m', ({ s with seqs := seqs', blockManager := m' } :
        Scheduler D W).popQueued b =
      .ok { s with
        seqs := seqs', blockManager := m', preempted := rest, waiting := q' })
    (hnow : i ∉ acc.preemptedNow)
    (hcan : s.blockManager.canAllocate (s.seqs i) = true) (fuel : ℕ) :
    ∃ n seq', n = s.blockManager.cachedTokens (s.seqs i) ∧
      Adopted s.blockManager (s.seqs i) n seq' ∧
      ((s.mayRun seq' (seq'.numNewTokensToCompute acc.budget.tokens) = false ∧
          ∃ m', s.scheduleAdmissions acc (fuel + 1) = .ok (s.rolledBack i m', acc) ∧
            Frame s.blockManager m' i ∧ ManagerInv m' s.runningSeqs ∧
            ∀ x e, m'.allocator.indexed x = some e →
              s.blockManager.allocator.indexed x = some e) ∨
        (s.mayRun seq' (seq'.numNewTokensToCompute acc.budget.tokens) = true ∧
          ∃ y, s.scheduleAdmissions acc (fuel + 1) =
              y.1.scheduleAdmissions y.2 fuel ∧ Micros (s, acc) y ∧
            y.2.scheduledIds = i :: acc.scheduledIds ∧
            y.2.budget.seqs = acc.budget.seqs - 1)) := by
  obtain ⟨hi, -⟩ := hpop.spec h.inv
  have hflight := inFlight_of_queued hi
  have hid := h.inv.ids i hflight
  have hnr := not_running_of_queued h.inv hi
  obtain ⟨htable, hcomp⟩ := h.inv.idle i hi
  have hnotholder := h.inv.not_holder hflight hnr
  obtain ⟨n, m', seq', halloc, hmanager, hframe, hadopted, ⟨st, hst, hpub⟩, hidx, hroom⟩ :=
    allocate_seq_spec h.inv.manager hnotholder htable
  rw [hid] at hframe
  have heq := hadopted.seq_eq
  have hnow' : (s.seqs i).seqId ∉ acc.preemptedNow := by rwa [hid]
  refine ⟨n, seq', allocate_tokens halloc, hadopted, ?_⟩
  cases hmay : s.mayRun seq' (seq'.numNewTokensToCompute acc.budget.tokens) with
  | false =>
      -- the admission does not fit this step's budget and is taken back
      obtain ⟨m'', hfree, hmanager', hframe', hidx'⟩ := free_spec hmanager
      have hid' : seq'.seqId = i := by rw [heq]; exact hid
      rw [hid'] at hframe'
      have hback : ({ seq' with
          blockTable := [], numComputedTokens := 0, numCachedPromptTokens := 0 } :
            Sequence) = { s.seqs i with numCachedPromptTokens := 0 } := by
        rw [heq]
        simp only
        rw [← htable, ← hcomp]
      have hgain : ∀ x e, m''.allocator.indexed x = some e →
          s.blockManager.allocator.indexed x = some e := by
        intro x e hx
        rcases hidx' x e hx with hold | ⟨k, -, hk, rfl⟩
        · rw [← hidx x]; exact hold
        · have htoks : seq'.tokenIds = (s.seqs i).tokenIds := by rw [heq]; rfl
          have hlora : seq'.loraId = (s.seqs i).loraId := by rw [heq]
          rw [htoks, hlora, hframe.blockSize_eq]
          exact hadopted.indexed k x hk
      refine Or.inl ⟨rfl, m'', ?_, hframe.trans hframe', hmanager', hgain⟩
      have hset : Function.update (Function.update s.seqs i seq') i
          { seq' with
            blockTable := [], numComputedTokens := 0, numCachedPromptTokens := 0 } =
          Function.update s.seqs i { s.seqs i with numCachedPromptTokens := 0 } := by
        rw [Function.update_idem, hback]
      simp only [Scheduler.scheduleAdmissions, hbudget, Bool.false_eq_true, if_false,
        hnext, bind, Except.bind, hnow', hcan, halloc, hmay, if_true, BlockManager.release,
        hfree, Scheduler.setSeq, hset, Bool.true_eq_false]
      rfl
  | true =>
      have hm := Micro.enter i rest q' n m' seq' hpop hnow hbudget hcan hmay hadopted
        hframe hmanager hidx
      have h' := hm.stepInv h
      have hself : (s.admitted i rest q' m' seq').seqs i =
          { seq' with status := .running } := Function.update_self _ _ _
      have hfin : seq'.isFinished = false := by
        have hf := h.inv.not_finished hflight
        rw [heq]
        exact hf
      have hnum : ((s.admitted i rest q' m' seq').seqs i).numNewTokensToCompute
          acc.budget.tokens = seq'.numNewTokensToCompute acc.budget.tokens := by
        rw [hself]
        exact numNew_congr _ hfin rfl rfl
      have hinew : i ∉ acc.scheduledIds := fun hs => hnr (h.scheduled_running hs)
      have hrunning : i ∈ (s.admitted i rest q' m' seq').running :=
        List.mem_append_right _ (List.mem_singleton.mpr rfl)
      have hroom' : (((s.admitted i rest q' m' seq').seqs i).numComputedTokens +
          seq'.numNewTokensToCompute acc.budget.tokens) ⌈/⌉
            (s.admitted i rest q' m' seq').blockManager.blockSize ≤
          (s.admitted i rest q' m' seq').blockManager.allocator.numAllocatable +
            ((s.admitted i rest q' m' seq').seqs i).blockTable.length := by
        rw [hself]
        have hle := hadopted.computed_add_le acc.budget.tokens
        have htok : seq'.numTokens = (s.seqs i).numTokens := by rw [heq]; rfl
        refine le_trans ?_ (hroom hcan)
        show _ ⌈/⌉ m'.blockSize ≤ _
        rw [hframe.blockSize_eq]
        exact (gc_smul_ceilDiv h.inv.manager.blockSize_pos).monotone_l (htok ▸ hle)
      obtain ⟨y, item, hemit, hmicro, hacc, -⟩ := emit_spec h' hrunning hinew hbudget
        hnum.symm (by
          rw [hself]
          exact hmay) hroom' n
      refine Or.inr ⟨rfl, y, ?_, .tail (.single hm) hmicro, ?_, ?_⟩
      · have hset : Function.update (Function.update s.seqs i seq') i
            { seq' with status := .running } =
            Function.update s.seqs i { seq' with status := .running } :=
          Function.update_idem _ _ _
        simp only [Scheduler.admitted, Scheduler.setSeq] at hemit
        simp only [Scheduler.scheduleAdmissions, hbudget, Bool.false_eq_true, if_false,
          hnext, bind, Except.bind, hnow', hcan, halloc, hmay, Scheduler.setSeq,
          hpopq, hset, Bool.true_eq_false, hemit]
      · rw [hacc]
        rfl
      · rw [hacc]
        rfl

theorem scheduleAdmissions_spec [DecidableEq D] (fuel : ℕ) (h : StepInv s acc)
    (hfuel : acc.budget.seqs ≤ fuel) :
    ∃ y, s.scheduleAdmissions acc fuel = .ok y ∧ Micros (s, acc) y := by
  induction fuel generalizing s acc with
  | zero =>
      have hseqs : acc.budget.seqs = 0 := Nat.le_zero.mp hfuel
      exact ⟨(s, acc), by simp [Scheduler.scheduleAdmissions, Budget.exhausted, hseqs],
        .refl⟩
  | succ fuel ih =>
      cases hbudget : acc.budget.exhausted with
      | true => exact ⟨(s, acc), by simp [Scheduler.scheduleAdmissions, hbudget], .refl⟩
      | false =>
          have hpos : 1 ≤ acc.budget.seqs := by
            simp only [Budget.exhausted, decide_eq_false_iff_not, not_or] at hbudget
            omega
          rcases nextQueued_spec h.inv with ⟨hnone, -⟩ | ⟨b, i, rest, q', hnext, hpop, hpq⟩
          · exact ⟨(s, acc), by
              simp [Scheduler.scheduleAdmissions, hbudget, hnone, bind, Except.bind],
              .refl⟩
          · obtain ⟨hi, -⟩ := hpop.spec h.inv
            have hid := h.inv.ids i (inFlight_of_queued hi)
            by_cases hnow : i ∈ acc.preemptedNow
            · exact ⟨(s, acc), by
                simp [Scheduler.scheduleAdmissions, hbudget, hnext, bind, Except.bind,
                  hid, hnow], .refl⟩
            · cases hcan : s.blockManager.canAllocate (s.seqs i) with
              | false =>
                  exact ⟨(s, acc), by
                    simp [Scheduler.scheduleAdmissions, hbudget, hnext, bind,
                      Except.bind, hid, hnow, hcan], .refl⟩
              | true =>
                  obtain ⟨n, seq', -, -, ⟨-, m', hok, hframe, hmanager, hidx⟩ |
                      ⟨-, y, hstep, hrun, -, hseqs⟩⟩ :=
                    admit_step h hbudget hnext hpop hpq hnow hcan fuel
                  · exact ⟨_, hok, .single (.rollback i m' hi hframe hmanager hidx)⟩
                  · have h₁ : StepInv y.1 y.2 := Micros.stepInv hrun h
                    obtain ⟨z, hz, hrun'⟩ := ih h₁ (by omega)
                    exact ⟨z, hstep.trans hz, hrun.trans hrun'⟩

/-! ## §5  The step -/

/-- What publishing the running sequences' completed blocks does to the pool. -/
structure PublishedAll (s : Scheduler D W) (m : BlockManager D) : Prop where
  manager : ManagerInv m s.runningSeqs
  blockSize_eq : m.blockSize = s.blockManager.blockSize
  shape : SameShape s.blockManager.allocator m.allocator
  state_eq : ∀ i, i ∉ s.running → m.state i = s.blockManager.state i
  refs_eq : m.allocator.refs = s.blockManager.allocator.refs
  numAllocatable_eq : m.allocator.numAllocatable = s.blockManager.allocator.numAllocatable
  indexed_of : ∀ x e, m.allocator.indexed x = some e →
    s.blockManager.allocator.indexed x = some e ∨
      ∃ i ∈ s.running, Published s.blockManager (s.seqs i) x e

theorem publishAll_spec [DecidableEq D] (l : List SeqId) (h : Inv s) (hl : ∀ i ∈ l, i ∈ s.running) :
    ∃ m, s.publishAll l = .ok { s with blockManager := m } ∧ PublishedAll s m := by
  induction l generalizing s with
  | nil =>
      exact ⟨s.blockManager, rfl,
        { manager := h.manager, blockSize_eq := rfl, shape := .refl _
          state_eq := fun _ _ => rfl, refs_eq := rfl, numAllocatable_eq := rfl
          indexed_of := fun _ _ => Or.inl }⟩
  | cons i l ih =>
      have hi := hl i List.mem_cons_self
      obtain ⟨k, m₁, hok₁, hinv₁, hframe₁, -, hrefs₁, hnum₁, hidx₁⟩ :=
        publish_spec (h.manager_head hi)
      rw [h.id_of_running hi] at hframe₁
      have hmanager₁ : ManagerInv m₁ s.runningSeqs :=
        hinv₁.perm ((List.perm_cons_erase hi).symm.map s.seqs)
      have h₁ : Inv { s with blockManager := m₁ } :=
        { h with
          blockSize_eq := hframe₁.blockSize_eq.trans h.blockSize_eq
          manager := hmanager₁ }
      obtain ⟨m, hok, hall⟩ := ih h₁ fun j hj => hl j (List.mem_cons_of_mem _ hj)
      refine ⟨m, ?_,
        { manager := hall.manager
          blockSize_eq := hall.blockSize_eq.trans hframe₁.blockSize_eq
          shape := hframe₁.shape.trans hall.shape
          state_eq := fun j hj => (hall.state_eq j hj).trans
            (hframe₁.state_eq j fun heq => hj (heq ▸ hi))
          refs_eq := hall.refs_eq.trans hrefs₁
          numAllocatable_eq := hall.numAllocatable_eq.trans hnum₁
          indexed_of := fun x e hx => ?_ }⟩
      · simp only [Scheduler.publishAll, hok₁, bind, Except.bind]
        exact hok
      · rcases hall.indexed_of x e hx with hold | ⟨j, hj, k', hk', hb, hd⟩
        · exact (hidx₁ x e hold).imp_right fun hp => ⟨i, hi, hp⟩
        · have hbs : m₁.blockSize = s.blockManager.blockSize := hframe₁.blockSize_eq
          refine Or.inr ⟨j, hj, k', ?_, hb, ?_⟩
          · rw [← hbs]; exact hk'
          · rw [← hbs]; exact hd

/-- The statistics `schedule()` updates before it returns. -/
def Scheduler.counted (s : Scheduler D W) (out : SchedulerOutput) : Scheduler D W :=
  { s with
    numSteps := s.numSteps + 1
    numPrefillTokens := s.numPrefillTokens + out.numPrefillTokens
    numDecodeTokens := s.numDecodeTokens + out.numDecodeTokens
    numCachedTokens := s.numCachedTokens + out.numCachedTokens }

/-- One step, seen as what it did: publication, then a run of small steps. -/
inductive StepRun (s : Scheduler D W) : SchedulerOutput → Scheduler D W → Prop where
  | intro (m₀ : BlockManager D) (s₁ : Scheduler D W) (acc : StepAcc)
      (hpub : PublishedAll s m₀)
      (hrun : Micros ({ s with blockManager := m₀ }, StepAcc.init s.config) (s₁, acc)) :
      StepRun s acc.toOutput (s₁.counted acc.toOutput)

theorem PublishedAll.inv {m : BlockManager D} (hp : PublishedAll s m) (h : Inv s) :
    Inv { s with blockManager := m } :=
  { h with
    blockSize_eq := hp.blockSize_eq.trans h.blockSize_eq
    manager := hp.manager }

/-- `schedule()` never fails under the invariant, and it is a run of small
steps. -/
theorem schedule_spec [DecidableEq D] (h : Inv s) :
    ∃ out s', s.schedule = .ok (out, s') ∧ StepRun s out s' := by
  obtain ⟨m₀, hpub, hall⟩ := publishAll_spec s.running h fun _ => id
  have h₀ : StepInv { s with blockManager := m₀ } (StepAcc.init s.config) :=
    StepInv.init (hall.inv h)
  obtain ⟨y₁, hrunning, hrun₁⟩ := scheduleRunning_spec s.running h₀ h.running_nodup
    (fun _ hj => List.mem_append_left _ hj) (by simp [StepAcc.init])
  obtain ⟨y₂, hplaced, hrun₂⟩ := scheduleAdmissions_spec y₁.2.budget.seqs
    (Micros.stepInv hrun₁ h₀) le_rfl
  refine ⟨_, _, ?_, StepRun.intro m₀ y₂.1 y₂.2 hall (hrun₁.trans hrun₂)⟩
  simp only [Scheduler.schedule, hpub, bind, Except.bind, hrunning, hplaced]
  rfl

theorem StepRun.of_schedule [DecidableEq D] (h : Inv s) {out : SchedulerOutput} {s' : Scheduler D W}
    (hs : s.schedule = .ok (out, s')) : StepRun s out s' := by
  obtain ⟨out', s'', hok, hrun⟩ := schedule_spec h
  obtain ⟨rfl, rfl⟩ : out = out' ∧ s' = s'' := by
    rw [hs] at hok
    injection hok with heq
    injection heq with h₁ h₂
    exact ⟨h₁, h₂⟩
  exact hrun

/-- The state and the batch a step ends with. -/
theorem StepRun.stepInv {out : SchedulerOutput} {s' : Scheduler D W}
    (hr : StepRun s out s') (h : Inv s) :
    ∃ acc, out = acc.toOutput ∧ StepInv s' acc := by
  cases hr with
  | intro m₀ s₁ acc hpub hrun =>
      have h₁ := Micros.stepInv hrun (StepInv.init (hpub.inv h))
      exact ⟨acc, rfl,
        { h₁ with
          inv := { h₁.inv with }
          entries := fun item hitem => { h₁.entries item hitem with } }⟩

theorem StepRun.inv {out : SchedulerOutput} {s' : Scheduler D W}
    (hr : StepRun s out s') (h : Inv s) : Inv s' := by
  obtain ⟨acc, -, h'⟩ := hr.stepInv h
  exact h'.inv

theorem StepRun.entryOk {out : SchedulerOutput} {s' : Scheduler D W}
    (hr : StepRun s out s') (h : Inv s) {item : ScheduledSeq}
    (hitem : item ∈ out.scheduled) : EntryOk s' item := by
  obtain ⟨acc, rfl, h'⟩ := hr.stepInv h
  exact h'.entries item hitem

/-- A step leaves the configuration and every sequence's text alone. -/
theorem StepRun.same {out : SchedulerOutput} {s' : Scheduler D W}
    (hr : StepRun s out s') (h : Inv s) :
    s'.config = s.config ∧ s'.byRequest = s.byRequest ∧
      s'.seqCounter = s.seqCounter ∧
      ∀ j, (s'.seqs j).promptTokenIds = (s.seqs j).promptTokenIds ∧
        (s'.seqs j).outputTokenIds = (s.seqs j).outputTokenIds ∧
        (s'.seqs j).sampling = (s.seqs j).sampling ∧
        (s'.seqs j).loraId = (s.seqs j).loraId ∧
        (s'.seqs j).requestId = (s.seqs j).requestId := by
  cases hr with
  | intro m₀ s₁ acc hpub hrun =>
      refine Micros.induct (P := fun t _ => t.config = s.config ∧
        t.byRequest = s.byRequest ∧ t.seqCounter = s.seqCounter ∧
        ∀ j, (t.seqs j).promptTokenIds = (s.seqs j).promptTokenIds ∧
          (t.seqs j).outputTokenIds = (s.seqs j).outputTokenIds ∧
          (t.seqs j).sampling = (s.seqs j).sampling ∧
          (t.seqs j).loraId = (s.seqs j).loraId ∧
          (t.seqs j).requestId = (s.seqs j).requestId)
        ?_ hrun (StepInv.init (hpub.inv h))
        ⟨rfl, rfl, rfl, fun j => ⟨rfl, rfl, rfl, rfl, rfl⟩⟩
      rintro x y hm - ⟨hc, hb, hcount, hseqs⟩
      obtain ⟨hc', hb', hcount', -, hseqs', -⟩ := hm.same
      refine ⟨hc'.trans hc, hb'.trans hb, hcount'.trans hcount, fun j => ?_⟩
      obtain ⟨h₁, h₂, h₃, h₄, h₅⟩ := hseqs j
      obtain ⟨k₁, k₂, k₃, k₄, k₅⟩ := hseqs' j
      exact ⟨k₁.trans h₁, k₂.trans h₂, k₃.trans h₃, k₄.trans h₄, k₅.trans h₅⟩

theorem StepRun.config_eq {out : SchedulerOutput} {s' : Scheduler D W}
    (hr : StepRun s out s') (h : Inv s) : s'.config = s.config :=
  (hr.same h).1

end TurboServe.Core
