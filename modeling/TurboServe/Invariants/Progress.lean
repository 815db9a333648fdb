import TurboServe.Invariants.Schedule

/-!
# The sequence a step serves first

`schedule()` begins with the oldest running sequence and, when nothing runs, with
the head of the admission order. A step gives that one sequence tokens whenever
the pool, and without chunked prefill the budget, could hold what it needs were
it alone: every other running sequence can be preempted for it.
-/

namespace TurboServe.Core

variable {D W : Type} [BlockDigest D] [VirtualTime W]

/-! ## §1  Running sequences have work left -/

/-- Every running sequence has a token to compute, and without chunked prefill
no more of them than one step may batch. -/
def Live (s : Scheduler D W) : Prop :=
  ∀ i ∈ s.running, (s.seqs i).numComputedTokens < (s.seqs i).numTokens ∧
    (s.config.enableChunkedPrefill = false →
      (s.seqs i).numUncomputedTokens ≤ s.config.maxNumBatchedTokens)

/-- The same in the middle of a step: the sequences of the batch are done. -/
structure MidLive (s : Scheduler D W) (acc : StepAcc) : Prop where
  left : ∀ i ∈ s.running, i ∉ acc.scheduledIds →
    (s.seqs i).numComputedTokens < (s.seqs i).numTokens ∧
      (s.config.enableChunkedPrefill = false →
        (s.seqs i).numUncomputedTokens ≤ s.config.maxNumBatchedTokens)
  whole : s.config.enableChunkedPrefill = false → ∀ i ∈ acc.scheduledIds,
    (s.seqs i).numUncomputedTokens = 0

omit [BlockDigest D] in
/-- Without chunked prefill a sequence that may run gets all it has left. -/
theorem whole_of_mayRun {s : Scheduler D W} {seq : Sequence} {n : ℕ}
    (h : s.mayRun seq n = true) (hoff : s.config.enableChunkedPrefill = false) :
    seq.numUncomputedTokens ≤ n := by
  simp only [Scheduler.mayRun, decide_eq_true_eq] at h
  rcases h.2 with hon | hle
  · rw [hoff] at hon
    cases hon
  · exact hle

theorem Micro.midLive {x y : Scheduler D W × StepAcc} (hm : Micro x y)
    (h : StepInv x.1 x.2) (hx : MidLive x.1 x.2) : MidLive y.1 y.2 := by
  cases hm with
  | @preempt s acc v m' hv hnew hframe hmanager hidx =>
      have hother : ∀ j, j ≠ v → (s.sentBack v m').seqs j = s.seqs j := fun j hj =>
        Function.update_of_ne hj _ _
      constructor
      · intro j hj hns
        obtain ⟨hne, hj⟩ := h.inv.running_nodup.mem_erase_iff.mp hj
        rw [hother j hne]
        exact hx.left j hj hns
      · intro hoff j hj
        rw [hother j fun heq => hnew (heq ▸ hj)]
        exact hx.whole hoff j hj
  | @enter s acc i rest q' n m' seq' hpop hnow hbudget hcan hmay hadopted hframe hmanager
      hidx =>
      have hnr := not_running_of_queued h.inv (hpop.spec h.inv).1
      have hother : ∀ j, j ≠ i → (s.admitted i rest q' m' seq').seqs j = s.seqs j :=
        fun j hj => Function.update_of_ne hj _ _
      constructor
      · intro j hj hns
        by_cases hji : j = i
        · -- the newcomer: what it adopted is less than its text
          subst hji
          have heq := hadopted.seq_eq
          have hself : (s.admitted j rest q' m' seq').seqs j =
              { seq' with status := .running } := Function.update_self _ _ _
          have hcomp : seq'.numComputedTokens = n := by rw [heq]
          have hnum : seq'.numTokens = (s.seqs j).numTokens := by rw [heq]; rfl
          rw [hself]
          refine ⟨?_, fun hoff => ?_⟩
          · show seq'.numComputedTokens < seq'.numTokens
            rw [hcomp, hnum]
            exact hadopted.computed_lt
          · have hle := whole_of_mayRun hmay hoff
            have hnew := (numNew_le seq' acc.budget.tokens).1
            have htok := h.tokens
            show seq'.numUncomputedTokens ≤ s.config.maxNumBatchedTokens
            dsimp only at htok
            omega
        · rw [hother j hji]
          exact hx.left j ((List.mem_append.mp hj).resolve_right
            fun hm => hji (List.mem_singleton.mp hm)) hns
      · intro hoff j hj
        rw [hother j fun heq => hnr (heq ▸ h.scheduled_running hj)]
        exact hx.whole hoff j hj
  | @grow s acc i n slots m' seq' item hi hnew hbudget hn hmay hgrown hframe hmanager
      hitem =>
      have hother : ∀ j, j ≠ i → (s.grown i m' (advanced seq' n)).seqs j = s.seqs j :=
        fun j hj => Function.update_of_ne hj _ _
      constructor
      · intro j hj hns
        have hji : j ≠ i := fun heq => hns (heq ▸ List.mem_cons_self)
        rw [hother j hji]
        exact hx.left j hj fun hs => hns (List.mem_cons_of_mem _ hs)
      · intro hoff j hj
        by_cases hji : j = i
        · subst hji
          have heq := hgrown.seq_eq
          have hself : (s.grown j m' (advanced seq' n)).seqs j = advanced seq' n :=
            Function.update_self _ _ _
          have hcomp : seq'.numComputedTokens = (s.seqs j).numComputedTokens := by rw [heq]
          have hnum : seq'.numTokens = (s.seqs j).numTokens := by rw [heq]; rfl
          have hle := whole_of_mayRun hmay hoff
          rw [hself]
          show seq'.numTokens - (seq'.numComputedTokens + n) = 0
          unfold Sequence.numUncomputedTokens at hle
          omega
        · rw [hother j hji]
          exact hx.whole hoff j ((List.mem_cons.mp hj).resolve_left hji)
  | @rollback s acc i m' hi hframe hmanager hidx =>
      have hnr := not_running_of_queued h.inv hi
      have hother : ∀ j, j ≠ i → (s.rolledBack i m').seqs j = s.seqs j := fun j hj =>
        Function.update_of_ne hj _ _
      constructor
      · intro j hj hns
        rw [hother j fun heq => hnr (heq ▸ hj)]
        exact hx.left j hj hns
      · intro hoff j hj
        rw [hother j fun heq => hnr (heq ▸ h.scheduled_running hj)]
        exact hx.whole hoff j hj

variable {s s' : Scheduler D W} {out : SchedulerOutput}

/-- After a step, a sequence of the batch is computed whole without chunked
prefill, and any other running one has work left. -/
theorem StepRun.live (hr : StepRun s out s') (h : Inv s) (hl : Live s) {i : SeqId}
    (hi : i ∈ s'.running) :
    (∀ item ∈ out.scheduled, item.seq = i → s'.config.enableChunkedPrefill = false →
      (s'.seqs i).numUncomputedTokens = 0) ∧
    ((∀ item ∈ out.scheduled, item.seq ≠ i) →
      (s'.seqs i).numComputedTokens < (s'.seqs i).numTokens ∧
        (s'.config.enableChunkedPrefill = false →
          (s'.seqs i).numUncomputedTokens ≤ s'.config.maxNumBatchedTokens)) := by
  cases hr with
  | intro m₀ s₁ acc hpub hrun =>
      have h₀ := StepInv.init (hpub.inv h)
      have h₁ : StepInv s₁ acc := Micros.stepInv hrun h₀
      have hmid : MidLive s₁ acc := Micros.induct (P := MidLive)
        (fun x y hm hinv hx => hm.midLive hinv hx) hrun h₀
        ⟨fun j hj _ => hl j hj, fun _ j hj => by simp [StepAcc.init] at hj⟩
      constructor
      · rintro item hitem rfl hoff
        exact hmid.whole hoff item.seq (h₁.mem_scheduled hitem)
      · intro hnone
        refine hmid.left i hi fun hs => ?_
        obtain ⟨item, hitem, hseq⟩ := List.mem_map.mp (h₁.ids.mem_iff.mpr hs)
        exact hnone item hitem hseq

/-! ## §2  What a step can serve -/

/-- The sequence the next step serves first would fit if it were alone. -/
def Scheduler.Fits (s : Scheduler D W) : Prop :=
  match s.running with
  | i :: _ =>
      ((s.seqs i).numComputedTokens +
        (s.seqs i).numNewTokensToCompute s.config.maxNumBatchedTokens) ⌈/⌉
          s.blockManager.blockSize ≤ s.blockManager.allocator.numBlocks
  | [] => ∀ b i, s.nextQueued = .ok (some (b, i)) →
      (s.seqs i).numBlocksNeeded s.blockManager.blockSize ≤
          s.blockManager.allocator.numBlocks ∧
        (s.config.enableChunkedPrefill = true ∨
          (s.seqs i).numTokens - s.blockManager.cachedTokens (s.seqs i) ≤
            s.config.maxNumBatchedTokens)

theorem Micro.shape {x y : Scheduler D W × StepAcc} (hm : Micro x y) :
    y.1.blockManager.blockSize = x.1.blockManager.blockSize ∧
      SameShape x.1.blockManager.allocator y.1.blockManager.allocator := by
  cases hm with
  | preempt v m' hv hnew hframe => exact ⟨hframe.blockSize_eq, hframe.shape⟩
  | enter i rest q' n m' seq' hpop hnow hbudget hcan hmay hadopted hframe =>
      exact ⟨hframe.blockSize_eq, hframe.shape⟩
  | grow i n slots m' seq' item hi hnew hbudget hn hmay hgrown hframe =>
      exact ⟨hframe.blockSize_eq, hframe.shape⟩
  | rollback i m' hi hframe => exact ⟨hframe.blockSize_eq, hframe.shape⟩

theorem Micros.shape {x y : Scheduler D W × StepAcc} (hm : Micros x y) :
    y.1.blockManager.blockSize = x.1.blockManager.blockSize ∧
      SameShape x.1.blockManager.allocator y.1.blockManager.allocator := by
  induction hm with
  | refl => exact ⟨rfl, .refl _⟩
  | tail _ hlast ih =>
      obtain ⟨hbs, hshape⟩ := hlast.shape
      exact ⟨hbs.trans ih.1, ih.2.trans hshape⟩

/-- A sequence of the batch keeps its place and its progress for the rest of the
step. -/
theorem Micro.keeps {x y : Scheduler D W × StepAcc} (hm : Micro x y)
    (h : StepInv x.1 x.2) {r : SeqId} (hr : r ∈ x.2.scheduledIds) :
    r ∈ y.2.scheduledIds ∧ y.1.seqs r = x.1.seqs r ∧
      (x.1.running.head? = some r → y.1.running.head? = some r) := by
  have hrun := h.scheduled_running hr
  cases hm with
  | @preempt s acc v m' hv hnew hframe hmanager hidx =>
      have hne : r ≠ v := fun heq => hnew (heq ▸ hr)
      refine ⟨hr, Function.update_of_ne hne _ _, fun hh => ?_⟩
      obtain ⟨tail, htail⟩ := List.head?_eq_some_iff.mp hh
      show (s.running.erase v).head? = some r
      rw [show s.running = r :: tail from htail, List.erase_cons_tail (by simpa using hne)]
      rfl
  | @enter s acc i rest q' n m' seq' hpop hnow hbudget hcan hmay hadopted hframe hmanager
      hidx =>
      have hne : r ≠ i := fun heq =>
        not_running_of_queued h.inv (hpop.spec h.inv).1 (heq ▸ hrun)
      refine ⟨hr, Function.update_of_ne hne _ _, fun hh => ?_⟩
      show (s.running ++ [i]).head? = some r
      rw [List.head?_append, hh]
      rfl
  | @grow s acc i n slots m' seq' item hi hnew hbudget hn hmay hgrown hframe hmanager
      hitem =>
      have hne : r ≠ i := fun heq => hnew (heq ▸ hr)
      exact ⟨List.mem_cons_of_mem _ hr, Function.update_of_ne hne _ _, id⟩
  | @rollback s acc i m' hi hframe hmanager hidx =>
      have hne : r ≠ i := fun heq => not_running_of_queued h.inv hi (heq ▸ hrun)
      exact ⟨hr, Function.update_of_ne hne _ _, id⟩

theorem Micros.keeps {x y : Scheduler D W × StepAcc} (hm : Micros x y)
    (h : StepInv x.1 x.2) {r : SeqId} (hr : r ∈ x.2.scheduledIds) :
    r ∈ y.2.scheduledIds ∧ y.1.seqs r = x.1.seqs r ∧
      (x.1.running.head? = some r → y.1.running.head? = some r) := by
  induction hm with
  | refl => exact ⟨hr, rfl, id⟩
  | tail hm hlast ih =>
      obtain ⟨hmem, hseq, hhead⟩ := hlast.keeps (Micros.stepInv hm h) ih.1
      exact ⟨hmem, hseq.trans ih.2.1, fun hh => hhead (ih.2.2 hh)⟩

/-! ## §3  The oldest running sequence -/

variable {acc acc' : StepAcc} {r : SeqId} {n : ℕ}

theorem init_not_exhausted (config : SchedulerConfig W) :
    (StepAcc.init config).budget.exhausted = false := by
  have h₁ := config.one_le_maxNumBatchedTokens
  have h₂ := config.one_le_maxNumSeqs
  rw [Budget.exhausted, decide_eq_false_iff_not]
  show ¬(config.maxNumBatchedTokens = 0 ∨ config.maxNumSeqs = 0)
  omega

/-- Alone in the pool, the first sequence of a step gets its room. -/
theorem RoomMade.granted_of_fits {room : Bool} (hmade : RoomMade s acc r n room s' acc')
    (h : StepInv s acc) (hids : acc.scheduledIds = [])
    (hn : (s.seqs r).numComputedTokens + n ≤ (s.seqs r).numTokens)
    (hfits : ((s.seqs r).numComputedTokens + n) ⌈/⌉ s.blockManager.blockSize ≤
      s.blockManager.allocator.numBlocks) : room = true := by
  cases room with
  | true => rfl
  | false =>
      obtain ⟨-, s₁, acc₁, hrun, hr, hseq, hvic, hids₁, hcan⟩ := hmade.refused rfl
      have h₁ : StepInv s₁ acc₁ := Micros.stepInv hrun h
      obtain ⟨hbs, hshape⟩ := Micros.shape hrun
      have halone : ∀ j ∈ s₁.running, j = r := by
        intro j hj
        by_contra hne
        have hmem : j ∈ s₁.victimCandidates acc₁ r :=
          (mem_victimCandidates h₁.inv).mpr ⟨hj, hne, by simp [hids₁, hids]⟩
        rw [hvic] at hmem
        cases hmem
      have hsingle : s₁.running = [r] :=
        List.perm_singleton.mp ((List.perm_ext_iff_of_nodup h₁.inv.running_nodup
          (List.nodup_singleton r)).mpr fun j =>
            ⟨fun hj => List.mem_singleton.mpr (halone j hj),
              fun hj => List.mem_singleton.mp hj ▸ hr⟩)
      have hmanager := h₁.inv.manager
      rw [Scheduler.runningSeqs, hsingle, List.map_singleton, hseq] at hmanager
      have hroom := canAppend_of_sole_holder hmanager hn
        (by rw [hbs, hshape.numBlocks_eq]; exact hfits)
      rw [hcan] at hroom
      cases hroom

/-- A sequence that does not fit the pool gets no room, whoever is preempted. -/
theorem RoomMade.refused_of_unfit [CollisionFree D] {room : Bool}
    (hmade : RoomMade s acc r n room s' acc') (h : StepInv s acc)
    (hbig : s.blockManager.allocator.numBlocks <
      ((s.seqs r).numComputedTokens + n) ⌈/⌉ s.blockManager.blockSize) :
    room = false := by
  cases room with
  | false => rfl
  | true =>
      obtain ⟨hr, hseq, hcan⟩ := hmade.granted rfl
      obtain ⟨hbs, hshape⟩ := Micros.shape hmade.run
      have h' : StepInv s' acc' := Micros.stepInv hmade.run h
      have hfit := fits_of_canAppend (h'.inv.manager_head hr) (hseq ▸ hcan)
      rw [hseq, hbs, hshape.numBlocks_eq] at hfit
      exact absurd hfit (not_le.mpr hbig)

/-- The first round of `_schedule_running`, and what the others keep of it. -/
theorem scheduleRunning_first [DecidableEq D] {rest : List SeqId} (h : StepInv s acc)
    (hids : acc.scheduledIds = []) (hbudget : acc.budget.exhausted = false)
    (hrun : s.running = r :: rest)
    (hmay : s.mayRun (s.seqs r)
      ((s.seqs r).numNewTokensToCompute acc.budget.tokens) = true) :
    ∃ room s₁ acc₁ y,
      RoomMade s acc r ((s.seqs r).numNewTokensToCompute acc.budget.tokens) room s₁ acc₁ ∧
      s.scheduleRunning acc s.running = .ok y ∧ Micros (s, acc) y ∧
      (room = false → Micros (s₁, acc₁) y) ∧
      (room = true → r ∈ y.2.scheduledIds ∧ y.1.running.head? = some r ∧
        (y.1.seqs r).numComputedTokens = (s.seqs r).numComputedTokens +
          (s.seqs r).numNewTokensToCompute acc.budget.tokens) := by
  have hr : r ∈ s.running := hrun ▸ List.mem_cons_self
  have hnd : (r :: rest).Nodup := hrun ▸ h.inv.running_nodup
  obtain ⟨hnotin, hndrest⟩ := List.nodup_cons.mp hnd
  have hqueued : ∀ j ∈ rest, j ∈ s.running ++ s.preempted := fun j hj =>
    List.mem_append_left _ (hrun ▸ List.mem_cons_of_mem _ hj)
  have hnew : r ∉ acc.scheduledIds := by simp [hids]
  obtain ⟨room, s₁, acc₁, hroom, hmade⟩ := makeRoom_spec (s.running.length + 1) h
    (n := (s.seqs r).numNewTokensToCompute acc.budget.tokens) hr hnew (Nat.le_succ _)
  have h₁ : StepInv s₁ acc₁ := Micros.stepInv hmade.run h
  have hcons := scheduleRunning_cons rest hbudget
    (h.inv.running_status r hr) hmay
  rw [← hrun, hroom] at hcons
  cases room with
  | false =>
      obtain ⟨y, hok, hrest⟩ := scheduleRunning_spec rest h₁ hndrest
        (fun j hj => hmade.run.queued (hqueued j hj))
        (fun j hj => by simp [hmade.scheduledIds_eq, hids])
      refine ⟨false, s₁, acc₁, y, hmade, ?_, hmade.run.trans hrest, fun _ => hrest, by simp⟩
      rw [hcons]
      simpa [bind, Except.bind] using hok
  | true =>
      obtain ⟨y₁, hemit, hrun₁, hsched, hrunning, hcomp⟩ :=
        emit_after_room h hnew hbudget hmay hmade
      have hy₁ : StepInv y₁.1 y₁.2 := Micros.stepInv hrun₁ h
      obtain ⟨y, hok, hrest⟩ := scheduleRunning_spec rest hy₁ hndrest
        (fun j hj => hrun₁.queued (hqueued j hj))
        (fun j hj => by
          rw [hsched, hids, List.mem_singleton]
          exact fun heq => hnotin (heq ▸ hj))
      have hmem : r ∈ y₁.2.scheduledIds := by rw [hsched]; exact List.mem_cons_self
      have hhead : y₁.1.running.head? = some r := by
        rw [hrunning]
        exact hmade.head rfl (by rw [hrun]; rfl)
      obtain ⟨hmem', hseq, hhead'⟩ := Micros.keeps hrest hy₁ hmem
      refine ⟨true, s₁, acc₁, y, hmade, ?_, hrun₁.trans hrest, by simp,
        fun _ => ⟨hmem', hhead' hhead, ?_⟩⟩
      · rw [hcons]
        simpa [bind, Except.bind, hemit] using hok
      · rw [hseq]
        exact hcomp

/-- What a step does for its oldest running sequence: it makes room, or it sends
the sequence itself back to the queue. -/
theorem schedule_first [DecidableEq D] {rest : List SeqId} (h : Inv s) (hl : Live s)
    (hrun : s.running = r :: rest) :
    ∃ m₀ room s₁ acc₁ s₂ acc, PublishedAll s m₀ ∧
      RoomMade { s with blockManager := m₀ } (StepAcc.init s.config) r
        ((s.seqs r).numNewTokensToCompute s.config.maxNumBatchedTokens) room s₁ acc₁ ∧
      s.schedule = .ok (acc.toOutput, s₂.counted acc.toOutput) ∧
      (room = false → Micros (s₁, acc₁) (s₂, acc)) ∧
      (room = true → s₂.running.head? = some r ∧
        (s₂.seqs r).numComputedTokens = (s.seqs r).numComputedTokens +
          (s.seqs r).numNewTokensToCompute s.config.maxNumBatchedTokens) := by
  obtain ⟨m₀, hpub, hall⟩ := publishAll_spec s.running h fun _ => id
  have h₀ : StepInv { s with blockManager := m₀ } (StepAcc.init s.config) :=
    StepInv.init (hall.inv h)
  have hr : r ∈ s.running := hrun ▸ List.mem_cons_self
  obtain ⟨hlt, hoff⟩ := hl r hr
  have hmax := s.config.one_le_maxNumBatchedTokens
  have hnum : (s.seqs r).numNewTokensToCompute s.config.maxNumBatchedTokens =
      min s.config.maxNumBatchedTokens (s.seqs r).numUncomputedTokens := by
    rw [Sequence.numNewTokensToCompute, if_neg]
    rintro (hfin | hzero)
    · rw [h.not_finished (mem_inFlight.mpr (Or.inl hr))] at hfin
      cases hfin
    · omega
  have hmay : ({ s with blockManager := m₀ } : Scheduler D W).mayRun (s.seqs r)
      ((s.seqs r).numNewTokensToCompute s.config.maxNumBatchedTokens) = true := by
    rw [hnum, Scheduler.mayRun, decide_eq_true_eq]
    have hpos : 0 < (s.seqs r).numUncomputedTokens := Nat.sub_pos_of_lt hlt
    refine ⟨by omega, ?_⟩
    cases hc : s.config.enableChunkedPrefill with
    | true => exact Or.inl rfl
    | false => exact Or.inr (Nat.le_min.mpr ⟨hoff hc, le_rfl⟩)
  obtain ⟨room, s₁, acc₁, y, hmade, hok, hmic, hno, hyes⟩ :=
    scheduleRunning_first h₀ rfl (init_not_exhausted s.config) hrun hmay
  have hy : StepInv y.1 y.2 := Micros.stepInv hmic h₀
  obtain ⟨z, hplaced, hrest⟩ := scheduleAdmissions_spec y.2.budget.seqs hy le_rfl
  refine ⟨m₀, room, s₁, acc₁, z.1, z.2, hall, hmade, ?_, fun hroom => (hno hroom).trans hrest,
    fun hroom => ?_⟩
  · simp only [Scheduler.schedule, hpub, bind, Except.bind]
    rw [show ({ s with blockManager := m₀ } : Scheduler D W).running = s.running from rfl,
      hok]
    simp only [hplaced]
    rfl
  · obtain ⟨hmem, hhead, hcomp⟩ := hyes hroom
    obtain ⟨-, hseq, hhead'⟩ := Micros.keeps hrest hy hmem
    exact ⟨hhead' hhead, by rw [hseq]; exact hcomp⟩

/-! ## §4  The head of the admission order -/

/-- An admission is taken back exactly when chunked prefill is off and what the
prefix cache leaves is more than a step may batch. -/
theorem mayRun_adopted (h : Inv s) {i : SeqId}
    (hi : i ∈ s.preempted ++ s.waiting.toList) {seq' : Sequence}
    (hadopted : Adopted s.blockManager (s.seqs i) n seq') :
    s.mayRun seq' (seq'.numNewTokensToCompute s.config.maxNumBatchedTokens) = false ↔
      s.config.enableChunkedPrefill = false ∧
        s.config.maxNumBatchedTokens < (s.seqs i).numTokens - n := by
  have heq := hadopted.seq_eq
  have hun : seq'.numUncomputedTokens = (s.seqs i).numTokens - n := by
    unfold Sequence.numUncomputedTokens
    rw [heq]
    rfl
  have hlt := hadopted.computed_lt
  have hmax := s.config.one_le_maxNumBatchedTokens
  have hnf : seq'.isFinished = false := by
    have hf := h.not_finished (inFlight_of_queued hi)
    rw [heq]
    exact hf
  have hnew : seq'.numNewTokensToCompute s.config.maxNumBatchedTokens =
      min s.config.maxNumBatchedTokens ((s.seqs i).numTokens - n) := by
    rw [Sequence.numNewTokensToCompute, if_neg, hun]
    rw [hnf]
    rintro (hfin | hzero)
    · cases hfin
    · omega
  rw [Scheduler.mayRun, decide_eq_false_iff_not, hnew, hun]
  cases s.config.enableChunkedPrefill with
  | true => simp; omega
  | false => simp; omega

/-- With nothing running, a step admits the head of the queue, puts it back
because of the budget, or leaves everything as it is because of the pool. -/
theorem schedule_idle [DecidableEq D] (h : Inv s) (hrun : s.running = []) {b : Bool} {i : SeqId}
    (hnext : s.nextQueued = .ok (some (b, i))) :
    (s.blockManager.canAllocate (s.seqs i) = false ∧
      s.schedule = .ok ((StepAcc.init s.config).toOutput,
        s.counted (StepAcc.init s.config).toOutput)) ∨
    (s.blockManager.canAllocate (s.seqs i) = true ∧
      s.config.enableChunkedPrefill = false ∧
      s.config.maxNumBatchedTokens <
        (s.seqs i).numTokens - s.blockManager.cachedTokens (s.seqs i) ∧
      ∃ m', Frame s.blockManager m' i ∧ ManagerInv m' s.runningSeqs ∧
        (∀ x e, m'.allocator.indexed x = some e →
          s.blockManager.allocator.indexed x = some e) ∧
        s.schedule = .ok ((StepAcc.init s.config).toOutput,
          (s.rolledBack i m').counted (StepAcc.init s.config).toOutput)) ∨
    (s.blockManager.canAllocate (s.seqs i) = true ∧
      (s.config.enableChunkedPrefill = true ∨
        (s.seqs i).numTokens - s.blockManager.cachedTokens (s.seqs i) ≤
          s.config.maxNumBatchedTokens) ∧
      ∃ (s₂ : Scheduler D W) (acc : StepAcc),
        s.schedule = .ok (acc.toOutput, s₂.counted acc.toOutput) ∧ i ∈ s₂.running) := by
  have h₀ : StepInv s (StepAcc.init s.config) := StepInv.init h
  have hbudget := init_not_exhausted s.config
  obtain ⟨k, hk⟩ : ∃ k, s.config.maxNumSeqs = k + 1 :=
    ⟨s.config.maxNumSeqs - 1, by have := s.config.one_le_maxNumSeqs; omega⟩
  -- the first two phases of the step have nothing to do
  have hstep : s.schedule = (do
      let r ← s.scheduleAdmissions (StepAcc.init s.config) (k + 1)
      .ok (r.2.toOutput, r.1.counted r.2.toOutput)) := by
    rw [← hk]
    simp only [Scheduler.schedule, hrun, Scheduler.publishAll, Scheduler.scheduleRunning,
      bind, Except.bind]
    rfl
  rcases nextQueued_spec h with ⟨hnone, -⟩ | ⟨b', i', rest, q', hnext', hpop, hpq⟩
  · rw [hnext] at hnone
    cases hnone
  · obtain ⟨rfl, rfl⟩ : b = b' ∧ i = i' := by
      rw [hnext] at hnext'
      simpa using hnext'
    have hid := h.ids i (inFlight_of_queued (hpop.spec h).1)
    have hnow : i ∉ (StepAcc.init s.config).preemptedNow := by simp [StepAcc.init]
    cases hcan : s.blockManager.canAllocate (s.seqs i) with
    | false =>
        refine Or.inl ⟨rfl, ?_⟩
        rw [hstep]
        simp [Scheduler.scheduleAdmissions, hbudget, hnext, bind, Except.bind, hid, hnow,
          hcan]
    | true =>
        obtain ⟨n, seq', hn, hadopted, ⟨hmay, m', hok, hframe, hmanager, hidx⟩ |
          ⟨hmay, y, hok, hrun₁, hids, hseqs⟩⟩ := admit_step h₀ hbudget hnext hpop hpq hnow
            hcan k
        · right; left
          obtain ⟨hoff, hover⟩ := (mayRun_adopted h (hpop.spec h).1 hadopted).mp hmay
          rw [hn] at hover
          refine ⟨rfl, hoff, hover, m', hframe, hmanager, hidx, ?_⟩
          rw [hstep, hok]
          rfl
        · right; right
          have hgo : ¬(s.config.enableChunkedPrefill = false ∧
              s.config.maxNumBatchedTokens < (s.seqs i).numTokens - n) := fun hno => by
            have hno' := (mayRun_adopted h (hpop.spec h).1 hadopted).mpr hno
            exact absurd (hmay.symm.trans hno') (by simp)
          have hy : StepInv y.1 y.2 := Micros.stepInv hrun₁ h₀
          have hfuel : y.2.budget.seqs ≤ k := by
            rw [hseqs]
            show s.config.maxNumSeqs - 1 ≤ k
            omega
          obtain ⟨z, hz, hrest⟩ := scheduleAdmissions_spec k hy hfuel
          have hmem : i ∈ y.2.scheduledIds := by rw [hids]; exact List.mem_cons_self
          have hz' : StepInv z.1 z.2 := Micros.stepInv hrest hy
          refine ⟨rfl, ?_, z.1, z.2, ?_,
            hz'.scheduled_running (Micros.keeps hrest hy hmem).1⟩
          · rw [← hn]
            cases hc : s.config.enableChunkedPrefill with
            | true => exact Or.inl rfl
            | false => exact Or.inr (not_lt.mp fun hlt => hgo ⟨hc, hlt⟩)
          · rw [hstep, hok, hz]
            rfl

end TurboServe.Core
