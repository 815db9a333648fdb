import TurboServe.Invariants.Progress
import TurboServe.System.Loop

/-!
# The step loop run to its end

`while scheduler.has_unfinished(): ...` from any constructed scheduler and any
accepted requests. As long as each round starts in a state whose first sequence
fits, a round samples a token, computes tokens of the oldest running sequence, or
starts one: a lexicographic measure ends the loop, preemption included.
-/

namespace TurboServe.Core

variable {D W : Type} [BlockDigest D] [DecidableEq D] [VirtualTime W]

/-! ## §1  The loop -/

/-- `n` rounds of the loop; `sample k` is what round `k` samples. -/
def Scheduler.drive (eos : Option TokenId)
    (sample : ℕ → Scheduler D W → ScheduledSeq → TokenId) (s : Scheduler D W) (n : ℕ) :
    Except Fault (Scheduler D W) :=
  Lib.loopFrom Scheduler.hasUnfinished (fun k => Scheduler.step eos (sample k)) 0 s n

/-- The scheduler after a list of `add_request` calls, refused ones included. -/
def Scheduler.addAll (s : Scheduler D W) (rs : List Scheduler.Request) :
    Scheduler D W :=
  rs.foldl (fun s r => (s.addRequest r).2) s

/-- Every sequence in flight may still generate. -/
def Short (s : Scheduler D W) : Prop :=
  ∀ i ∈ s.inFlight, (s.seqs i).numOutputTokens < (s.seqs i).sampling.maxTokens

/-- What holds between two rounds. -/
structure Going (s : Scheduler D W) : Prop where
  inv : Inv s
  live : Live s
  short : Short s

/-! ## §2  What a round does to each sequence -/

variable {s s₁ s' : Scheduler D W} {out : SchedulerOutput} {eos : Option TokenId}
  {sample : Scheduler D W → ScheduledSeq → TokenId}

/-- A running sequence is left alone or fed one token. -/
theorem fed_cases (h : Inv s) (hs : s.schedule = .ok (out, s₁))
    (hback : Feedback (stopRule eos) Scheduler.noCaps s₁
      (tokensFor (out.sampled.map fun item => (item.seq, sample s₁ item))) s')
    {i : SeqId} (hi : i ∈ s₁.running) :
    ((∀ item ∈ out.sampled, item.seq ≠ i) ∧ s'.seqs i = s₁.seqs i) ∨
      ∃ item ∈ out.sampled, item.seq = i ∧ SameRequest (s₁.seqs i) (s'.seqs i) ∧
        (s'.seqs i).outputTokenIds = (s₁.seqs i).outputTokenIds ++ [sample s₁ item] ∧
        ((s'.seqs i).status ≠ .finished →
          (s'.seqs i).numComputedTokens = (s₁.seqs i).numComputedTokens ∧
          (s'.seqs i).numOutputTokens < (s'.seqs i).sampling.maxTokens) := by
  by_cases hfed : ∃ item ∈ out.sampled, item.seq = i
  · obtain ⟨item, hitem, rfl⟩ := hfed
    have hseq := hback.fedSeq item.seq hi
    rw [fed_of_sampled h hs sample hitem] at hseq
    have hout : (s'.seqs item.seq).outputTokenIds =
        (s₁.seqs item.seq).outputTokenIds ++ [sample s₁ item] := by
      rw [hseq.output_eq, Lib.feedUntil]
      split <;> rfl
    refine Or.inr ⟨item, hitem, rfl, hseq.same, hout, fun hnf => ?_⟩
    cases hstop : stopRule eos (s₁.seqs item.seq).sampling
        ((s₁.seqs item.seq).outputTokenIds ++ [sample s₁ item]) with
    | some reason =>
        refine absurd (hseq.ended reason ?_).1 hnf
        simp only [Lib.feedUntil, hstop]
    | none =>
        have hgo := (hseq.going (by simp only [Lib.feedUntil, hstop])).2 (by simp)
        refine ⟨hgo, ?_⟩
        rw [Sequence.numOutputTokens, hout, hseq.same.sampling_eq]
        exact stopRule_bounded eos _ _ (by simp) hstop
  · refine Or.inl ⟨fun item hitem heq => hfed ⟨item, hitem, heq⟩, hback.others i ?_⟩
    by_contra hne
    obtain ⟨p, hp, rfl⟩ := List.mem_map.mp (tokensFor_ne_nil.mp hne)
    obtain ⟨item, hitem, rfl⟩ := List.mem_map.mp hp
    exact hfed ⟨item, hitem, rfl⟩

omit [DecidableEq D] in
/-- A step changes the order of the sequences in flight, not which they are. -/
theorem StepRun.inFlight_perm (hr : StepRun s out s₁) (h : Inv s) :
    s₁.inFlight.Perm s.inFlight := by
  have h₁ := hr.inv h
  have hperm : (s₁.requestPairs.map Prod.snd).Perm (s.requestPairs.map Prod.snd) := by
    refine ((h₁.requests.symm.trans ?_).trans h.requests).map _
    rw [(hr.same h).2.1]
  simpa [Scheduler.requestPairs, Function.comp_def] using hperm

omit [DecidableEq D] in
theorem Feedback.inFlight_sub {stop : StopRule} {caps : SeqId → Option ℕ}
    {fed : SeqId → List TokenId} (hback : Feedback stop caps s₁ fed s') {i : SeqId}
    (hi : i ∈ s'.inFlight) : i ∈ s₁.inFlight := by
  rw [mem_inFlight, hback.preempted_eq, hback.waiting_eq] at hi
  rw [mem_inFlight]
  exact hi.imp_left fun hr => ((hback.running i).mp hr).1

/-- What is fed belongs to running sequences: the queues keep their values. -/
theorem queued_unchanged (h : Inv s) (hs : s.schedule = .ok (out, s₁))
    (hback : Feedback (stopRule eos) Scheduler.noCaps s₁
      (tokensFor (out.sampled.map fun item => (item.seq, sample s₁ item))) s')
    {i : SeqId} (hi : i ∉ s₁.running) : s'.seqs i = s₁.seqs i := by
  refine hback.others i ?_
  by_contra hne
  obtain ⟨p, hp, rfl⟩ := List.mem_map.mp (tokensFor_ne_nil.mp hne)
  obtain ⟨item, hitem, rfl⟩ := List.mem_map.mp hp
  exact hi ((sampled_spec h hs).2 item hitem)

/-! ## §3  Rounds keep sequences going -/

theorem round_short (h : Going s) (hs : s.schedule = .ok (out, s₁))
    (hback : Feedback (stopRule eos) Scheduler.noCaps s₁
      (tokensFor (out.sampled.map fun item => (item.seq, sample s₁ item))) s') :
    Short s' := by
  intro i hi
  have hr := StepRun.of_schedule h.inv hs
  have hshort₁ : (s₁.seqs i).numOutputTokens < (s₁.seqs i).sampling.maxTokens := by
    obtain ⟨-, hout, hsamp, -⟩ := (hr.same h.inv).2.2.2 i
    rw [Sequence.numOutputTokens, hout, hsamp]
    exact h.short i ((hr.inFlight_perm h.inv).mem_iff.mp (hback.inFlight_sub hi))
  by_cases hrun : i ∈ s₁.running
  · rcases fed_cases h.inv hs hback hrun with ⟨-, heq⟩ | ⟨item, -, -, -, -, hgo⟩
    · rw [heq]
      exact hshort₁
    · refine (hgo fun hfin => ?_).2
      have hnf := hback.inv.not_finished hi
      simp [Sequence.isFinished, hfin] at hnf
  · rw [queued_unchanged h.inv hs hback hrun]
    exact hshort₁

theorem round_live (h : Going s) (hs : s.schedule = .ok (out, s₁))
    (hback : Feedback (stopRule eos) Scheduler.noCaps s₁
      (tokensFor (out.sampled.map fun item => (item.seq, sample s₁ item))) s') :
    Live s' := by
  intro i hi
  have hr := StepRun.of_schedule h.inv hs
  have h₁ := hr.inv h.inv
  obtain ⟨hi₁, hnf⟩ := (hback.running i).mp hi
  have hmax := s₁.config.one_le_maxNumBatchedTokens
  rw [hback.config_eq]
  obtain ⟨hwhole, hleft⟩ := hr.live h.inv h.live hi₁
  rcases fed_cases h.inv hs hback hi₁ with
    ⟨hnone, heq⟩ | ⟨item, hitem, rfl, hsame, hout, hgo⟩
  · rw [heq]
    by_cases hbatch : ∃ item ∈ out.scheduled, item.seq = i
    · -- in the batch without sampling: a chunk, which ends inside the prompt
      obtain ⟨item, hitem, rfl⟩ := hbatch
      have hok := hr.entryOk h.inv hitem
      have hchunk : item.isChunk = true := by
        by_contra hne
        refine hnone item (List.mem_filter.mpr ⟨hitem, ?_⟩) rfl
        simpa [ScheduledSeq.samplesToken] using hne
      rw [hok.chunk_eq, Bool.and_eq_true, decide_eq_true_eq, hok.context_eq] at hchunk
      have hle := (s₁.seqs item.seq).numPromptTokens_le
      refine ⟨by omega, fun hoff => ?_⟩
      rw [hwhole item hitem rfl hoff]
      exact Nat.zero_le _
    · exact hleft fun item hitem heq => hbatch ⟨item, hitem, heq⟩
  · obtain ⟨hcomp, -⟩ := hgo hnf
    have hlen : (s'.seqs item.seq).numTokens = (s₁.seqs item.seq).numTokens + 1 := by
      rw [Sequence.numTokens, Sequence.numTokens, hsame.prompt_eq, hout]
      simp [Nat.add_assoc]
    have hle := h₁.computed_le hi₁
    refine ⟨by omega, fun hoff => ?_⟩
    have hzero := hwhole item (List.mem_of_mem_filter hitem) rfl hoff
    unfold Sequence.numUncomputedTokens at hzero ⊢
    omega

/-! ## §4  The measure -/

/-- Tokens the sequences in flight may still generate. -/
def owed (s : Scheduler D W) : ℕ :=
  ∑ i ∈ s.inFlight.toFinset, ((s.seqs i).sampling.maxTokens - (s.seqs i).numOutputTokens)

/-- Whether nothing runs. -/
def idleness (s : Scheduler D W) : ℕ := if s.running = [] then 1 else 0

/-- What is left to compute of the oldest running sequence. -/
def headLeft (s : Scheduler D W) : ℕ :=
  match s.running with
  | [] => 0
  | i :: _ => (s.seqs i).numUncomputedTokens

/-- Tokens owed first, then whether anything runs, then the oldest sequence. -/
def workLeft (s : Scheduler D W) : ℕ ×ₗ ℕ ×ₗ ℕ :=
  toLex (owed s, toLex (idleness s, headLeft s))

/-- A sum over a shrinking set whose terms shrink, one of them for good. -/
theorem sum_lt_of_shrinks {ι : Type*} [DecidableEq ι] {A A' : Finset ι} {f f' : ι → ℕ}
    (hsub : A' ⊆ A) (hle : ∀ i ∈ A', f' i ≤ f i) {i₀ : ι} (hi₀ : i₀ ∈ A)
    (hlt : i₀ ∈ A' → f' i₀ < f i₀) (hpos : 0 < f i₀) :
    ∑ i ∈ A', f' i < ∑ i ∈ A, f i := by
  by_cases hin : i₀ ∈ A'
  · calc ∑ i ∈ A', f' i < ∑ i ∈ A', f i := Finset.sum_lt_sum hle ⟨i₀, hin, hlt hin⟩
      _ ≤ ∑ i ∈ A, f i := Finset.sum_le_sum_of_subset hsub
  · calc ∑ i ∈ A', f' i ≤ ∑ i ∈ A', f i := Finset.sum_le_sum hle
      _ < ∑ i ∈ A, f i := Finset.sum_lt_sum_of_subset hsub hi₀ hin hpos
          fun _ _ _ => Nat.zero_le _

/-- A round that samples anything owes less afterwards. -/
theorem owed_lt (h : Going s) (hs : s.schedule = .ok (out, s₁))
    (hback : Feedback (stopRule eos) Scheduler.noCaps s₁
      (tokensFor (out.sampled.map fun item => (item.seq, sample s₁ item))) s')
    (hne : out.sampled ≠ []) : owed s' < owed s := by
  have hr := StepRun.of_schedule h.inv hs
  have hsub : s'.inFlight.toFinset ⊆ s.inFlight.toFinset := by
    intro i hi
    rw [List.mem_toFinset] at hi ⊢
    exact (hr.inFlight_perm h.inv).mem_iff.mp (hback.inFlight_sub hi)
  have hsame : ∀ i, (s₁.seqs i).sampling = (s.seqs i).sampling ∧
      (s₁.seqs i).numOutputTokens = (s.seqs i).numOutputTokens := by
    intro i
    obtain ⟨-, hout, hsamp, -⟩ := (hr.same h.inv).2.2.2 i
    exact ⟨hsamp, congrArg List.length hout⟩
  have hcases : ∀ i, ((s'.seqs i).sampling.maxTokens = (s.seqs i).sampling.maxTokens ∧
      (s.seqs i).numOutputTokens ≤ (s'.seqs i).numOutputTokens) ∧
      ((∃ item ∈ out.sampled, item.seq = i) →
        (s.seqs i).numOutputTokens < (s'.seqs i).numOutputTokens) := by
    intro i
    obtain ⟨hsamp, hnum⟩ := hsame i
    by_cases hi : i ∈ s₁.running
    · rcases fed_cases h.inv hs hback hi with
        ⟨hnone, heq⟩ | ⟨item, hitem, rfl, hreq, hout, -⟩
      · rw [heq, hsamp, hnum]
        exact ⟨⟨rfl, le_rfl⟩, fun ⟨item, hitem, hseq⟩ => absurd hseq (hnone item hitem)⟩
      · have hmore : (s'.seqs item.seq).numOutputTokens =
            (s.seqs item.seq).numOutputTokens + 1 := by
          rw [Sequence.numOutputTokens, hout, List.length_append, List.length_singleton,
            ← hnum]
          rfl
        rw [hreq.sampling_eq, hsamp, hmore]
        exact ⟨⟨rfl, Nat.le_succ _⟩, fun _ => Nat.lt_succ_self _⟩
    · rw [queued_unchanged h.inv hs hback hi, hsamp, hnum]
      refine ⟨⟨rfl, le_rfl⟩, fun ⟨item, hitem, hseq⟩ => absurd ?_ hi⟩
      exact hseq ▸ (sampled_spec h.inv hs).2 item hitem
  obtain ⟨item, hitem⟩ := List.exists_mem_of_ne_nil _ hne
  have hin : item.seq ∈ s.inFlight := (hr.inFlight_perm h.inv).mem_iff.mp
    (mem_inFlight.mpr (Or.inl ((sampled_spec h.inv hs).2 item hitem)))
  have hroom := h.short item.seq hin
  refine sum_lt_of_shrinks hsub (fun i _ => ?_) (List.mem_toFinset.mpr hin) (fun _ => ?_)
    (Nat.sub_pos_of_lt hroom)
  · obtain ⟨⟨hmax, hnum⟩, -⟩ := hcases i
    omega
  · obtain ⟨⟨hmax, -⟩, hmore⟩ := hcases item.seq
    have := hmore ⟨item, hitem, rfl⟩
    omega

/-- A round that samples nothing ends in the state `schedule()` left. -/
theorem step_of_unsampled (hs : s.schedule = .ok (out, s₁)) (hnil : out.sampled = []) :
    s.step eos sample = .ok s₁ := by
  simp only [Scheduler.step, hs, hnil, bind, Except.bind, List.map_nil]
  rfl

omit [DecidableEq D] in
theorem owed_eq (hr : StepRun s out s₁) (h : Inv s) : owed s₁ = owed s := by
  unfold owed
  rw [List.toFinset_eq_of_perm _ _ (hr.inFlight_perm h)]
  refine Finset.sum_congr rfl fun i _ => ?_
  obtain ⟨-, hout, hsamp, -⟩ := (hr.same h).2.2.2 i
  rw [Sequence.numOutputTokens, hout, hsamp]
  rfl

omit [DecidableEq D] in
theorem nextQueued_of_idle (h : Inv s) (hrun : s.running = [])
    (hgo : s.hasUnfinished = true) : ∃ b i, s.nextQueued = .ok (some (b, i)) := by
  rcases nextQueued_spec h with ⟨-, hpre, hwait⟩ | ⟨b, i, -, -, hnext, -⟩
  · -- nobody is in flight
    have hnil : s.inFlight = [] := by simp [Scheduler.inFlight, hrun, hpre, hwait]
    have hreq := h.requests
    rw [Scheduler.requestPairs, hnil, List.map_nil, List.perm_nil] at hreq
    simp [Scheduler.hasUnfinished, hreq] at hgo
  · exact ⟨b, i, hnext⟩

/-- From a state that fits, a step with nothing running starts a sequence. -/
theorem idleness_lt (h : Inv s) (hfits : s.Fits) (hgo : s.hasUnfinished = true)
    (hrun : s.running = []) (hs : s.schedule = .ok (out, s₁)) :
    idleness s₁ < idleness s := by
  obtain ⟨b, i, hnext⟩ := nextQueued_of_idle h hrun hgo
  have hfit := hfits
  rw [Scheduler.Fits, hrun] at hfit
  obtain ⟨hblocks, hbudget⟩ := hfit b i hnext
  have hmanager := h.manager
  rw [Scheduler.runningSeqs, hrun, List.map_nil] at hmanager
  have hroom := canAllocate_of_no_holder hmanager hblocks
  rcases schedule_idle h hrun hnext with
    ⟨hcan, -⟩ | ⟨-, hoff, hover, -⟩ | ⟨-, -, s₂, acc, hok, hin⟩
  · rw [hroom] at hcan
    cases hcan
  · rcases hbudget with hon | hle
    · rw [hoff] at hon
      cases hon
    · exact absurd hle (not_le.mpr hover)
  · rw [hs] at hok
    cases hok
    have hne : s₂.running ≠ [] := List.ne_nil_of_mem hin
    show (if s₂.running = [] then 1 else 0) < idleness s
    rw [if_neg hne, idleness, if_pos hrun]
    exact Nat.zero_lt_one

/-- From a state that fits, a step computes tokens of the oldest running
sequence. -/
theorem headLeft_lt (h : Going s) (hfits : s.Fits) {r : SeqId} {rest : List SeqId}
    (hrun : s.running = r :: rest) (hs : s.schedule = .ok (out, s₁)) :
    idleness s₁ = idleness s ∧ headLeft s₁ < headLeft s := by
  have hr : r ∈ s.running := hrun ▸ List.mem_cons_self
  have hsame := (StepRun.of_schedule h.inv hs).same h.inv
  obtain ⟨hlt, -⟩ := h.live r hr
  obtain ⟨m₀, room, s', acc', s₂, acc, hpub, hmade, hok, -, hyes⟩ :=
    schedule_first h.inv h.live hrun
  have hfit := hfits
  rw [Scheduler.Fits, hrun] at hfit
  have hroom : room = true := by
    refine hmade.granted_of_fits (StepInv.init (hpub.inv h.inv)) rfl
      (computed_add_numNew_le hlt.le _) ?_
    show _ ⌈/⌉ m₀.blockSize ≤ m₀.allocator.numBlocks
    rw [hpub.blockSize_eq, hpub.shape.numBlocks_eq]
    exact hfit
  obtain ⟨hhead, hcomp⟩ := hyes hroom
  rw [hs] at hok
  cases hok
  obtain ⟨tail, htail⟩ := List.head?_eq_some_iff.mp hhead
  have htail' : (s₂.counted acc.toOutput).running = r :: tail := htail
  refine ⟨by simp [idleness, htail', hrun], ?_⟩
  have hnum : (s₂.seqs r).numTokens = (s.seqs r).numTokens := by
    obtain ⟨hp, ho, -⟩ := hsame.2.2.2 r
    exact congrArg₂ (fun a b : List TokenId => a.length + b.length) hp ho
  have hpos : 0 < (s.seqs r).numNewTokensToCompute s.config.maxNumBatchedTokens := by
    rw [Sequence.numNewTokensToCompute, if_neg]
    · have := s.config.one_le_maxNumBatchedTokens
      have : 0 < (s.seqs r).numUncomputedTokens := Nat.sub_pos_of_lt hlt
      omega
    · rintro (hfin | hzero)
      · rw [h.inv.not_finished (mem_inFlight.mpr (Or.inl hr))] at hfin
        cases hfin
      · have := s.config.one_le_maxNumBatchedTokens
        omega
  rw [headLeft, htail', headLeft, hrun]
  show (s₂.seqs r).numTokens - (s₂.seqs r).numComputedTokens <
    (s.seqs r).numTokens - (s.seqs r).numComputedTokens
  omega

/-- A round from a state that fits gets closer to the end. -/
theorem workLeft_lt (h : Going s) (hfits : s.Fits) (hgo : s.hasUnfinished = true)
    (hs : s.schedule = .ok (out, s₁)) : toLex (idleness s₁, headLeft s₁) <
      toLex (idleness s, headLeft s) := by
  rw [Prod.Lex.toLex_lt_toLex]
  cases hrun : s.running with
  | nil => exact Or.inl (idleness_lt h.inv hfits hgo hrun hs)
  | cons r rest => exact Or.inr (headLeft_lt h hfits hrun hs)

theorem round_lt (h : Going s) (hfits : s.Fits) (hgo : s.hasUnfinished = true)
    (eos : Option TokenId) (sample : Scheduler D W → ScheduledSeq → TokenId) :
    ∃ s', s.step eos sample = .ok s' ∧ Going s' ∧ workLeft s' < workLeft s := by
  obtain ⟨out, s₁, s', hs, hok, hback⟩ := step_spec h.inv eos sample
  refine ⟨s', hok, ⟨hback.inv, round_live h hs hback, round_short h hs hback⟩, ?_⟩
  rw [workLeft, workLeft, Prod.Lex.toLex_lt_toLex]
  by_cases hnil : out.sampled = []
  · rw [step_of_unsampled hs hnil] at hok
    cases hok
    exact Or.inr ⟨owed_eq (StepRun.of_schedule h.inv hs) h.inv,
      workLeft_lt h hfits hgo hs⟩
  · exact Or.inl (owed_lt h hs hback hnil)

/-! ## §5  Where the loop starts -/

omit [BlockDigest D] in
omit [DecidableEq D] in
theorem addRequest_cases (s : Scheduler D W) (r : Scheduler.Request) :
    (∃ c, (s.addRequest r).2 = { s with seqCounter := c }) ∨
      ∃ seq : Sequence, seq.outputTokenIds = [] ∧ (s.addRequest r).2 =
        { s with
          seqCounter := s.seqCounter + 1
          seqs := Function.update s.seqs seq.seqId { seq with status := .waiting }
          byRequest := s.byRequest ++ [(seq.requestId, seq.seqId)]
          waiting := s.waiting.push seq.seqId seq.tenantId } := by
  unfold Scheduler.addRequest
  split
  · exact Or.inl ⟨s.seqCounter, rfl⟩
  · simp only
    split
    · exact Or.inl ⟨_, rfl⟩
    · next seq hseq =>
        split
        · exact Or.inl ⟨_, rfl⟩
        · next s'' hadd =>
            obtain ⟨-, -, -, rfl⟩ := addSequence_ok hadd
            refine Or.inr ⟨seq, ?_, rfl⟩
            unfold Sequence.create at hseq
            split at hseq
            · cases hseq
            · split at hseq
              · cases hseq
              · cases hseq
                rfl

omit [DecidableEq D] in
/-- Before the first round nothing runs and nothing has been generated. -/
theorem addAll_ready {s₀ : Scheduler D W} (h₀ : Initial s₀) (rs : List Scheduler.Request) :
    Inv (s₀.addAll rs) ∧ (s₀.addAll rs).running = [] ∧
      ∀ i, ((s₀.addAll rs).seqs i).outputTokenIds = [] := by
  obtain ⟨-, -, -, hrun, -, -, -, -, hseqs⟩ := h₀.shape
  have hstart : Inv s₀ ∧ s₀.running = [] ∧ ∀ i, (s₀.seqs i).outputTokenIds = [] :=
    ⟨h₀.inv, hrun, fun i => by rw [hseqs]; rfl⟩
  clear hrun hseqs h₀
  induction rs generalizing s₀ with
  | nil => exact hstart
  | cons r rs ih =>
      obtain ⟨hinv, hrun, hout⟩ := hstart
      suffices hready : (s₀.addRequest r).2.running = [] ∧
          ∀ i, ((s₀.addRequest r).2.seqs i).outputTokenIds = [] from
        ih ⟨addRequest_inv hinv r, hready⟩
      rcases addRequest_cases s₀ r with ⟨c, heq⟩ | ⟨seq, hnil, heq⟩
      · rw [heq]
        exact ⟨hrun, hout⟩
      · rw [heq]
        refine ⟨hrun, fun i => ?_⟩
        show (Function.update s₀.seqs seq.seqId _ i).outputTokenIds = []
        by_cases hi : i = seq.seqId
        · rw [hi, Function.update_self]
          exact hnil
        · rw [Function.update_of_ne hi]
          exact hout i

omit [DecidableEq D] in
theorem addAll_going {s₀ : Scheduler D W} (h₀ : Initial s₀) (rs : List Scheduler.Request) :
    Going (s₀.addAll rs) := by
  obtain ⟨hinv, hrun, hout⟩ := addAll_ready h₀ rs
  refine ⟨hinv, fun i hi => ?_, fun i _ => ?_⟩
  · rw [hrun] at hi
    cases hi
  · have := ((s₀.addAll rs).seqs i).sampling.one_le_maxTokens
    rw [Sequence.numOutputTokens, hout i]
    exact this

/-! ## §6  Where it never ends -/

/-- A queued sequence needs more blocks than the pool has. -/
def TooBig (s : Scheduler D W) : Prop :=
  ∃ i ∈ s.preempted ++ s.waiting.toList, s.blockManager.allocator.numBlocks <
    (s.seqs i).numBlocksNeeded s.blockManager.blockSize

omit [DecidableEq D] in
/-- Nothing in a step gets such a sequence out of the queue. -/
theorem Micro.tooBig [CollisionFree D] {x y : Scheduler D W × StepAcc} (hm : Micro x y)
    (h : StepInv x.1 x.2) (hx : TooBig x.1) : TooBig y.1 := by
  obtain ⟨i, hi, hbig⟩ := hx
  obtain ⟨hbs, hshape⟩ := hm.shape
  have hnum : (y.1.seqs i).numBlocksNeeded x.1.blockManager.blockSize =
      (x.1.seqs i).numBlocksNeeded x.1.blockManager.blockSize := by
    obtain ⟨hp, ho, -⟩ := hm.same.2.2.2.2.1 i
    unfold Sequence.numBlocksNeeded Sequence.numTokens
    rw [hp, ho]
  refine ⟨i, ?_, by rw [hshape.numBlocks_eq, hbs, hnum]; exact hbig⟩
  cases hm with
  | @preempt s acc v m' hv hnew hframe hmanager hidx =>
      rcases List.mem_append.mp hi with hp | hw
      · exact List.mem_append_left _ (List.mem_append_left _ hp)
      · exact List.mem_append_right _ hw
  | @enter s acc j rest q' n m' seq' hpop hnow hbudget hcan hmay hadopted hframe hmanager
      hidx =>
      obtain ⟨hj, hperm, -⟩ := hpop.spec h.inv
      have hflight := inFlight_of_queued hj
      have hne : i ≠ j := by
        rintro rfl
        have hfit := fits_of_canAllocate h.inv.manager
          (h.inv.not_holder hflight (not_running_of_queued h.inv hj)) (h.inv.idle i hj).1 hcan
        exact absurd hfit (not_le.mpr hbig)
      exact (List.mem_cons.mp (hperm.mem_iff.mp hi)).resolve_left hne
  | grow => exact hi
  | rollback => exact hi

omit [DecidableEq D] in
theorem Micros.tooBig [CollisionFree D] {x y : Scheduler D W × StepAcc} (hm : Micros x y)
    (h : StepInv x.1 x.2) (hx : TooBig x.1) : TooBig y.1 :=
  Micros.induct (P := fun t _ => TooBig t) (fun _ _ hstep hinv ht => hstep.tooBig hinv ht)
    hm h hx

omit [DecidableEq D] in
theorem StepRun.tooBig [CollisionFree D] (hr : StepRun s out s₁) (h : Inv s)
    (hx : TooBig s) : TooBig s₁ := by
  cases hr with
  | intro m₀ s₂ acc hpub hrun =>
      obtain ⟨i, hi, hbig⟩ := hx
      have h₀ : TooBig ({ s with blockManager := m₀ } : Scheduler D W) := by
        refine ⟨i, hi, ?_⟩
        show m₀.allocator.numBlocks < (s.seqs i).numBlocksNeeded m₀.blockSize
        rw [hpub.shape.numBlocks_eq, hpub.blockSize_eq]
        exact hbig
      exact Micros.tooBig hrun (StepInv.init (hpub.inv h)) h₀

theorem Feedback.tooBig (h : Inv s) (hs : s.schedule = .ok (out, s₁))
    (hback : Feedback (stopRule eos) Scheduler.noCaps s₁
      (tokensFor (out.sampled.map fun item => (item.seq, sample s₁ item))) s')
    (hx : TooBig s₁) : TooBig s' := by
  have h₁ := (StepRun.of_schedule h hs).inv h
  obtain ⟨i, hi, hbig⟩ := hx
  refine ⟨i, ?_, ?_⟩
  · rw [hback.preempted_eq, hback.waiting_eq]
    exact hi
  · rw [queued_unchanged h hs hback (not_running_of_queued h₁ hi), hback.shape.numBlocks_eq,
      hback.inv.blockSize_eq, hback.config_eq, ← h₁.blockSize_eq]
    exact hbig

omit [DecidableEq D] in
theorem unfinished_of_queued (h : Inv s) {i : SeqId}
    (hi : i ∈ s.preempted ++ s.waiting.toList) : s.hasUnfinished = true := by
  have hmem : ((s.seqs i).requestId, i) ∈ s.byRequest := h.requests.mem_iff.mpr
    (List.mem_map.mpr ⟨i, inFlight_of_queued hi, rfl⟩)
  cases hreq : s.byRequest with
  | nil =>
      rw [hreq] at hmem
      cases hmem
  | cons p rest => simp [Scheduler.hasUnfinished, hreq]

/-- After a step from a state that does not fit, a queued sequence is too big for
the pool, or the state still does not fit and nothing was sampled. -/
theorem unfit_step [CollisionFree D] (h : Going s) (hgo : s.hasUnfinished = true)
    (hunfit : ¬ s.Fits) (hs : s.schedule = .ok (out, s₁)) :
    TooBig s₁ ∨ (¬ s₁.Fits ∧ s₁.hasUnfinished = true ∧ out.sampled = []) := by
  have hr := StepRun.of_schedule h.inv hs
  cases hrun : s.running with
  | cons r rest =>
      -- the oldest sequence itself is sent back, with more than the pool holds
      left
      have hmem : r ∈ s.running := hrun ▸ List.mem_cons_self
      obtain ⟨m₀, room, t, acct, s₂, acc, hpub, hmade, hok, hno, -⟩ :=
        schedule_first h.inv h.live hrun
      have h₀ := StepInv.init (hpub.inv h.inv)
      rw [Scheduler.Fits, hrun, not_le] at hunfit
      have hbig : m₀.allocator.numBlocks < ((s.seqs r).numComputedTokens +
          (s.seqs r).numNewTokensToCompute s.config.maxNumBatchedTokens) ⌈/⌉
            m₀.blockSize := by
        rw [hpub.blockSize_eq, hpub.shape.numBlocks_eq]
        exact hunfit
      have hroom : room = false := hmade.refused_of_unfit h₀ hbig
      rw [hs] at hok
      cases hok
      have ht : StepInv t acct := Micros.stepInv hmade.run h₀
      obtain ⟨hbs, hshape⟩ := Micros.shape hmade.run
      have hnum : (t.seqs r).numTokens = (s.seqs r).numTokens := by
        refine Micros.induct (P := fun t _ => (t.seqs r).numTokens = (s.seqs r).numTokens)
          (fun x y hm _ hx => ?_) hmade.run h₀ rfl
        obtain ⟨hp, ho, -⟩ := hm.same.2.2.2.2.1 r
        exact (congrArg₂ (fun a b : List TokenId => a.length + b.length) hp ho).trans hx
      have htoo : TooBig t := by
        refine ⟨r, List.mem_append_left _ (hmade.refused hroom).1, ?_⟩
        rw [hshape.numBlocks_eq, hbs, Sequence.numBlocksNeeded, hnum]
        refine lt_of_lt_of_le hbig ?_
        have hle := computed_add_numNew_le (h.live r hmem).1.le s.config.maxNumBatchedTokens
        exact (gc_smul_ceilDiv hpub.manager.blockSize_pos).monotone_l hle
      obtain ⟨i, hi, hi'⟩ := Micros.tooBig (hno hroom) ht htoo
      exact ⟨i, hi, hi'⟩
  | nil =>
      obtain ⟨b, i, hnext⟩ := nextQueued_of_idle h.inv hrun hgo
      have hqueued : i ∈ s.preempted ++ s.waiting.toList := by
        rcases nextQueued_spec h.inv with ⟨hnone, -⟩ | ⟨b', i', rest, q', hnext', hpop, -⟩
        · rw [hnext] at hnone
          cases hnone
        · rw [hnext] at hnext'
          obtain ⟨rfl, rfl⟩ : b = b' ∧ i = i' := by simpa using hnext'
          exact (hpop.spec h.inv).1
      by_cases hblocks : (s.seqs i).numBlocksNeeded s.blockManager.blockSize ≤
          s.blockManager.allocator.numBlocks
      swap
      · exact Or.inl (hr.tooBig h.inv ⟨i, hqueued, not_le.mp hblocks⟩)
      have hmanager := h.inv.manager
      rw [Scheduler.runningSeqs, hrun, List.map_nil] at hmanager
      have hroom := canAllocate_of_no_holder hmanager hblocks
      have hbudget : ¬(s.config.enableChunkedPrefill = true ∨
          (s.seqs i).numTokens - s.blockManager.cachedTokens (s.seqs i) ≤
            s.config.maxNumBatchedTokens) := by
        refine fun hok => hunfit ?_
        rw [Scheduler.Fits, hrun]
        intro b' i' hnext'
        rw [hnext] at hnext'
        obtain ⟨rfl, rfl⟩ : b = b' ∧ i = i' := by simpa using hnext'
        exact ⟨hblocks, hok⟩
      rcases schedule_idle h.inv hrun hnext with
        ⟨hcan, -⟩ | ⟨-, hoff, hover, m', hframe, hmanager', hidx, hok⟩ | ⟨-, hle, -⟩
      · rw [hroom] at hcan
        cases hcan
      · -- the admission is taken back, and nothing else has happened
        right
        rw [hs] at hok
        cases hok
        have hself : (s.rolledBack i m').seqs i =
            { s.seqs i with numCachedPromptTokens := 0 } := Function.update_self _ _ _
        refine ⟨fun hfits => ?_, hgo, rfl⟩
        have hfit := hfits
        rw [Scheduler.Fits, show ((s.rolledBack i m').counted
          (StepAcc.init s.config).toOutput).running = [] from hrun] at hfit
        obtain ⟨-, hon | hle⟩ := hfit b i hnext
        · rw [show s.config.enableChunkedPrefill = true from hon] at hoff
          cases hoff
        · have hmono : m'.cachedTokens ((s.rolledBack i m').seqs i) ≤
              s.blockManager.cachedTokens (s.seqs i) :=
            cachedTokens_mono h.inv.manager hmanager' hframe.blockSize_eq hframe.shape hidx
              (by rw [hself]; rfl) (by rw [hself])
          have hnum : ((s.rolledBack i m').seqs i).numTokens = (s.seqs i).numTokens := by
            rw [hself]
            rfl
          have hle' : ((s.rolledBack i m').seqs i).numTokens -
              m'.cachedTokens ((s.rolledBack i m').seqs i) ≤
                s.config.maxNumBatchedTokens := hle
          omega
      · exact absurd hle hbudget

variable (eos) in
/-- From a state that does not fit, the loop goes on for ever. -/
theorem never_ends [CollisionFree D] (samples : ℕ → Scheduler D W → ScheduledSeq → TokenId)
    {k : ℕ} (h : Going s) (hgo : s.hasUnfinished = true) (hunfit : ¬ s.Fits) (n : ℕ) :
    ∃ s', Lib.loopFrom Scheduler.hasUnfinished (fun k => Scheduler.step eos (samples k)) k
      s n = .ok s' ∧ s'.hasUnfinished = true := by
  have hround : ∀ (k : ℕ) (s : Scheduler D W),
      (Going s ∧ s.hasUnfinished = true ∧ (TooBig s ∨ ¬ s.Fits)) →
      s.hasUnfinished = true ∧ ∃ s', s.step eos (samples k) = .ok s' ∧
        (Going s' ∧ s'.hasUnfinished = true ∧ (TooBig s' ∨ ¬ s'.Fits)) := by
    rintro k s ⟨h, hgo, hstuck⟩
    obtain ⟨out, s₁, s', hs, hok, hback⟩ := step_spec h.inv eos (samples k)
    have hgoing : Going s' := ⟨hback.inv, round_live h hs hback, round_short h hs hback⟩
    have hnext : TooBig s₁ ∨ (¬ s₁.Fits ∧ s₁.hasUnfinished = true ∧ out.sampled = []) := by
      rcases hstuck with hbig | hunfit
      · exact Or.inl ((StepRun.of_schedule h.inv hs).tooBig h.inv hbig)
      · exact unfit_step h hgo hunfit hs
    refine ⟨hgo, s', hok, hgoing, ?_⟩
    rcases hnext with hbig | ⟨hunfit₁, hgo₁, hnil⟩
    · have hbig' := hback.tooBig h.inv hs hbig
      have hqueued := hbig'
      obtain ⟨i, hi, -⟩ := hqueued
      exact ⟨unfinished_of_queued hback.inv hi, Or.inl hbig'⟩
    · rw [step_of_unsampled hs hnil] at hok
      cases hok
      exact ⟨hgo₁, Or.inr hunfit₁⟩
  obtain ⟨s', hn, -, hend, -⟩ :=
    Lib.loop_goes_on hround (k := k) ⟨h, hgo, Or.inr hunfit⟩ n
  exact ⟨s', hn, hend⟩

/-! ## §7  Nobody is forgotten -/

/-- A round keeps a sequence in flight or finishes it. -/
theorem round_keeps (h : Inv s) (hs : s.schedule = .ok (out, s₁))
    (hback : Feedback (stopRule eos) Scheduler.noCaps s₁
      (tokensFor (out.sampled.map fun item => (item.seq, sample s₁ item))) s')
    {i : SeqId} (hi : i ∈ s.inFlight ∨ (s.seqs i).status = .finished) :
    i ∈ s'.inFlight ∨ (s'.seqs i).status = .finished := by
  have hr := StepRun.of_schedule h hs
  rcases hi with hi | hfin
  · rcases mem_inFlight.mp ((hr.inFlight_perm h).mem_iff.mpr hi) with hrun | hqueued
    · by_cases hend : (s'.seqs i).status = .finished
      · exact Or.inr hend
      · exact Or.inl (mem_inFlight.mpr (Or.inl ((hback.running i).mpr ⟨hrun, hend⟩)))
    · left
      rw [mem_inFlight, hback.preempted_eq, hback.waiting_eq]
      exact Or.inr hqueued
  · exact Or.inr (hback.finished i (((hr.status h i).2).mpr hfin)).2.2.1

end TurboServe.Core
