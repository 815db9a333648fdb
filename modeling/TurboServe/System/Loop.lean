import TurboServe.Invariants.Feedback
import TurboServe.System.Emissions

/-!
# Rounds of the step loop

A round is `schedule()` and the feedback of what the batch sampled. Here is what
every round does, and what it keeps: the rounds never fail, each sequence's
output stays on the path of its own generation as long as the tokens fed are the
ones generation would draw.
-/

namespace TurboServe.Core

variable {D W : Type} [BlockDigest D] [DecidableEq D] [VirtualTime W]

/-! ## §1  The protocol's round -/

theorem tokensFor_of_mem {pairs : List (SeqId × TokenId)}
    (hnd : (pairs.map Prod.fst).Nodup) {i : SeqId} {tok : TokenId}
    (hmem : (i, tok) ∈ pairs) : tokensFor pairs i = [tok] := by
  induction pairs with
  | nil => cases hmem
  | cons p rest ih =>
      obtain ⟨hnot, hrest⟩ := List.nodup_cons.mp hnd
      rcases List.mem_cons.mp hmem with rfl | hmem
      · rw [tokensFor_cons_self]
        have hnone : tokensFor rest i = [] := by
          rw [tokensFor, List.map_eq_nil_iff, List.filter_eq_nil_iff]
          intro q hq hqi
          have hin : q.1 ∈ rest.map Prod.fst := List.mem_map_of_mem hq
          rw [of_decide_eq_true hqi] at hin
          exact hnot hin
        rw [hnone]
      · have hne : i ≠ p.1 := fun heq => by
          have hin : i ∈ rest.map Prod.fst := List.mem_map_of_mem (f := Prod.fst) hmem
          exact hnot (heq ▸ hin)
        rw [show p = (p.1, p.2) from rfl, tokensFor_cons_of_ne hne]
        exact ih hrest hmem

theorem tokensFor_ne_nil {pairs : List (SeqId × TokenId)} {i : SeqId} :
    tokensFor pairs i ≠ [] ↔ i ∈ pairs.map Prod.fst := by
  rw [tokensFor, Ne, List.map_eq_nil_iff, List.filter_eq_nil_iff]
  simp only [decide_eq_true_eq, not_forall, not_not, List.mem_map]
  constructor
  · rintro ⟨p, hp, heq⟩
    exact ⟨p, hp, heq⟩
  · rintro ⟨p, hp, heq⟩
    exact ⟨p, hp, heq⟩

variable {s s₁ s' : Scheduler D W} {out : SchedulerOutput}

/-- The sampling entries of a batch: one each for different running sequences. -/
theorem sampled_spec (h : Inv s) (hs : s.schedule = .ok (out, s₁)) :
    (out.sampled.map (·.seq)).Nodup ∧ ∀ item ∈ out.sampled, item.seq ∈ s₁.running := by
  have hrun := StepRun.of_schedule h hs
  obtain ⟨acc, rfl, hstep⟩ := hrun.stepInv h
  refine ⟨?_, fun item hitem =>
    (hstep.entries item (List.mem_of_mem_filter hitem)).running⟩
  have hnd : (acc.entries.map (·.seq)).Nodup := hstep.ids.nodup_iff.mpr hstep.nodup
  exact hnd.sublist (List.filter_sublist.map _)

/-- One round of the protocol never fails, and feeds one token to each sampling
entry. -/
theorem step_spec (h : Inv s) (eos : Option TokenId)
    (sample : Scheduler D W → ScheduledSeq → TokenId) :
    ∃ out s₁ s', s.schedule = .ok (out, s₁) ∧ s.step eos sample = .ok s' ∧
      Feedback (stopRule eos) Scheduler.noCaps s₁
        (tokensFor (out.sampled.map fun item => (item.seq, sample s₁ item))) s' := by
  obtain ⟨out, s₁, hs, hrun⟩ := schedule_spec h
  obtain ⟨hnd, hrunning⟩ := sampled_spec h hs
  have hfst : (out.sampled.map fun item => (item.seq, sample s₁ item)).map Prod.fst =
      out.sampled.map (·.seq) := by
    rw [List.map_map]
    rfl
  have hall : ∀ p ∈ out.sampled.map fun item => (item.seq, sample s₁ item),
      p.1 ∈ s₁.running := by
    intro p hp
    obtain ⟨item, hitem, rfl⟩ := List.mem_map.mp hp
    exact hrunning item hitem
  have hcaps : CapsOk Scheduler.noCaps s₁ := fun _ _ hcap => by cases hcap
  obtain ⟨s', hok, hback⟩ := feedAll_spec (protocolToken_feeds eos) _ (hrun.inv h) hcaps
    (fun p hp => Or.inl (hall p hp)) (Or.inr ⟨hfst ▸ hnd, hall⟩)
  refine ⟨out, s₁, s', hs, ?_, hback⟩
  simp only [Scheduler.step, hs, bind, Except.bind]
  exact hok

theorem fed_of_sampled (h : Inv s) (hs : s.schedule = .ok (out, s₁))
    (sample : Scheduler D W → ScheduledSeq → TokenId) {item : ScheduledSeq}
    (hitem : item ∈ out.sampled) :
    tokensFor (out.sampled.map fun item => (item.seq, sample s₁ item)) item.seq =
      [sample s₁ item] := by
  obtain ⟨hnd, -⟩ := sampled_spec h hs
  refine tokensFor_of_mem ?_ (List.mem_map_of_mem hitem)
  rw [List.map_map]
  exact hnd

/-! ## §2  What a step leaves of a finished sequence -/

omit [DecidableEq D] in
/-- Whether a sequence is finished, and why, is not the step's business. -/
theorem Micro.status {x y : Scheduler D W × StepAcc} (hm : Micro x y)
    (h : StepInv x.1 x.2) (j : SeqId) :
    (y.1.seqs j).finishReason = (x.1.seqs j).finishReason ∧
      ((y.1.seqs j).status = .finished ↔ (x.1.seqs j).status = .finished) := by
  have hupd : ∀ (seqs : SeqId → Sequence) (i : SeqId) (seq' : Sequence),
      seq'.finishReason = (seqs i).finishReason →
      (seq'.status = .finished ↔ (seqs i).status = .finished) →
      (Function.update seqs i seq' j).finishReason = (seqs j).finishReason ∧
        ((Function.update seqs i seq' j).status = .finished ↔
          (seqs j).status = .finished) := by
    intro seqs i seq' h₁ h₂
    by_cases hji : j = i
    · rw [hji, Function.update_self]
      exact ⟨h₁, h₂⟩
    · rw [Function.update_of_ne hji]
      exact ⟨rfl, Iff.rfl⟩
  cases hm with
  | @preempt s acc v m' hv hnew hframe hmanager hidx =>
      refine hupd s.seqs v (s.seqs v).resetForRecompute rfl ?_
      have hst : (s.seqs v).status = .running := h.inv.running_status v hv
      rw [hst]
      simp [Sequence.resetForRecompute]
  | @enter s acc i rest q' n m' seq' hpop hnow hbudget hcan hmay hadopted hframe hmanager
      hidx =>
      have heq := hadopted.seq_eq
      refine hupd s.seqs i { seq' with status := .running } (by rw [heq]) ?_
      have hnf := h.inv.not_finished (inFlight_of_queued (hpop.spec h.inv).1)
      simp only [Sequence.isFinished, decide_eq_false_iff_not] at hnf
      simp [hnf]
  | @grow s acc i n slots m' seq' item hi hnew hbudget hn hmay hgrown hframe hmanager
      hitem =>
      have heq := hgrown.seq_eq
      exact hupd s.seqs i (advanced seq' n) (by rw [heq]) (by rw [heq])
  | @rollback s acc i m' hi hframe hmanager hidx =>
      exact hupd s.seqs i { s.seqs i with numCachedPromptTokens := 0 } rfl Iff.rfl

omit [DecidableEq D] in
theorem StepRun.status (hr : StepRun s out s') (h : Inv s) (j : SeqId) :
    (s'.seqs j).finishReason = (s.seqs j).finishReason ∧
      ((s'.seqs j).status = .finished ↔ (s.seqs j).status = .finished) := by
  cases hr with
  | intro m₀ s₁ acc hpub hrun =>
      refine Micros.induct (P := fun t _ =>
        (t.seqs j).finishReason = (s.seqs j).finishReason ∧
          ((t.seqs j).status = .finished ↔ (s.seqs j).status = .finished))
        (fun x y hm hinv hx => ?_) hrun (StepInv.init (hpub.inv h)) ⟨rfl, Iff.rfl⟩
      have hy := hm.status hinv j
      exact ⟨hy.1.trans hx.1, hy.2.trans hx.2⟩

omit [DecidableEq D] in
theorem StepRun.sameRequest (hr : StepRun s out s') (h : Inv s) (j : SeqId) :
    SameRequest (s.seqs j) (s'.seqs j) ∧ SameText (s.seqs j) (s'.seqs j) := by
  obtain ⟨hp, ho, hsamp, hl, hrid⟩ := (hr.same h).2.2.2 j
  exact ⟨⟨hp, hsamp, hl, hrid⟩, ⟨hp, ho⟩⟩

/-! ## §3  Outputs on the path -/

/-- The next token a deterministic model draws for a request, from everything
before it. -/
abbrev NextToken : Type := ℤ → SamplingParams → List TokenId → TokenId

/-- The output of a sequence is on the path of its own generation, and it has
stopped exactly when the sequence is finished. -/
structure Decoded (next : NextToken) (stop : StopRule) (seq : Sequence) : Prop where
  path : Lib.OnPath (next seq.loraId seq.sampling) (stop seq.sampling)
    seq.promptTokenIds seq.outputTokenIds
  going : seq.status ≠ .finished →
    seq.outputTokenIds = [] ∨ stop seq.sampling seq.outputTokenIds = none
  ended : seq.status = .finished → seq.outputTokenIds ≠ [] ∧
    ∃ reason, seq.finishReason = some reason ∧
      stop seq.sampling seq.outputTokenIds = some reason

variable {next : NextToken} {stop : StopRule}

theorem Decoded.congr {seq seq' : Sequence} (h : Decoded next stop seq)
    (hsame : SameRequest seq seq') (hout : seq'.outputTokenIds = seq.outputTokenIds)
    (hreason : seq'.finishReason = seq.finishReason)
    (hstatus : seq'.status = .finished ↔ seq.status = .finished) :
    Decoded next stop seq' := by
  constructor
  · rw [hsame.lora_eq, hsame.sampling_eq, hsame.prompt_eq, hout]
    exact h.path
  · intro hne
    rw [hsame.sampling_eq, hout]
    exact h.going fun hfin => hne (hstatus.mpr hfin)
  · intro hfin
    rw [hsame.sampling_eq, hout, hreason]
    exact h.ended (hstatus.mp hfin)

/-- A fed sequence stays on its path when it is fed what generation draws. -/
theorem SeqFed.decoded {caps : SeqId → Option ℕ} {i : SeqId} {toks : List TokenId}
    {seq seq' : Sequence} (hfed : SeqFed stop caps i toks seq seq')
    (h : Decoded next stop seq) (hrun : seq.status ≠ .finished)
    (hdraws : Lib.Draws (next seq.loraId seq.sampling) seq.promptTokenIds
      seq.outputTokenIds toks) : Decoded next stop seq' := by
  have hgo := h.going hrun
  have hpath := h.path.feedUntil hgo toks hdraws
  rw [← hfed.output_eq] at hpath
  cases toks with
  | nil =>
      have hout : seq'.outputTokenIds = seq.outputTokenIds := hfed.output_eq
      obtain ⟨hst, -⟩ := hfed.going rfl
      constructor
      · rw [hfed.same.lora_eq, hfed.same.sampling_eq, hfed.same.prompt_eq]
        exact hpath
      · intro _
        rw [hfed.same.sampling_eq, hout]
        exact hgo
      · intro hfin
        exact absurd (hst ▸ hfin) hrun
  | cons tok rest =>
      obtain ⟨more, hout, hne, hstop, -⟩ :=
        @Lib.feedUntil_spec _ _ (stop seq.sampling) seq.outputTokenIds tok rest
      have hout' : seq'.outputTokenIds = seq.outputTokenIds ++ more :=
        hfed.output_eq.trans hout
      constructor
      · rw [hfed.same.lora_eq, hfed.same.sampling_eq, hfed.same.prompt_eq]
        exact hpath
      · intro hnf
        right
        rw [hfed.same.sampling_eq, hout', hstop]
        cases hr : (Lib.feedUntil (stop seq.sampling) seq.outputTokenIds
            (tok :: rest)).2 with
        | none => rfl
        | some reason => exact absurd (hfed.ended reason hr).1 hnf
      · intro hfin
        refine ⟨by rw [hout']; simp [hne], ?_⟩
        cases hr : (Lib.feedUntil (stop seq.sampling) seq.outputTokenIds
            (tok :: rest)).2 with
        | none => exact absurd ((hfed.going hr).1 ▸ hfin) hrun
        | some reason =>
            refine ⟨reason, (hfed.ended reason hr).2, ?_⟩
            rw [hfed.same.sampling_eq, hout', hstop, hr]

/-- A round keeps every sequence on its path, when what it feeds is what
generation draws next. -/
theorem Feedback.decoded {caps : SeqId → Option ℕ} {fed : SeqId → List TokenId}
    (h : Inv s) (hs : s.schedule = .ok (out, s₁))
    (hback : Feedback stop caps s₁ fed s')
    (hdraws : ∀ j ∈ s₁.running, Lib.Draws (next (s₁.seqs j).loraId (s₁.seqs j).sampling)
      (s₁.seqs j).promptTokenIds (s₁.seqs j).outputTokenIds (fed j))
    (hfed : ∀ j, fed j ≠ [] → j ∈ s₁.running)
    (hd : ∀ j, Decoded next stop (s.seqs j)) (j : SeqId) :
    Decoded next stop (s'.seqs j) := by
  have hrun := StepRun.of_schedule h hs
  have h₁ := hrun.inv h
  obtain ⟨hreq, htext⟩ := hrun.sameRequest h j
  obtain ⟨hreason, hstatus⟩ := hrun.status h j
  have hd₁ : Decoded next stop (s₁.seqs j) :=
    (hd j).congr hreq htext.output_eq hreason hstatus
  by_cases hj : j ∈ s₁.running
  · refine (hback.fedSeq j hj).decoded hd₁ ?_ (hdraws j hj)
    rw [h₁.running_status j hj]
    simp
  · have hnone : fed j = [] := by
      by_contra hne
      exact hj (hfed j hne)
    rw [hback.others j hnone]
    exact hd₁

/-- A finished sequence's output is what one-request-at-a-time generation
returns. -/
theorem Decoded.result {seq : Sequence} (h : Decoded next stop seq)
    (hbound : stop.Bounded) (hfin : seq.status = .finished) :
    ∃ reason, seq.finishReason = some reason ∧
      Lib.autoregress (next seq.loraId seq.sampling) (stop seq.sampling)
        seq.promptTokenIds seq.sampling.maxTokens [] =
          some (seq.outputTokenIds, reason) := by
  obtain ⟨hne, reason, hreason, hstop⟩ := h.ended hfin
  refine ⟨reason, hreason, h.path.result hne hstop ?_⟩
  -- the output before its last token had not stopped, so it was short
  have hpath := h.path
  generalize hout : seq.outputTokenIds = l at hpath hne
  cases hpath with
  | nil => exact absurd rfl hne
  | @snoc before hbefore hgo =>
      rw [List.length_append, List.length_singleton]
      rcases hgo with rfl | hgo
      · simpa using seq.sampling.one_le_maxTokens
      · by_cases hnil : before = []
        · rw [hnil]
          simpa using seq.sampling.one_le_maxTokens
        · exact hbound _ _ hnil hgo

omit [DecidableEq D] in
omit [BlockDigest D] in
/-- A sequence is as it was, or it is newly queued and has generated nothing. -/
theorem addRequest_seq (s : Scheduler D W) (r : Scheduler.Request) (j : SeqId) :
    (s.addRequest r).2.seqs j = s.seqs j ∨
      ((s.addRequest r).2.seqs j).outputTokenIds = [] ∧
        ((s.addRequest r).2.seqs j).status = .waiting := by
  unfold Scheduler.addRequest
  split
  · exact Or.inl rfl
  · simp only
    split
    · exact Or.inl rfl
    · next seq hseq =>
        split
        · exact Or.inl rfl
        · next s'' hadd =>
            obtain ⟨-, -, -, rfl⟩ := addSequence_ok hadd
            have hnil : seq.outputTokenIds = [] := by
              unfold Sequence.create at hseq
              split at hseq
              · cases hseq
              · split at hseq
                · cases hseq
                · cases hseq
                  rfl
            by_cases hji : j = seq.seqId
            · right
              rw [hji]
              show (Function.update s.seqs seq.seqId { seq with status := .waiting }
                seq.seqId).outputTokenIds = [] ∧ (Function.update s.seqs seq.seqId
                  { seq with status := .waiting } seq.seqId).status = .waiting
              rw [Function.update_self]
              exact ⟨hnil, rfl⟩
            · exact Or.inl (Function.update_of_ne hji _ _)

theorem Decoded.idle {seq : Sequence} (hout : seq.outputTokenIds = [])
    (hstatus : seq.status = .waiting) : Decoded next stop seq := by
  refine ⟨?_, fun _ => Or.inl hout, fun hf => ?_⟩
  · rw [hout]
    exact .nil
  · rw [hstatus] at hf
    cases hf

omit [DecidableEq D] in
omit [BlockDigest D] in
/-- A newly queued sequence has generated nothing. -/
theorem addRequest_decoded (h : ∀ j, Decoded next stop (s.seqs j)) (r : Scheduler.Request)
    (j : SeqId) : Decoded next stop ((s.addRequest r).2.seqs j) := by
  rcases addRequest_seq s r j with hsame | ⟨hout, hstatus⟩
  · rw [hsame]
    exact h j
  · exact .idle hout hstatus

end TurboServe.Core
