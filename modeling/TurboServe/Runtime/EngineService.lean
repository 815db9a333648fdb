import TurboServe.Lib.Service
import TurboServe.Invariants.Answers

/-!
# The engine as a service

The rest of `LLMEngine` that its callers use, `abort`, `has_unfinished` and `step`, and the laws
these keep: requests are numbered by their sequences, an id in flight is one sequence's, and a
step answers it with deltas up to the one that says it has finished.
-/

namespace TurboServe.Runtime

open TurboServe.Core TurboServe.Lib

namespace LLMEngine

variable {D W : Type} [BlockDigest D] [DecidableEq D] [VirtualTime W]

/-! ## §1  The calls -/

/-- `abort`: cancel a request, and whether it was still in flight. -/
def abort (e : LLMEngine D W) (requestId : String) : Except Fault (Bool × LLMEngine D W) := do
  let r ← e.scheduler.abort requestId
  .ok (r.1, { e with
    scheduler := r.2
    decoders := Function.update e.decoders requestId none })

def hasUnfinished (e : LLMEngine D W) : Bool := e.scheduler.hasUnfinished

/-- `_process`, with the sequence each delta answers. -/
def answers (e : LLMEngine D W) :
    List (SeqId × TokenId) → Except Fault (List (SeqId × RequestOutput) × LLMEngine D W)
  | [] => .ok ([], e)
  | (i, tokenId) :: rest =>
      if (e.scheduler.seqs i).isFinished then answers e rest
      else do
        let one ← e.processToken i tokenId
        let more ← answers one.2 rest
        .ok ((i, one.1) :: more.1, more.2)

/-- `step`: `sample` stands for the forward pass and the sampler. -/
def step (e : LLMEngine D W) (sample : Scheduler D W → ScheduledSeq → TokenId) :
    Except Fault (List (SeqId × RequestOutput) × LLMEngine D W) := do
  let scheduled ← e.scheduler.schedule
  if scheduled.1.isEmpty then .ok ([], e.withScheduler scheduled.2)
  else
    (e.withScheduler scheduled.2).answers
      (scheduled.1.sampled.map fun item => (item.seq, sample scheduled.2 item))

/-- What `add_request` leaves when it raises. -/
def afterRefusal (e : LLMEngine D W) (r : Scheduler.Request) : LLMEngine D W :=
  if r.promptTokenIds = [] then e else e.withScheduler (e.scheduler.addRequest r).2

/-- What `AsyncLLMEngine` calls. -/
def service (D W : Type) [BlockDigest D] [DecidableEq D] [VirtualTime W] :
    Service (LLMEngine D W) Scheduler.Request String RequestOutput Fault
      (Scheduler D W → ScheduledSeq → TokenId) where
  key r := r.requestId
  about o := o.requestId
  last o := o.finished
  submit e r :=
    match e.addRequest r with
    | .ok (i, e') => (.ok i, e')
    | .error fault => (.error fault, e.afterRefusal r)
  abort := abort
  busy := hasUnfinished
  step := step

/-- The sequences only say what `_process` says. -/
theorem process_eq_answers (e : LLMEngine D W) (pairs : List (SeqId × TokenId)) :
    e.process pairs = (e.answers pairs).map fun r => (r.1.map Prod.snd, r.2) := by
  induction pairs generalizing e with
  | nil => rfl
  | cons p rest ih =>
      obtain ⟨i, tok⟩ := p
      rw [process, answers]
      split
      · exact ih e
      · cases e.processToken i tok with
        | error fault => rfl
        | ok one =>
            show (one.2.process rest >>= fun more => _) = _
            rw [ih]
            show _ = Except.map _ (one.2.answers rest >>= fun more => _)
            cases one.2.answers rest with
            | error fault => rfl
            | ok more => rfl

/-! ## §2  Requests in flight -/

section Laws

variable {e e' : LLMEngine D W} {i : SeqId}

omit [DecidableEq D] in
theorem getSequence_eq_some {s : Scheduler D W} (h : Inv s) {id : String} :
    s.getSequence id = some i ↔ i ∈ s.inFlight ∧ (s.seqs i).requestId = id := by
  rw [← h.mem_byRequest (p := (id, i))]
  refine ⟨getSequence_mem, fun hmem => ?_⟩
  cases hg : s.getSequence id with
  | none => exact absurd (List.mem_map_of_mem hmem) (getSequence_eq_none hg)
  | some j =>
      obtain ⟨hj, hjid⟩ := h.mem_byRequest.mp (getSequence_mem hg)
      obtain ⟨hi, hiid⟩ := h.mem_byRequest.mp hmem
      obtain rfl : i = j := h.requestId_inj hi hj (hiid.trans hjid.symm)
      rfl

omit [DecidableEq D] in
theorem getSequence_eq_none_iff {s : Scheduler D W} (h : Inv s) {id : String} :
    s.getSequence id = none ↔ ∀ i ∈ s.inFlight, (s.seqs i).requestId ≠ id := by
  constructor
  · intro hnone i hi hid
    rw [(getSequence_eq_some h).mpr ⟨hi, hid⟩] at hnone
    cases hnone
  · intro hall
    cases hg : s.getSequence id with
    | none => rfl
    | some i =>
        obtain ⟨hi, hid⟩ := (getSequence_eq_some h).mp hg
        exact absurd hid (hall i hi)

omit [DecidableEq D] in
/-- A sequence that leaves takes its id with it. -/
theorem getSequence_retired {s s' : Scheduler D W} {seq' : Sequence} (h : Inv s) (hinv : Inv s')
    (hr : Retired s i seq' s') (hi : i ∈ s.inFlight) :
    s'.getSequence = Function.update s.getSequence (s.seqs i).requestId none := by
  funext id
  rw [Function.update_apply]
  split
  · rename_i hid
    rw [hid, getSequence_eq_none_iff hinv]
    intro j hj hjid
    obtain ⟨hmem, hsame⟩ := hr.seqs_of_mem h hj
    rw [hsame] at hjid
    obtain rfl := h.requestId_inj hmem hi hjid
    rw [hr.inFlight_eq h] at hj
    exact h.nodup.not_mem_erase hj
  · rename_i hid
    refine Option.ext fun j => ?_
    rw [getSequence_eq_some hinv, getSequence_eq_some h, hr.inFlight_eq h, h.nodup.mem_erase_iff]
    have hsame : ∀ hj : j ≠ i, s'.seqs j = s.seqs j := fun hj => by
      rw [hr.seqs_eq, Function.update_of_ne hj]
    constructor
    · rintro ⟨⟨hj, hmem⟩, hjid⟩
      rw [hsame hj] at hjid
      exact ⟨hmem, hjid⟩
    · rintro ⟨hmem, hjid⟩
      have hj : j ≠ i := by
        rintro rfl
        exact hid hjid.symm
      rw [hsame hj]
      exact ⟨⟨hj, hmem⟩, hjid⟩

/-! ## §3  Arrival and aborts -/

/-- The sequence a request becomes. -/
structure Queued (e : LLMEngine D W) (r : Scheduler.Request) (i : SeqId) (e' : LLMEngine D W) :
    Prop where
  inv : Inv e'.scheduler
  fresh : i = e.scheduler.seqCounter
  counter_eq : e'.scheduler.seqCounter = i + 1
  free : e.scheduler.getSequence r.requestId = none
  job_eq : e'.scheduler.getSequence =
    Function.update e.scheduler.getSequence r.requestId (some i)
  prompt_eq : (e'.scheduler.seqs i).promptTokenIds = r.promptTokenIds
  output_eq : (e'.scheduler.seqs i).outputTokenIds = []
  others : ∀ j, j ≠ i → e'.scheduler.seqs j = e.scheduler.seqs j

omit [DecidableEq D] in
theorem addRequest_queued {r : Scheduler.Request} (h : Inv e.scheduler)
    (hadd : e.addRequest r = .ok (i, e')) : Queued e r i e' := by
  unfold LLMEngine.addRequest at hadd
  split at hadd
  · cases hadd
  rename_i hprompt
  split at hadd
  · cases hadd
  rename_i i' s' hsched
  cases hadd
  have hinv : Inv s' := by
    have hkept := addRequest_inv h r
    rwa [hsched] at hkept
  unfold Scheduler.addRequest at hsched
  split at hsched
  · cases hsched
  rename_i hfree
  simp only at hsched
  split at hsched
  · cases hsched
  rename_i seq hcreate
  split at hsched
  · cases hsched
  rename_i s'' hadd
  cases hsched
  obtain ⟨-, -, -, hs'⟩ := addSequence_ok hadd
  unfold Sequence.create at hcreate
  rw [dif_neg hprompt] at hcreate
  split at hcreate
  · cases hcreate
  cases hcreate
  subst hs'
  refine ⟨hinv, rfl, rfl, Option.not_isSome_iff_eq_none.mp hfree, ?_, ?_, ?_, ?_⟩
  · funext id
    have hnone : e.scheduler.getSequence r.requestId = none := Option.not_isSome_iff_eq_none.mp hfree
    show List.lookup id (e.scheduler.byRequest ++ [(r.requestId, e.scheduler.seqCounter)]) = _
    rw [List.lookup_append, Function.update_apply]
    split
    · rename_i hid
      rw [hid, show List.lookup r.requestId e.scheduler.byRequest = none from hnone]
      simp
    · rename_i hid
      have hother : (id == r.requestId) = false := beq_eq_false_iff_ne.mpr hid
      simp only [List.lookup, hother, Option.or_none]
      rfl
  · show (Function.update e.scheduler.seqs _ _ _).promptTokenIds = _
    rw [Function.update_self]
  · show (Function.update e.scheduler.seqs _ _ _).outputTokenIds = _
    rw [Function.update_self]
  · intro j hj
    exact Function.update_of_ne hj _ _

omit [BlockDigest D] [DecidableEq D] in
/-- A refusal costs a number at most. -/
theorem addRequest_refused {s s' : Scheduler D W} {r : Scheduler.Request} {fault : Fault}
    (h : s.addRequest r = (.error fault, s')) :
    ∃ c, s.seqCounter ≤ c ∧ s' = { s with seqCounter := c } := by
  unfold Scheduler.addRequest at h
  split at h
  · cases h
    exact ⟨_, le_rfl, rfl⟩
  simp only at h
  split at h
  · cases h
    exact ⟨_, Nat.le_succ _, rfl⟩
  · split at h
    · cases h
      exact ⟨_, Nat.le_succ _, rfl⟩
    · cases h

omit [DecidableEq D] in
theorem afterRefusal_spec {r : Scheduler.Request} {fault : Fault} (h : Inv e.scheduler)
    (hadd : e.addRequest r = .error fault) :
    Inv (e.afterRefusal r).scheduler ∧
      (e.afterRefusal r).scheduler.getSequence = e.scheduler.getSequence ∧
      e.scheduler.seqCounter ≤ (e.afterRefusal r).scheduler.seqCounter ∧
      (e.afterRefusal r).scheduler.seqs = e.scheduler.seqs := by
  unfold afterRefusal
  split
  · exact ⟨h, rfl, le_rfl, rfl⟩
  rename_i hprompt
  have hinv := addRequest_inv h r
  unfold LLMEngine.addRequest at hadd
  rw [if_neg hprompt] at hadd
  refine ⟨hinv, ?_⟩
  show (e.scheduler.addRequest r).2.getSequence = _ ∧
    _ ≤ (e.scheduler.addRequest r).2.seqCounter ∧ (e.scheduler.addRequest r).2.seqs = _
  split at hadd
  · rename_i s' hs
    obtain ⟨c, hc, rfl⟩ := addRequest_refused hs
    rw [hs]
    exact ⟨rfl, hc, rfl⟩
  · cases hadd

/-- An abort ends the sequence under the id, if there is one. -/
theorem abort_spec (h : Inv e.scheduler) (id : String) :
    ∃ was e', e.abort id = .ok (was, e') ∧ Inv e'.scheduler ∧
      e'.scheduler.getSequence = Function.update e.scheduler.getSequence id none ∧
      e'.scheduler.seqCounter = e.scheduler.seqCounter ∧
      ∀ j, (e'.scheduler.seqs j).promptTokenIds = (e.scheduler.seqs j).promptTokenIds ∧
        (e'.scheduler.seqs j).outputTokenIds = (e.scheduler.seqs j).outputTokenIds := by
  unfold abort
  rcases Core.abort_spec h id with ⟨hnone, hok⟩ | ⟨i, s', hsome, hi, hok, hinv, hr⟩
  · rw [hok]
    refine ⟨_, _, rfl, h, ?_, rfl, fun j => ⟨rfl, rfl⟩⟩
    exact (Function.update_eq_self_iff.mpr hnone.symm).symm
  · rw [hok]
    refine ⟨_, _, rfl, hinv, ?_, hr.counter_eq, fun j => ?_⟩
    · obtain ⟨-, hid⟩ := (getSequence_eq_some h).mp hsome
      rw [← hid]
      exact getSequence_retired h hinv hr hi
    · show (s'.seqs j).promptTokenIds = _ ∧ (s'.seqs j).outputTokenIds = _
      rw [hr.seqs_eq]
      by_cases hj : j = i
      · rw [hj, Function.update_self]
        exact ⟨rfl, rfl⟩
      · rw [Function.update_of_ne hj]
        exact ⟨rfl, rfl⟩

/-! ## §4  A step -/

theorem finish_counter {s s' : Scheduler D W} {reason : FinishReason} {tok : Option TokenId}
    (h : s.finish i reason tok = .ok s') : s'.seqCounter = s.seqCounter := by
  unfold Scheduler.finish at h
  cases hfree : s.blockManager.free ((s.seqs i).finish reason tok) with
  | error fault =>
      rw [hfree] at h
      cases h
  | ok freed =>
      rw [hfree] at h
      cases h
      show (Scheduler.detach _ i).seqCounter = _
      unfold Scheduler.detach
      simp only
      split
      · rfl
      · split <;> rfl

theorem appendToken_counter {s : Scheduler D W} {tok : TokenId} {eos : Option TokenId}
    {r : Option FinishReason × Scheduler D W} (h : s.appendToken i tok eos = .ok r) :
    r.2.seqCounter = s.seqCounter := by
  unfold Scheduler.appendToken at h
  cases happend : (s.seqs i).appendToken tok with
  | error fault =>
      rw [happend] at h
      cases h
  | ok seq =>
      rw [happend] at h
      simp only [bind, Except.bind] at h
      split at h
      · cases h
        rfl
      · rename_i reason _
        cases hfinish : (s.setSeq i seq).finish i reason
            (if reason = .stop then some tok else none) with
        | error fault =>
            rw [hfinish] at h
            cases h
        | ok s' =>
            rw [hfinish] at h
            cases h
            exact finish_counter (s := s.setSeq i seq) hfinish

/-- The delta of a token is made of the sequence as the token has left it. -/
theorem emit_output {tok : TokenId} {reason : Option FinishReason} {o : RequestOutput}
    (h : e.emit i tok reason = .ok (o, e')) :
    o.finished = (e'.scheduler.seqs i).isFinished ∧
      e'.scheduler.seqCounter = e.scheduler.seqCounter := by
  unfold emit at h
  simp only at h
  split at h
  · cases hfinish : e.scheduler.finish i .stop none with
    | error fault =>
        rw [hfinish] at h
        cases h
    | ok s' =>
        rw [hfinish] at h
        cases h
        exact ⟨rfl, finish_counter hfinish⟩
  · cases h
    exact ⟨rfl, rfl⟩
  · cases h
    exact ⟨rfl, rfl⟩
  · cases h
    exact ⟨rfl, rfl⟩

theorem processToken_output {tok : TokenId} {o : RequestOutput}
    (h : e.processToken i tok = .ok (o, e')) :
    o.finished = (e'.scheduler.seqs i).isFinished ∧
      e'.scheduler.seqCounter = e.scheduler.seqCounter := by
  unfold processToken at h
  cases happend : e.scheduler.appendToken i tok none with
  | error fault =>
      rw [happend] at h
      cases h
  | ok r =>
      rw [happend] at h
      have hcounter : r.2.seqCounter = e.scheduler.seqCounter := appendToken_counter happend
      obtain ⟨reason, s₁⟩ := r
      cases reason with
      | some reason =>
          obtain ⟨hfin, hcount⟩ := emit_output (e := e.withScheduler s₁) h
          exact ⟨hfin, hcount.trans hcounter⟩
      | none =>
          simp only [bind, Except.bind] at h
          split at h
          · cases hfinish : s₁.finish i .stop (some tok) with
            | error fault =>
                rw [hfinish] at h
                cases h
            | ok s₂ =>
                rw [hfinish] at h
                obtain ⟨hfin, hcount⟩ := emit_output (e := e.withScheduler s₂) h
                exact ⟨hfin, hcount.trans ((finish_counter hfinish).trans hcounter)⟩
          · obtain ⟨hfin, hcount⟩ := emit_output (e := e.withScheduler s₁) h
            exact ⟨hfin, hcount.trans hcounter⟩

omit [DecidableEq D] in
/-- One token of a sequence in flight, as a batch of one delta. -/
theorem answered_batch {tok : TokenId} {o : RequestOutput} (h : Inv e.scheduler)
    (hi : i ∈ e.scheduler.inFlight) (ha : Answered e i tok o e')
    (hfinished : o.finished = (e'.scheduler.seqs i).isFinished) :
    Batch RequestOutput.requestId RequestOutput.finished e.scheduler.getSequence [(i, o)]
      e'.scheduler.getSequence := by
  have hown : e.scheduler.getSequence (e.scheduler.seqs i).requestId = some i :=
    (getSequence_eq_some h).mpr ⟨hi, rfl⟩
  have hfilter : ([(i, o)] : List (SeqId × RequestOutput)).filter (fun p => decide (p.1 = i)) =
      [(i, o)] := by
    simp
  refine ⟨?_, ?_, ?_⟩
  · intro p hp
    obtain rfl := List.mem_singleton.mp hp
    show e.scheduler.getSequence o.requestId = some i
    rw [ha.requestId_eq]
    exact hown
  · intro id j hj
    obtain ⟨hmem, hid⟩ := (getSequence_eq_some ha.inv).mp hj
    by_cases hji : j = i
    · subst hji
      rw [ha.same.request_eq] at hid
      refine ⟨(getSequence_eq_some h).mpr ⟨hi, hid⟩, fun p hp _ => ?_⟩
      obtain rfl := List.mem_singleton.mp hp
      show o.finished = false
      rw [hfinished]
      exact ha.inv.not_finished hmem
    · rw [ha.inFlight j hji] at hmem
      rw [ha.others j hji] at hid
      refine ⟨(getSequence_eq_some h).mpr ⟨hmem, hid⟩, fun p hp hpid => ?_⟩
      obtain rfl := List.mem_singleton.mp hp
      -- another id than the token's
      refine absurd (h.requestId_inj hmem hi (hid.trans ?_)) hji
      rw [← ha.requestId_eq]
      exact hpid.symm
  · intro id j hj hnone
    obtain ⟨hmem, hid⟩ := (getSequence_eq_some h).mp hj
    rw [getSequence_eq_none_iff ha.inv] at hnone
    by_cases hji : j = i
    · subst hji
      rw [hfilter]
      refine concluded_singleton ?_
      show o.finished = true
      rw [hfinished]
      cases hend : e.endOf j tok with
      | none =>
          refine absurd ?_ (hnone j (ha.going hend).1)
          rw [ha.same.request_eq]
          exact hid
      | some reason => exact (ha.ended reason hend).1
    · refine absurd ?_ (hnone j ((ha.inFlight j hji).mpr hmem))
      rw [ha.others j hji]
      exact hid

/-- What the tokens of a step are answered with. -/
structure Answers (e : LLMEngine D W) (os : List (SeqId × RequestOutput)) (e' : LLMEngine D W) :
    Prop where
  inv : Inv e'.scheduler
  batch : Batch RequestOutput.requestId RequestOutput.finished e.scheduler.getSequence os
    e'.scheduler.getSequence
  counter_eq : e'.scheduler.seqCounter = e.scheduler.seqCounter
  prompt_eq : ∀ j, (e'.scheduler.seqs j).promptTokenIds = (e.scheduler.seqs j).promptTokenIds
  output_eq : ∀ j, (e'.scheduler.seqs j).outputTokenIds = (e.scheduler.seqs j).outputTokenIds ++
    (os.filter fun p => decide (p.1 = j)).flatMap fun p => p.2.newTokenIds

omit [DecidableEq D] in
theorem getSequence_inj {s : Scheduler D W} (h : Inv s) {id id' : String} {j : SeqId}
    (hj : s.getSequence id = some j) (hj' : s.getSequence id' = some j) : id = id' :=
  ((getSequence_eq_some h).mp hj).2.symm.trans ((getSequence_eq_some h).mp hj').2

omit [DecidableEq D] in
theorem Answers.nil (h : Inv e.scheduler) : Answers e [] e :=
  ⟨h, .nil, rfl, fun _ => rfl, fun _ => (List.append_nil _).symm⟩

omit [DecidableEq D] in
theorem Answers.append {e'' : LLMEngine D W} {os os' : List (SeqId × RequestOutput)}
    (h : Inv e.scheduler) (h₁ : Answers e os e') (h₂ : Answers e' os' e'') :
    Answers e (os ++ os') e'' where
  inv := h₂.inv
  batch := h₁.batch.append h₂.batch fun _ _ _ => getSequence_inj h
  counter_eq := h₂.counter_eq.trans h₁.counter_eq
  prompt_eq j := (h₂.prompt_eq j).trans (h₁.prompt_eq j)
  output_eq j := by
    rw [h₂.output_eq, h₁.output_eq, List.filter_append, List.flatMap_append, List.append_assoc]

theorem Answers.token {tok : TokenId} {o : RequestOutput} (h : Inv e.scheduler)
    (hi : i ∈ e.scheduler.inFlight) (hok : e.processToken i tok = .ok (o, e'))
    (ha : Answered e i tok o e') : Answers e [(i, o)] e' := by
  obtain ⟨hfinished, hcounter⟩ := processToken_output hok
  refine ⟨ha.inv, answered_batch h hi ha hfinished, hcounter, fun j => ?_, fun j => ?_⟩
  · by_cases hji : j = i
    · rw [hji]
      exact ha.same.prompt_eq
    · rw [ha.others j hji]
  · by_cases hji : j = i
    · subst hji
      rw [ha.output_eq, ← ha.tokens_eq]
      simp
    · rw [ha.others j hji]
      simp [Ne.symm hji]

/-- Tokens for sequences in flight are always answered. -/
theorem answers_spec {pairs : List (SeqId × TokenId)} (h : Inv e.scheduler)
    (hknown : ∀ q ∈ pairs,
      q.1 ∈ e.scheduler.inFlight ∨ (e.scheduler.seqs q.1).isFinished = true) :
    ∃ os e', e.answers pairs = .ok (os, e') ∧ Answers e os e' := by
  induction pairs generalizing e with
  | nil => exact ⟨[], e, rfl, .nil h⟩
  | cons q rest ih =>
      obtain ⟨j, tok⟩ := q
      rw [answers]
      have hrest := fun q hq => hknown q (List.mem_cons_of_mem _ hq)
      split
      · exact ih h hrest
      · rename_i hfin
        have hfly : j ∈ e.scheduler.inFlight :=
          (hknown (j, tok) List.mem_cons_self).resolve_right hfin
        obtain ⟨o, e₁, hok, ha⟩ := processToken_spec h hfly tok
        have hknown' : ∀ q ∈ rest,
            q.1 ∈ e₁.scheduler.inFlight ∨ (e₁.scheduler.seqs q.1).isFinished = true := by
          intro q hq
          by_cases hqj : q.1 = j
          · rw [hqj]
            cases hend : e.endOf j tok with
            | none => exact Or.inl (ha.going hend).1
            | some reason => exact Or.inr (ha.ended reason hend).1
          · rw [ha.inFlight _ hqj, ha.others _ hqj]
            exact hrest q hq
        obtain ⟨os, e', hmore, hanswers⟩ := ih ha.inv hknown'
        refine ⟨(j, o) :: os, e', ?_, (Answers.token h hfly hok ha).append h hanswers⟩
        rw [hok]
        show (e₁.answers rest >>= _) = _
        rw [hmore]
        rfl

/-- A step never fails. -/
theorem step_spec (h : Inv e.scheduler) (sample : Scheduler D W → ScheduledSeq → TokenId) :
    ∃ os e', e.step sample = .ok (os, e') ∧ Answers e os e' := by
  obtain ⟨out, s₁, hs, hrun⟩ := schedule_spec h
  obtain ⟨-, hrequests, hcounter, hseqs⟩ := hrun.same h
  -- scheduling answers nobody
  have hscheduled : Answers e [] (e.withScheduler s₁) := by
    refine ⟨hrun.inv h, ?_, hcounter, fun j => (hseqs j).1, fun j => ?_⟩
    · have hsame : (e.withScheduler s₁).scheduler.getSequence = e.scheduler.getSequence := by
        funext id
        show s₁.byRequest.lookup id = _
        rw [hrequests]
        rfl
      rw [hsame]
      exact .nil
    · rw [List.filter_nil, List.flatMap_nil, List.append_nil]
      exact (hseqs j).2.1
  unfold step
  rw [hs]
  show ∃ os e', (if out.isEmpty then _ else _) = Except.ok (os, e') ∧ _
  split
  · exact ⟨[], _, rfl, hscheduled⟩
  · have hknown : ∀ q ∈ out.sampled.map fun item => (item.seq, sample s₁ item),
        q.1 ∈ s₁.inFlight ∨ (s₁.seqs q.1).isFinished = true := by
      intro q hq
      obtain ⟨item, hitem, rfl⟩ := List.mem_map.mp hq
      exact Or.inl (mem_inFlight.mpr (Or.inl ((sampled_spec h hs).2 item hitem)))
    obtain ⟨os, e', hok, hanswers⟩ := answers_spec (e := e.withScheduler s₁) (hrun.inv h) hknown
    exact ⟨os, e', hok, hscheduled.append h hanswers⟩

/-! ## §5  The laws -/

theorem submit_eq_ok {r : Scheduler.Request} (h : (service D W).submit e r = (.ok i, e')) :
    e.addRequest r = .ok (i, e') := by
  unfold service at h
  simp only at h
  split at h
  · rename_i j e₁ hadd
    obtain ⟨hj, rfl⟩ := Prod.mk.inj h
    rw [hadd, Except.ok.inj hj]
  · cases h

theorem submit_eq_error {r : Scheduler.Request} {fault : Fault}
    (h : (service D W).submit e r = (.error fault, e')) :
    e.addRequest r = .error fault ∧ e' = e.afterRefusal r := by
  unfold service at h
  simp only at h
  split at h
  · cases h
  · rename_i fault' hadd
    obtain ⟨hf, rfl⟩ := Prod.mk.inj h
    rw [hadd, Except.error.inj hf]
    exact ⟨rfl, rfl⟩

/-- The engine is a lawful service. -/
theorem service_lawful : (service D W).Lawful (fun e => Inv e.scheduler)
    (fun e => e.scheduler.getSequence) (fun e => e.scheduler.seqCounter) where
  submit_ok {e e' r j} h hok := by
    have hq := addRequest_queued h (submit_eq_ok hok)
    exact ⟨hq.inv, hq.free, hq.job_eq, hq.fresh.ge, by rw [hq.counter_eq]; exact Nat.lt_succ_self j⟩
  submit_error {e e' r f} h herr := by
    obtain ⟨hadd, rfl⟩ := submit_eq_error herr
    obtain ⟨hinv, hjob, hcounter, -⟩ := afterRefusal_spec h hadd
    exact ⟨hinv, hjob, hcounter⟩
  abort {e} id h := by
    obtain ⟨was, e', hok, hinv, hjob, hcounter, -⟩ := abort_spec h id
    exact ⟨was, e', hok, hinv, hjob, hcounter⟩
  step {e e' sample os} h hok := by
    obtain ⟨os', e'', hok', hanswers⟩ := step_spec h sample
    obtain ⟨rfl, rfl⟩ := Prod.mk.inj (Except.ok.inj (hok.symm.trans hok'))
    exact ⟨hanswers.inv, hanswers.batch, hanswers.counter_eq⟩
  busy {e} h hbusy id := by
    have hempty : e.scheduler.byRequest = [] := by
      have hbusy' : (!e.scheduler.byRequest.isEmpty) = false := hbusy
      rw [Bool.not_eq_false'] at hbusy'
      exact List.isEmpty_iff.mp hbusy'
    show List.lookup id e.scheduler.byRequest = none
    rw [hempty]
    rfl
  job_lt {e id j} h hj := h.counter j ((getSequence_eq_some h).mp hj).1
  job_inj {e id id' j} h hj hj' := getSequence_inj h hj hj'

end Laws

end LLMEngine

end TurboServe.Runtime
