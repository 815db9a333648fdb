import TurboServe.Properties.Invisible
import TurboServe.Spec.Tracking
import TurboServe.Spec.Verifier

/-!
# Greedy speculation is invisible

The target is any function from the tokens so far to logits. Whatever is drafted, a greedy
verification emits the tokens generation would draw next, so every output stays on the path of
its own generation, and ends where the plain engine's ends.
-/

namespace TurboServe.Spec

open TurboServe.Core Model SpecWorld

/-! ## §1  The target -/

/-- A deterministic target: the logits after the tokens so far, as a request's adapter and
parameters leave them. -/
structure Target (K : Type) where
  vocab : ℕ
  logits : ℤ → SamplingParams → List TokenId → ℕ → WithBot K

namespace Target

variable {K : Type} [Field K] [LinearOrder K] (t : Target K)

def token (lora : ℤ) (params : SamplingParams) (tokens : List TokenId) : ℕ :=
  argmax ((List.range t.vocab).map (t.logits lora params tokens))

/-- The token a plain greedy step picks. -/
def next : NextToken := fun lora params tokens => (t.token lora params tokens : TokenId)

variable {D W : Type} [BlockDigest D] [DecidableEq D] [VirtualTime W]

/-- A sampling entry is given the token after its context. -/
def sample (s : Scheduler D W) (item : ScheduledSeq) : TokenId :=
  let seq := s.seqs item.seq
  t.next seq.loraId seq.sampling (seq.tokenIds.take item.contextLen)

/-- The rows of a draft, `seq` being extended by it: one after each of its beginnings. -/
def rows (seq : Sequence) (drafts : List TokenId) : Logits K :=
  let baseComputed := seq.numComputedTokens - drafts.length
  ⟨drafts.length + 1, t.vocab, fun j =>
    t.logits seq.loraId seq.sampling (seq.tokenIds.take (baseComputed + j))⟩

/-- `verify_greedy` on the rows of a draft; they are as many as it expects. -/
def verify : Verifier := fun seq drafts =>
  match verifyGreedy (t.rows seq drafts) drafts with
  | .ok v => v.verification fun _ _ => 0
  | .error _ => ⟨[], 0, List.nil_prefix⟩

/-! ## §2  What a verification emits -/

/-- The agreed tokens and the one after them are what generation draws. -/
theorem draws_agreed (next : List TokenId → TokenId) (input out drafts : List TokenId) :
    let greedy := (List.range (drafts.length + 1)).map fun j =>
      next (input ++ (out ++ drafts.take j))
    Lib.Draws next input out
      (agreed drafts greedy ++ [greedy.getD (agreed drafts greedy).length 0]) := by
  induction drafts generalizing out with
  | nil =>
      intro greedy
      simp [greedy, agreed, Lib.Draws]
  | cons drafted drafts ih =>
      intro greedy
      have hgreedy : greedy = next (input ++ out) :: (List.range (drafts.length + 1)).map fun j =>
          next (input ++ (out ++ [drafted] ++ drafts.take j)) := by
        simp only [greedy, List.length_cons]
        rw [List.range_succ_eq_map]
        simp [Function.comp_def]
      rw [hgreedy, agreed]
      by_cases hdraft : next (input ++ out) = drafted
      · rw [if_neg (not_not.mpr hdraft)]
        refine ⟨hdraft.symm, ?_⟩
        exact ih (out ++ [drafted])
      · rw [if_pos hdraft]
        exact ⟨rfl, trivial⟩

omit [Field K] in
theorem verify_tokens (seq : Sequence) (drafts : List TokenId) :
    let greedy := (List.range (drafts.length + 1)).map fun j =>
      t.next seq.loraId seq.sampling
        (seq.tokenIds.take (seq.numComputedTokens - drafts.length + j))
    (t.verify seq drafts).tokens =
      agreed drafts greedy ++ [greedy.getD (agreed drafts greedy).length 0] := by
  intro greedy
  have hcast : ((List.range (t.rows seq drafts).batch).map fun j =>
      argmax ((t.rows seq drafts).row j)).map Nat.cast = greedy := by
    rw [List.map_map]
    rfl
  have hok : verifyGreedy (t.rows seq drafts) drafts = .ok ⟨agreed drafts greedy,
      .argmax (((List.range (t.rows seq drafts).batch).map fun j =>
        argmax ((t.rows seq drafts).row j)).getD (agreed drafts greedy).length 0),
      agreed_isPrefix _ _⟩ := by
    have hbatch : ¬ (t.rows seq drafts).batch ≠ drafts.length + 1 := fun hne => hne rfl
    unfold verifyGreedy
    rw [if_neg hbatch]
    simp only [hcast]
  rw [verify, hok]
  have hget : ∀ (k : ℕ) (l : List ℕ), ((l.getD k 0 : ℕ) : TokenId) = (l.map Nat.cast).getD k 0 :=
    fun k l => (List.getD_map l 0 Nat.cast).symm
  show agreed drafts greedy ++ [((List.getD _ _ 0 : ℕ) : TokenId)] = _
  rw [hget, hcast]

end Target

/-- The greedy requests of a step are sampled and verified greedily; what the others draw is
up to the step. -/
structure Greedy {K : Type} [Field K] [LinearOrder K] {D W : Type} [BlockDigest D] [DecidableEq D]
    [VirtualTime W] (t : Target K) (sample : Scheduler D W → ScheduledSeq → TokenId)
    (verify : Verifier) : Prop where
  sample_eq : ∀ s item, (s.seqs item.seq).sampling.isGreedy = true →
    sample s item = t.sample s item
  verify_eq : ∀ seq drafts, seq.sampling.isGreedy = true → verify seq drafts = t.verify seq drafts

theorem Target.greedy {K : Type} [Field K] [LinearOrder K] {D W : Type} [BlockDigest D]
    [DecidableEq D] [VirtualTime W] (t : Target K) : Greedy t (t.sample (D := D) (W := W)) t.verify :=
  ⟨fun _ _ _ => rfl, fun _ _ _ => rfl⟩

/-! ## §3  Serving -/

section Serving

variable {K : Type} [Field K] [LinearOrder K] {t : Target K}
variable {D W : Type} [BlockDigest D] [DecidableEq D] [VirtualTime W]

/-- Arrivals and engine steps in any order, every emission of a step being whole; what is
drafted is up to each step. -/
inductive SpecServe (t : Target K) (maxBatchSize : Option ℕ) (stops : EngineStops) :
    Scheduler D W → Scheduler D W → Prop where
  | arrive {s : Scheduler D W} (r : Scheduler.Request) :
      SpecServe t maxBatchSize stops s (s.addRequest r).2
  | engine {s s₁ s' : Scheduler D W} {out : SchedulerOutput} {e : Executed D W}
      (hwhole : EveryEmission EmitsWhole s) (draft : SeqId → List TokenId)
      {sample : Scheduler D W → ScheduledSeq → TokenId} {verify : Verifier}
      (hgreedy : Greedy t sample verify)
      (h : EngineStep maxBatchSize stops sample draft verify s out s₁ e s') :
      SpecServe t maxBatchSize stops s s'

/-- The same loop without speculation. -/
inductive PlainServe (t : Target K) (stops : EngineStops) :
    Scheduler D W → Scheduler D W → Prop where
  | arrive {s : Scheduler D W} (r : Scheduler.Request) : PlainServe t stops s (s.addRequest r).2
  | engine {s s₁ s' : Scheduler D W} {out : SchedulerOutput}
      (hwhole : EveryEmission EmitsWhole s) (hs : s.schedule = .ok (out, s₁))
      {sample : Scheduler D W → ScheduledSeq → TokenId}
      (hgreedy : ∀ s item, (s.seqs item.seq).sampling.isGreedy = true →
        sample s item = t.sample s item)
      (hok : process stops (executePlain sample s₁ out) = .ok s') : PlainServe t stops s s'

def specServe (D W : Type) [BlockDigest D] [DecidableEq D] [VirtualTime W] (t : Target K)
    (maxBatchSize : Option ℕ) (stops : EngineStops) : Lib.TransitionSystem (Scheduler D W) where
  init := Initial
  step := SpecServe t maxBatchSize stops

def plainServe (D W : Type) [BlockDigest D] [DecidableEq D] [VirtualTime W] (t : Target K)
    (stops : EngineStops) : Lib.TransitionSystem (Scheduler D W) where
  init := Initial
  step := PlainServe t stops

variable {maxBatchSize : Option ℕ} {stops : EngineStops} {s s₁ s' : Scheduler D W}
variable {sample : Scheduler D W → ScheduledSeq → TokenId} {verify : Verifier}
variable {draft : SeqId → List TokenId} {out : SchedulerOutput} {e : Executed D W}

omit [BlockDigest D] in
/-- With a largest batch of none the engine never speculates. -/
theorem execute_zero : execute (some 0) sample draft verify s out =
    .ok (executePlain sample s out) := by
  unfold execute
  dsimp only
  rw [if_pos]
  by_cases h : (out.scheduled.filter fun item => !item.isPrefill).isEmpty
  · exact Or.inl h
  · right
    rw [Option.any_some, decide_eq_true_iff]
    apply List.length_pos_iff.mpr
    intro hnil
    rw [hnil] at h
    exact h rfl

theorem specServe_zero : SpecServe t (some 0) stops s s' ↔ PlainServe t stops s s' := by
  constructor
  · intro h
    cases h with
    | arrive r => exact .arrive r
    | engine hwhole draft hgreedy h =>
        obtain rfl := Except.ok.inj (execute_zero.symm.trans h.execute)
        exact .engine hwhole h.schedule hgreedy.sample_eq h.process
  · intro h
    cases h with
    | arrive r => exact .arrive r
    | engine hwhole hs hgreedy hok =>
        have hverify : Greedy t _ t.verify := ⟨hgreedy, fun _ _ _ => rfl⟩
        exact .engine hwhole (fun _ => []) hverify ⟨hs, execute_zero, hok⟩

theorem plain_reachable :
    (specServe D W t (some 0) stops).Reachable s ↔ (plainServe D W t stops).Reachable s := by
  constructor
  · intro h
    induction h with
    | init h => exact .init h
    | step _ hs ih => exact .step ih (specServe_zero.mp hs)
  · intro h
    induction h with
    | init h => exact .init h
    | step _ hs ih => exact .step ih (specServe_zero.mpr hs)

theorem specServe_inv (h : (specServe D W t maxBatchSize stops).Reachable s) : Inv s := by
  induction h with
  | init h => exact h.inv
  | step _ hs ih =>
      cases hs with
      | arrive r => exact addRequest_inv ih r
      | engine hwhole draft hgreedy h => exact (h.feedback ih).inv

/-! ## §4  One step -/

/-- A whole entry of a greedy request is fed what generation draws next, verified or not. -/
theorem Ran.draws {old item : ScheduledSeq} (hr : Ran sample draft verify s₁ e old item)
    (hok : EntryOk s₁ old) (hsteps : Greedy t sample verify)
    (hgreedy : (s₁.seqs old.seq).sampling.isGreedy = true)
    (hwhole : old.samplesToken = true → old.contextLen = (s₁.seqs old.seq).numTokens) :
    let seq := s₁.seqs old.seq
    Lib.Draws (t.next seq.loraId seq.sampling) seq.promptTokenIds seq.outputTokenIds
      (tokensFor e.pairs old.seq) := by
  intro seq
  cases hr with
  | plain huncapped hseq hfed =>
      rw [hfed]
      by_cases hsamples : old.samplesToken = true
      · rw [if_pos hsamples, hsteps.sample_eq e.computed old (hseq ▸ hgreedy)]
        refine ⟨?_, trivial⟩
        rw [Target.sample, hseq, hwhole hsamples, ← Sequence.length_tokenIds, List.take_length]
        rfl
      · rw [if_neg hsamples]
        trivial
  | @verified kept record hdecode hone hkept hw hcap hfed =>
      have hsamples : old.samplesToken = true := by
        rw [ScheduledSeq.samplesToken, hok.chunk_eq, hdecode]
        rfl
      have hbase : (e.computed.seqs old.seq).numComputedTokens - kept.length
          = seq.tokenIds.length := by
        rw [hw.seq_eq, Sequence.length_tokenIds, ← hwhole hsamples, hok.context_eq]
        exact Nat.add_sub_cancel _ _
      have htokens : (e.computed.seqs old.seq).tokenIds = seq.tokenIds ++ kept := by
        rw [hw.seq_eq]
        simp [Sequence.tokenIds, seq]
      have hlora : (e.computed.seqs old.seq).loraId = seq.loraId := by rw [hw.seq_eq]
      have hsampling : (e.computed.seqs old.seq).sampling = seq.sampling := by rw [hw.seq_eq]
      rw [hfed, hsteps.verify_eq _ _ (hsampling ▸ hgreedy), Target.verify_tokens, hbase, htokens,
        hlora, hsampling]
      simp only [List.take_length_add_append]
      have hdraws := Target.draws_agreed (t.next seq.loraId seq.sampling) seq.promptTokenIds
        seq.outputTokenIds kept
      simp only [← List.append_assoc] at hdraws
      exact hdraws

/-- The output of a greedy request is on the path of its own generation. -/
def OnTrack (t : Target K) (stops : EngineStops) (seq : Sequence) : Prop :=
  seq.sampling.isGreedy = true → Decoded t.next (engineRule stops) seq

theorem EngineStep.onTrack (h : Inv s) (hwhole : EveryEmission EmitsWhole s)
    (hsteps : Greedy t sample verify)
    (hstep : EngineStep maxBatchSize stops sample draft verify s out s₁ e s')
    (hd : ∀ j, OnTrack t stops (s.seqs j)) (j : SeqId) : OnTrack t stops (s'.seqs j) := by
  obtain ⟨h₁, hok, hnd⟩ := hstep.batch h
  have ho := hstep.outcome h
  have hback := hstep.feedback h
  have hrun := StepRun.of_schedule h hstep.schedule
  obtain ⟨hreq, htext⟩ := hrun.sameRequest h j
  obtain ⟨hreason, hstatus⟩ := hrun.status h j
  -- the draft is undone before anything is fed
  have hundone := ho.seqs_eq j
  have htrack : OnTrack t stops (e.sched.seqs j) := by
    intro hgreedy
    rw [hundone] at hgreedy
    have hbefore := hd j (hreq.sampling_eq ▸ hgreedy)
    refine (hbefore.congr hreq htext.output_eq hreason hstatus).congr ⟨?_, ?_, ?_, ?_⟩ ?_ ?_ ?_
      <;> rw [hundone]
  by_cases hj : j ∈ out.scheduled.map (·.seq)
  · obtain ⟨old, hold, rfl⟩ := List.mem_map.mp hj
    obtain ⟨item, -, hr⟩ := ho.entry hold
    have hrunning : old.seq ∈ e.sched.running := by
      rw [ho.sched_eq]
      exact (hok old hold).running
    have hfed := hback.fedSeq old.seq hrunning
    intro hgreedy
    rw [hfed.same.sampling_eq] at hgreedy
    refine hfed.decoded (htrack hgreedy) ?_ ?_
    · rw [ho.sched_inv.running_status _ hrunning]
      simp
    · rw [hundone] at hgreedy ⊢
      exact hr.draws (hok old hold) hsteps hgreedy fun hsamples =>
        sampled_whole h hwhole hstep.schedule (List.mem_filter.mpr ⟨hold, hsamples⟩)
  · rw [hback.others j (ho.idle j hj).2.1]
    exact htrack

theorem specServe_onTrack (h : (specServe D W t maxBatchSize stops).Reachable s) (j : SeqId) :
    OnTrack t stops (s.seqs j) := by
  induction h generalizing j with
  | init h =>
      obtain ⟨n, caching, -, -, -, -, -, -, hseqs⟩ := h.shape
      rw [hseqs]
      exact fun _ => .idle rfl rfl
  | @step s s' hr hs ih =>
      cases hs with
      | arrive r =>
          rcases addRequest_seq s r j with hsame | ⟨hout, hstatus⟩
          · rw [hsame]
            exact ih j
          · exact fun _ => .idle hout hstatus
      | engine hwhole draft hgreedy h =>
          exact EngineStep.onTrack (specServe_inv hr) hwhole hgreedy h ih j

/-! ## §5  Runs -/

theorem engineRule_bounded (stops : EngineStops) : (engineRule stops).Bounded := by
  intro p out hne hnone
  refine stopRule_bounded none p out hne ?_
  unfold engineRule at hnone
  split at hnone
  · cases hnone
  · assumption

/-- A step whose decodes have one new token each never fails, whatever is drafted. What a
greedy request has generated when it is finished, in any run with speculation, is what it has
generated in any run without, of any scheduler and with any other requests, and for the same
reason. -/
theorem speculation_invisible {D' W' : Type} [BlockDigest D'] [DecidableEq D'] [VirtualTime W']
    {s : Scheduler D W} (h : (specServe D W t maxBatchSize stops).Reachable s) :
    (∀ sample draft verify, (∀ out s₁, s.schedule = .ok (out, s₁) → ∀ item ∈ out.scheduled,
        item.isPrefill = false → item.numNewTokens = 1) →
      ∃ out s₁ e s', EngineStep maxBatchSize stops sample draft verify s out s₁ e s') ∧
    ∀ (s' : Scheduler D' W') (i j : SeqId), (plainServe D' W' t stops).Reachable s' →
      (s.seqs i).sampling.isGreedy = true →
      (s.seqs i).status = .finished → (s'.seqs j).status = .finished →
      (s.seqs i).promptTokenIds = (s'.seqs j).promptTokenIds →
      (s.seqs i).sampling = (s'.seqs j).sampling → (s.seqs i).loraId = (s'.seqs j).loraId →
      (s.seqs i).outputTokenIds = (s'.seqs j).outputTokenIds ∧
        (s.seqs i).finishReason = (s'.seqs j).finishReason := by
  constructor
  · intro sample draft verify hone
    obtain ⟨out, s₁, hs, -⟩ := schedule_spec (specServe_inv h)
    obtain ⟨e, s', hstep⟩ := engineStep_returns (specServe_inv h) hs (hone out s₁ hs) maxBatchSize
      stops sample draft verify
    exact ⟨out, s₁, e, s', hstep⟩
  · intro s' i j h' hgreedy hfin hfin' hprompt hsampling hlora
    obtain ⟨reason, hreason, hgen⟩ :=
      (specServe_onTrack h i hgreedy).result (engineRule_bounded stops) hfin
    obtain ⟨reason', hreason', hgen'⟩ :=
      (specServe_onTrack (plain_reachable.mpr h') j (hsampling ▸ hgreedy)).result
        (engineRule_bounded stops) hfin'
    rw [hprompt, hsampling, hlora, hgen'] at hgen
    injection hgen with hpair
    injection hpair with hout hwhy
    exact ⟨hout.symm, by rw [hreason, hreason', hwhy]⟩

/-- A list of events: an arrival, or a step with what it is given to verify. -/
def specAll (t : Target K) (maxBatchSize : Option ℕ) (stops : EngineStops) (s : Scheduler D W) :
    List (Scheduler.Request ⊕ (SeqId → List TokenId)) → Option (Scheduler D W)
  | [] => some s
  | .inl r :: rest => specAll t maxBatchSize stops (s.addRequest r).2 rest
  | .inr draft :: rest =>
      if s.wholeBatch then
        match s.schedule with
        | .error _ => none
        | .ok (out, s₁) =>
            match execute maxBatchSize t.sample draft t.verify s₁ out with
            | .error _ => none
            | .ok e =>
                match process stops e with
                | .error _ => none
                | .ok s' => specAll t maxBatchSize stops s' rest
      else none

theorem reachable_specAll (h : (specServe D W t maxBatchSize stops).Reachable s)
    (es : List (Scheduler.Request ⊕ (SeqId → List TokenId)))
    (hes : specAll t maxBatchSize stops s es = some s') :
    (specServe D W t maxBatchSize stops).Reachable s' := by
  induction es generalizing s with
  | nil =>
      cases hes
      exact h
  | cons event es ih =>
      cases event with
      | inl r => exact ih (.step h (.arrive r)) hes
      | inr draft =>
          rw [specAll] at hes
          split at hes
          · rename_i hwhole
            have hemits := whole_of_wholeBatch s (specServe_inv h) hwhole
            split at hes
            · cases hes
            · rename_i out s₁ hs
              split at hes
              · cases hes
              · rename_i e hexecute
                split at hes
                · cases hes
                · rename_i s₂ hprocess
                  exact ih (.step h (.engine hemits draft t.greedy ⟨hs, hexecute, hprocess⟩)) hes
          · cases hes

end Serving

/-- The most likely token is the number of tokens so far. -/
def countTarget : Target ℚ := ⟨5, fun _ _ tokens v => if v = tokens.length then 1 else 0⟩

theorem greedy_temperature : (0 : ℚ) ≤ 0 := le_rfl

theorem three_tokens : 1 ≤ 3 := by decide

/-- A greedy request of one token, for three. -/
def countRequest : Scheduler.Request :=
  { requestId := "a", promptTokenIds := [1]
    sampling := { maxTokens := 3, temperature := 0, one_le_maxTokens := three_tokens
                  temperature_nonneg := greedy_temperature } }

def noStops : EngineStops := ⟨[], fun _ _ => false⟩

attribute [ext] SamplingParams

instance : DecidableEq SamplingParams := fun _ _ => decidable_of_iff _ SamplingParams.ext_iff.symm

/-- What is left of the request in the end. -/
def ended (s : Scheduler FreeDigest ℚ) : Bool :=
  let seq := s.seqs 0
  decide (seq.status = .finished ∧ seq.outputTokenIds = [1, 2, 3] ∧ seq.promptTokenIds = [1] ∧
    seq.loraId = 0 ∧ seq.sampling = countRequest.sampling)

theorem ended_of_run (limit : Option ℕ) (draft : List (SeqId → List TokenId))
    (h : ((specAll countTarget limit noStops (fresh FreeDigest (tightConfig 4 (by decide)) 8)
      (.inl countRequest :: draft.map .inr)).map ended) = some true) :
    ∃ s : Scheduler FreeDigest ℚ,
      (specServe FreeDigest ℚ countTarget limit noStops).Reachable s ∧
      (s.seqs 0).status = .finished ∧ (s.seqs 0).outputTokenIds = [1, 2, 3] ∧
      (s.seqs 0).promptTokenIds = [1] ∧ (s.seqs 0).loraId = 0 ∧
      (s.seqs 0).sampling = countRequest.sampling := by
  obtain ⟨s, hs, hended⟩ := Option.map_eq_some_iff.mp h
  exact ⟨s, reachable_specAll (.init (fresh_initial _ _)) _ hs, of_decide_eq_true hended⟩

/-- Two drafted tokens, the second of them wrong, against three plain steps. -/
theorem speculation_invisible_count :
    ∃ s s' : Scheduler FreeDigest ℚ, (s.seqs 0).outputTokenIds = [1, 2, 3] ∧
      (s.seqs 0).outputTokenIds = (s'.seqs 0).outputTokenIds ∧
      (s.seqs 0).finishReason = (s'.seqs 0).finishReason := by
  obtain ⟨s, hreach, hfin, hout, hprompt, hlora, hsampling⟩ :=
    ended_of_run none [fun _ => [], fun _ => [2, 9]] (by decide +kernel)
  obtain ⟨s', hreach', hfin', -, hprompt', hlora', hsampling'⟩ :=
    ended_of_run (some 0) [fun _ => [], fun _ => [], fun _ => []] (by decide +kernel)
  have hgreedy : (s.seqs 0).sampling.isGreedy = true := by
    rw [hsampling]
    rfl
  obtain ⟨hsame, hwhy⟩ := (speculation_invisible hreach).2 s' 0 0
    (plain_reachable.mp hreach') hgreedy hfin hfin' (hprompt.trans hprompt'.symm)
    (hsampling.trans hsampling'.symm) (hlora.trans hlora'.symm)
  exact ⟨s, s', hout, hsame, hwhy⟩

end TurboServe.Spec
