import TurboServe.Core.StepLoop
import TurboServe.Lib.Decoding
import TurboServe.Invariants.Schedule

/-!
# Feeding tokens back

What a step's feedback does to the scheduler, for any single-token function that
appends a token and retires the sequence when its stop rule fires: every fed
sequence grows by its tokens up to the first stop, and nobody else changes.
-/

namespace TurboServe.Core

variable {D W : Type} [BlockDigest D] [VirtualTime W]

/-! ## §1  One token -/

/-- The fields of a sequence no step changes. -/
structure SameRequest (seq seq' : Sequence) : Prop where
  prompt_eq : seq'.promptTokenIds = seq.promptTokenIds
  sampling_eq : seq'.sampling = seq.sampling
  lora_eq : seq'.loraId = seq.loraId
  request_eq : seq'.requestId = seq.requestId

theorem SameRequest.refl (seq : Sequence) : SameRequest seq seq := ⟨rfl, rfl, rfl, rfl⟩

theorem SameRequest.trans {a b c : Sequence} (h : SameRequest a b)
    (h' : SameRequest b c) : SameRequest a c :=
  ⟨h'.prompt_eq.trans h.prompt_eq, h'.sampling_eq.trans h.sampling_eq,
    h'.lora_eq.trans h.lora_eq, h'.request_eq.trans h.request_eq⟩

theorem stopRule_append (eos : Option TokenId) (seq : Sequence) (tok : TokenId) :
    (appended seq tok).checkStop tok eos =
      stopRule eos seq.sampling (seq.outputTokenIds ++ [tok]) := by
  simp [Sequence.checkStop, stopRule, Sequence.numOutputTokens]

/-- A rule that stops every output of `maxTokens` tokens. -/
def StopRule.Bounded (stop : StopRule) : Prop :=
  ∀ p out, out ≠ [] → stop p out = none → out.length < p.maxTokens

theorem stopRule_bounded (eos : Option TokenId) : (stopRule eos).Bounded := by
  intro p out hne hnone
  obtain ⟨tok, htok⟩ : ∃ tok, out.getLast? = some tok :=
    ⟨out.getLast hne, List.getLast?_eq_some_getLast hne⟩
  simp only [stopRule, htok] at hnone
  split at hnone
  · cases hnone
  · split at hnone
    · cases hnone
    · split at hnone
      · cases hnone
      · next hlt => exact not_le.mp hlt

/-- One token fed to a running sequence: it goes on, or it is retired. -/
inductive Fed (stop : StopRule) (s : Scheduler D W) (i : SeqId) (tok : TokenId) :
    Scheduler D W → Prop where
  | kept (hgo : stop (s.seqs i).sampling ((s.seqs i).outputTokenIds ++ [tok]) = none) :
      Fed stop s i tok (s.setSeq i (appended (s.seqs i) tok))
  | retired {s' : Scheduler D W} (reason : FinishReason) (stopTok : Option TokenId)
      (hstop : stop (s.seqs i).sampling ((s.seqs i).outputTokenIds ++ [tok]) =
        some reason)
      (hr : Retired (s.setSeq i (appended (s.seqs i) tok)) i
        (finished (appended (s.seqs i) tok) reason stopTok) s') :
      Fed stop s i tok s'

/-- What a single-token function has to do for the loop. -/
def FeedsOne (stop : StopRule)
    (one : Scheduler D W → SeqId → TokenId → Except Fault (Scheduler D W)) : Prop :=
  ∀ s i tok, Inv s → i ∈ s.running →
    ∃ s', one s i tok = .ok s' ∧ Inv s' ∧ Fed stop s i tok s'

theorem protocolToken_feeds [DecidableEq D] (eos : Option TokenId) :
    FeedsOne (stopRule eos) (Scheduler.protocolToken (D := D) (W := W) eos) := by
  intro s i tok h hi
  obtain ⟨s', hok, hinv, hnone, hsome⟩ :=
    appendToken_spec h (mem_inFlight.mpr (Or.inl hi)) tok eos
  refine ⟨s', by simp [Scheduler.protocolToken, hok, bind, Except.bind], hinv, ?_⟩
  rw [stopRule_append] at hnone hsome
  cases hstop : stopRule eos (s.seqs i).sampling ((s.seqs i).outputTokenIds ++ [tok]) with
  | none => exact hnone hstop ▸ .kept hstop
  | some reason => exact .retired reason _ hstop (hsome reason hstop)

/-! ## §2  Credit -/

omit [BlockDigest D] in
theorem credit_seqs_of_ne (s : Scheduler D W) (caps : SeqId → Option ℕ) {i j : SeqId}
    (hj : j ≠ i) : (s.credit caps i).seqs j = s.seqs j := by
  unfold Scheduler.credit
  split
  · rfl
  · exact Function.update_of_ne hj _ _

/-- The computed count the credit leaves. -/
def creditedCount (caps : SeqId → Option ℕ) (i : SeqId) (seq : Sequence) : ℕ :=
  match caps i with
  | none => seq.numComputedTokens
  | some cap => min cap seq.numTokens

omit [BlockDigest D] in
theorem credit_seqs_self (s : Scheduler D W) (caps : SeqId → Option ℕ) (i : SeqId) :
    (s.credit caps i).seqs i =
      { s.seqs i with numComputedTokens := creditedCount caps i (s.seqs i) } := by
  unfold Scheduler.credit creditedCount
  cases caps i with
  | none => rfl
  | some cap => exact Function.update_self _ _ _

omit [BlockDigest D] in
theorem credit_frame (s : Scheduler D W) (caps : SeqId → Option ℕ) (i : SeqId) :
    (s.credit caps i).running = s.running ∧
      (s.credit caps i).preempted = s.preempted ∧
      (s.credit caps i).waiting = s.waiting ∧ (s.credit caps i).config = s.config ∧
      (s.credit caps i).blockManager = s.blockManager ∧
      (s.credit caps i).seqCounter = s.seqCounter ∧
      (s.credit caps i).byRequest = s.byRequest := by
  unfold Scheduler.credit
  split <;> exact ⟨rfl, rfl, rfl, rfl, rfl, rfl, rfl⟩

/-- A holder may claim more computed tokens, up to its text and its table. -/
theorem ManagerInv.credit {m : BlockManager D} {seq : Sequence} {rest : List Sequence}
    (h : ManagerInv m (seq :: rest)) {n : ℕ} (hle : seq.numComputedTokens ≤ n)
    (hn : n ≤ seq.numTokens) (hcov : n ≤ seq.blockTable.length * m.blockSize) :
    ManagerInv m ({ seq with numComputedTokens := n } :: rest) := by
  refine { h with pool := h.pool, ids_nodup := h.ids_nodup, holds := ?_, absent := h.absent }
  intro x hx
  rcases List.mem_cons.mp hx with rfl | hx
  · obtain ⟨st, hst⟩ := h.holds seq List.mem_cons_self
    exact ⟨st, { hst with
      published_le := hst.published_le.trans hle, computed_le := hn, covered := hcov }⟩
  · exact h.holds x (List.mem_cons_of_mem _ hx)

/-- The value of a sequence that is not in flight is nobody's business. -/
theorem Inv.set_absent {s : Scheduler D W} (h : Inv s) {i : SeqId} {seq' : Sequence}
    (hi : i ∉ s.inFlight) : Inv (s.setSeq i seq') := by
  have hsame : ∀ j ∈ s.inFlight, (s.setSeq i seq').seqs j = s.seqs j := fun j hj =>
    Function.update_of_ne (ne_of_mem_of_not_mem hj hi) _ _
  have hrun : ∀ j ∈ s.running, (s.setSeq i seq').seqs j = s.seqs j := fun j hj =>
    hsame j (mem_inFlight.mpr (Or.inl hj))
  have hpre : ∀ j ∈ s.preempted, (s.setSeq i seq').seqs j = s.seqs j := fun j hj =>
    hsame j (mem_inFlight.mpr (Or.inr (Or.inl hj)))
  have hwait : ∀ j ∈ s.waiting.toList, (s.setSeq i seq').seqs j = s.seqs j := fun j hj =>
    hsame j (mem_inFlight.mpr (Or.inr (Or.inr hj)))
  refine
    { blockSize_eq := h.blockSize_eq, manager := ?_
      queue := h.queue.congr fun j hj => by rw [hwait j hj]
      nodup := h.nodup
      ids := fun j hj => by rw [hsame j hj]; exact h.ids j hj
      counter := h.counter
      running_status := fun j hj => by rw [hrun j hj]; exact h.running_status j hj
      preempted_status := fun j hj => by rw [hpre j hj]; exact h.preempted_status j hj
      waiting_status := fun j hj => by rw [hwait j hj]; exact h.waiting_status j hj
      idle := fun j hj => ?_, requests := ?_, requests_nodup := h.requests_nodup }
  · have hmap : (s.setSeq i seq').runningSeqs = s.runningSeqs :=
      List.map_congr_left hrun
    rw [hmap]
    exact h.manager
  · rcases List.mem_append.mp hj with hp | hw
    · rw [hpre j hp]
      exact h.idle j hj
    · rw [hwait j hw]
      exact h.idle j hj
  · refine h.requests.trans (List.Perm.of_eq (List.map_congr_left fun j hj => ?_))
    rw [hsame j hj]

/-- The caps a feedback may run under: what the batch computed and allocated. -/
def CapsOk (caps : SeqId → Option ℕ) (s : Scheduler D W) : Prop :=
  ∀ i cap, caps i = some cap → i ∈ s.running → (s.seqs i).numComputedTokens ≤ cap ∧
    cap ≤ (s.seqs i).blockTable.length * s.blockManager.blockSize

theorem credit_inv {s : Scheduler D W} {caps : SeqId → Option ℕ} (h : Inv s)
    (hcaps : CapsOk caps s) (i : SeqId) (hi : i ∈ s.running ∨ i ∉ s.inFlight) :
    Inv (s.credit caps i) := by
  unfold Scheduler.credit
  split
  · exact h
  · next cap hcap =>
      rcases hi with hi | hi
      · obtain ⟨hle, hcov⟩ := hcaps i cap hcap hi
        refine h.set_value rfl rfl rfl rfl (fun hidle => ⟨hidle.1, ?_⟩) fun hr => ?_
        · have : (s.seqs i).blockTable.length = 0 := by rw [hidle.1]; rfl
          rw [this, Nat.zero_mul] at hcov
          show min cap (s.seqs i).numTokens = 0
          omega
        · exact (h.manager_head hr).credit (le_min hle (h.computed_le hi))
            (Nat.min_le_right _ _) ((Nat.min_le_left _ _).trans hcov)
      · exact h.set_absent hi

/-! ## §3  A whole feedback -/

/-- One sequence before and after it was fed `toks`, read until its stop rule
fires. -/
structure SeqFed (stop : StopRule) (caps : SeqId → Option ℕ) (i : SeqId)
    (toks : List TokenId) (seq seq' : Sequence) : Prop where
  same : SameRequest seq seq'
  output_eq : seq'.outputTokenIds =
    (Lib.feedUntil (stop seq.sampling) seq.outputTokenIds toks).1
  going : (Lib.feedUntil (stop seq.sampling) seq.outputTokenIds toks).2 = none →
    seq'.status = seq.status ∧
      (toks ≠ [] → seq'.numComputedTokens =
        creditedCount caps i { seq' with numComputedTokens := seq.numComputedTokens })
  ended : ∀ reason,
    (Lib.feedUntil (stop seq.sampling) seq.outputTokenIds toks).2 = some reason →
      seq'.status = .finished ∧ seq'.finishReason = some reason

/-- The tokens of a list of pairs that are for sequence `i`. -/
def tokensFor (pairs : List (SeqId × TokenId)) (i : SeqId) : List TokenId :=
  (pairs.filter fun p => decide (p.1 = i)).map Prod.snd

theorem tokensFor_cons_self (i : SeqId) (tok : TokenId)
    (rest : List (SeqId × TokenId)) :
    tokensFor ((i, tok) :: rest) i = tok :: tokensFor rest i := by
  simp [tokensFor]

theorem tokensFor_cons_of_ne {i j : SeqId} (h : j ≠ i) (tok : TokenId)
    (rest : List (SeqId × TokenId)) :
    tokensFor ((i, tok) :: rest) j = tokensFor rest j := by
  simp [tokensFor, Ne.symm h]

structure Feedback (stop : StopRule) (caps : SeqId → Option ℕ) (s : Scheduler D W)
    (fed : SeqId → List TokenId) (s' : Scheduler D W) : Prop where
  inv : Inv s'
  config_eq : s'.config = s.config
  counter_eq : s'.seqCounter = s.seqCounter
  shape : SameShape s.blockManager.allocator s'.blockManager.allocator
  preempted_eq : s'.preempted = s.preempted
  waiting_eq : s'.waiting.toList = s.waiting.toList
  running : ∀ j, j ∈ s'.running ↔ j ∈ s.running ∧ (s'.seqs j).status ≠ .finished
  others : ∀ j, fed j = [] → s'.seqs j = s.seqs j
  fedSeq : ∀ j ∈ s.running, SeqFed stop caps j (fed j) (s.seqs j) (s'.seqs j)
  finished : ∀ j, (s.seqs j).status = .finished → SameRequest (s.seqs j) (s'.seqs j) ∧
    (s'.seqs j).outputTokenIds = (s.seqs j).outputTokenIds ∧
    (s'.seqs j).status = .finished ∧ (s'.seqs j).finishReason = (s.seqs j).finishReason

/-- What one token and its credit do, with the sequence still running or
retired. -/
structure FedOne (stop : StopRule) (caps : SeqId → Option ℕ) (s : Scheduler D W)
    (i : SeqId) (tok : TokenId) (s' : Scheduler D W) : Prop where
  inv : Inv s'
  config_eq : s'.config = s.config
  counter_eq : s'.seqCounter = s.seqCounter
  blockSize_eq : s'.blockManager.blockSize = s.blockManager.blockSize
  shape : SameShape s.blockManager.allocator s'.blockManager.allocator
  preempted_eq : s'.preempted = s.preempted
  waiting_eq : s'.waiting.toList = s.waiting.toList
  running : ∀ j, j ∈ s'.running ↔ j ∈ s.running ∧ (s'.seqs j).status ≠ .finished
  others : ∀ j, j ≠ i → s'.seqs j = s.seqs j
  same : SameRequest (s.seqs i) (s'.seqs i)
  output_eq : (s'.seqs i).outputTokenIds = (s.seqs i).outputTokenIds ++ [tok]
  going : stop (s.seqs i).sampling ((s.seqs i).outputTokenIds ++ [tok]) = none →
    s'.seqs i = { appended (s.seqs i) tok with
      numComputedTokens := creditedCount caps i (appended (s.seqs i) tok) }
  ended : ∀ reason,
    stop (s.seqs i).sampling ((s.seqs i).outputTokenIds ++ [tok]) = some reason →
      (s'.seqs i).status = .finished ∧ (s'.seqs i).finishReason = some reason

theorem fedOne_spec {stop : StopRule} {caps : SeqId → Option ℕ} {s s₁ : Scheduler D W}
    {i : SeqId} {tok : TokenId} (h : Inv s) (hi : i ∈ s.running) (hcaps : CapsOk caps s)
    (h₁ : Inv s₁) (hfed : Fed stop s i tok s₁) :
    FedOne stop caps s i tok (s₁.credit caps i) := by
  obtain ⟨hrun, hpre, hwait, hconf, hbm, hcount, -⟩ := credit_frame s₁ caps i
  cases hfed with
  | kept hgo =>
      have hself : (s.setSeq i (appended (s.seqs i) tok)).seqs i =
          appended (s.seqs i) tok := Function.update_self _ _ _
      have hother : ∀ j, j ≠ i →
          (s.setSeq i (appended (s.seqs i) tok)).seqs j = s.seqs j := fun j hj =>
        Function.update_of_ne hj _ _
      have hcredit := credit_seqs_self (s.setSeq i (appended (s.seqs i) tok)) caps i
      rw [hself] at hcredit
      have hcaps₁ : CapsOk caps (s.setSeq i (appended (s.seqs i) tok)) := by
        intro j cap hcap hj
        by_cases hji : j = i
        · subst hji
          rw [hself]
          exact hcaps j cap hcap hj
        · rw [hother j hji]
          exact hcaps j cap hcap hj
      refine
        { inv := credit_inv h₁ hcaps₁ i (Or.inl hi), config_eq := hconf
          counter_eq := hcount, blockSize_eq := by rw [hbm]; rfl
          shape := by rw [hbm]; exact .refl _, preempted_eq := hpre
          waiting_eq := by rw [hwait]; rfl, running := fun j => ?_
          others := fun j hj => (credit_seqs_of_ne _ _ hj).trans (hother j hj)
          same := ?_, output_eq := ?_, going := fun _ => hcredit
          ended := fun reason hstop => ?_ }
      · rw [hrun]
        refine ⟨fun hj => ⟨hj, ?_⟩, fun hj => hj.1⟩
        have hj' : j ∈ s.running := hj
        by_cases hji : j = i
        · subst hji
          rw [hcredit]
          show (s.seqs j).status ≠ .finished
          rw [h.running_status j hj']
          simp
        · rw [credit_seqs_of_ne _ _ hji, hother j hji, h.running_status j hj']
          simp
      · rw [hcredit]
        exact ⟨rfl, rfl, rfl, rfl⟩
      · rw [hcredit]
      · rw [hgo] at hstop
        cases hstop
  | retired reason stopTok hstop hr =>
      have hself : s₁.seqs i = finished (appended (s.seqs i) tok) reason stopTok := by
        rw [hr.seqs_eq, Function.update_self]
      have hother : ∀ j, j ≠ i → s₁.seqs j = s.seqs j := fun j hj => by
        rw [hr.seqs_eq, Function.update_of_ne hj]
        exact Function.update_of_ne hj _ _
      have hcredit := credit_seqs_self s₁ caps i
      rw [hself] at hcredit
      have hinv := appended_inv h i tok
      have hrun₁ : ∀ j, j ∈ s₁.running ↔ j ≠ i ∧ j ∈ s.running := fun j => by
        rw [hr.running_eq]
        exact h.running_nodup.mem_erase_iff
      have habsent : i ∉ s₁.inFlight := by
        rw [hr.inFlight_eq hinv]
        exact hinv.nodup.not_mem_erase
      have hcaps₁ : CapsOk caps s₁ := by
        intro j cap hcap hj
        obtain ⟨hji, hj'⟩ := (hrun₁ j).mp hj
        rw [hother j hji, hr.frame.blockSize_eq]
        exact hcaps j cap hcap hj'
      refine
        { inv := credit_inv h₁ hcaps₁ i (Or.inr habsent), config_eq := ?_
          counter_eq := ?_, blockSize_eq := by rw [hbm]; exact hr.frame.blockSize_eq
          shape := by rw [hbm]; exact hr.frame.shape, preempted_eq := ?_
          waiting_eq := ?_, running := fun j => ?_
          others := fun j hj => (credit_seqs_of_ne _ _ hj).trans (hother j hj)
          same := ?_, output_eq := ?_, going := fun hgo => ?_
          ended := fun reason' hstop' => ?_ }
      · exact hconf.trans hr.config_eq
      · exact hcount.trans hr.counter_eq
      · rw [hpre, hr.preempted_eq]
        exact List.erase_of_not_mem (h.not_preempted hi)
      · rw [hwait, hr.waiting_eq]
        exact List.erase_of_not_mem (h.not_waiting hi)
      · rw [hrun, hrun₁]
        by_cases hji : j = i
        · subst hji
          simp [hcredit]
        · rw [credit_seqs_of_ne _ _ hji, hother j hji]
          refine ⟨fun hj => ⟨hj.2, ?_⟩, fun hj => ⟨hji, hj.1⟩⟩
          rw [h.running_status j hj.2]
          simp
      · rw [hcredit]
        exact ⟨rfl, rfl, rfl, rfl⟩
      · rw [hcredit]
      · rw [hstop] at hgo
        cases hgo
      · rw [hstop] at hstop'
        obtain rfl := Option.some.inj hstop'
        rw [hcredit]
        exact ⟨rfl, rfl⟩

/-! ## §4  The loop -/

variable {stop : StopRule} {caps : SeqId → Option ℕ} {s s₁ s' : Scheduler D W}

theorem Feedback.refl (h : Inv s) : Feedback stop caps s (tokensFor []) s where
  inv := h
  config_eq := rfl
  counter_eq := rfl
  shape := .refl _
  preempted_eq := rfl
  waiting_eq := rfl
  running j := by
    refine ⟨fun hj => ⟨hj, ?_⟩, And.left⟩
    rw [h.running_status j hj]
    simp
  others _ _ := rfl
  fedSeq j _ :=
    { same := .refl _, output_eq := rfl, going := fun _ => ⟨rfl, fun hne => absurd rfl hne⟩
      ended := fun _ hr => by cases hr }
  finished j hj := ⟨.refl _, rfl, hj, rfl⟩

/-- The sequence the pair was for, over the whole feedback. -/
theorem FedOne.fedSeq {i : SeqId} {tok : TokenId} {rest : List (SeqId × TokenId)}
    (h : Inv s) (h₁ : FedOne stop caps s i tok s₁) (h₂ : Feedback stop caps s₁ (tokensFor rest) s')
    (hi : i ∈ s.running) :
    SeqFed stop caps i (tok :: tokensFor rest i) (s.seqs i) (s'.seqs i) := by
  cases hstop : stop (s.seqs i).sampling ((s.seqs i).outputTokenIds ++ [tok]) with
  | none =>
      have hval := h₁.going hstop
      have hstatus : (s₁.seqs i).status = (s.seqs i).status := by rw [hval]
      have hrun : i ∈ s₁.running := by
        refine (h₁.running i).mpr ⟨hi, ?_⟩
        rw [hstatus, h.running_status i hi]
        simp
      have hfed := h₂.fedSeq i hrun
      have hsamp : (s₁.seqs i).sampling = (s.seqs i).sampling := h₁.same.sampling_eq
      have hunfold : Lib.feedUntil (stop (s.seqs i).sampling) (s.seqs i).outputTokenIds
          (tok :: tokensFor rest i) =
          Lib.feedUntil (stop (s₁.seqs i).sampling) (s₁.seqs i).outputTokenIds
            (tokensFor rest i) := by
        rw [Lib.feedUntil, hstop, hsamp, h₁.output_eq]
      refine
        { same := h₁.same.trans hfed.same, output_eq := by rw [hunfold]; exact hfed.output_eq
          going := fun hnone => ?_, ended := fun reason hr => ?_ }
      · rw [hunfold] at hnone
        obtain ⟨hst, hcomp⟩ := hfed.going hnone
        refine ⟨hst.trans hstatus, fun _ => ?_⟩
        have hcred : (s₁.seqs i).numComputedTokens =
            creditedCount caps i (appended (s.seqs i) tok) := by rw [hval]
        by_cases hrest : tokensFor rest i = []
        · rw [h₂.others i hrest, hval]
        · rw [hcomp hrest, creditedCount, creditedCount]
          cases hcap : caps i with
          | none =>
              rw [creditedCount, hcap] at hcred
              exact hcred
          | some cap => rfl
      · exact hfed.ended reason (hunfold ▸ hr)
  | some reason =>
      obtain ⟨hfin, hreason⟩ := h₁.ended reason hstop
      obtain ⟨hsame, hout, hfin', hreason'⟩ := h₂.finished i hfin
      have hunfold : Lib.feedUntil (stop (s.seqs i).sampling) (s.seqs i).outputTokenIds
          (tok :: tokensFor rest i) =
          ((s.seqs i).outputTokenIds ++ [tok], some reason) := by
        rw [Lib.feedUntil, hstop]
      refine
        { same := h₁.same.trans hsame, output_eq := by rw [hunfold, hout, h₁.output_eq]
          going := fun hnone => ?_, ended := fun r hr => ?_ }
      · rw [hunfold] at hnone
        cases hnone
      · rw [hunfold] at hr
        obtain rfl := Option.some.inj hr
        exact ⟨hfin', hreason'.trans hreason⟩

theorem FedOne.feedback {i : SeqId} {tok : TokenId} {rest : List (SeqId × TokenId)}
    (h : Inv s) (h₁ : FedOne stop caps s i tok s₁)
    (h₂ : Feedback stop caps s₁ (tokensFor rest) s') (hi : i ∈ s.running) :
    Feedback stop caps s (tokensFor ((i, tok) :: rest)) s' where
  inv := h₂.inv
  config_eq := h₂.config_eq.trans h₁.config_eq
  counter_eq := h₂.counter_eq.trans h₁.counter_eq
  shape := h₁.shape.trans h₂.shape
  preempted_eq := h₂.preempted_eq.trans h₁.preempted_eq
  waiting_eq := h₂.waiting_eq.trans h₁.waiting_eq
  running j := by
    rw [h₂.running, h₁.running]
    refine ⟨fun ⟨⟨hj, _⟩, hfin⟩ => ⟨hj, hfin⟩, fun ⟨hj, hfin⟩ => ⟨⟨hj, ?_⟩, hfin⟩⟩
    exact fun hdone => hfin (h₂.finished j hdone).2.2.1
  others j hj := by
    have hji : j ≠ i := by
      rintro rfl
      rw [tokensFor_cons_self] at hj
      cases hj
    rw [tokensFor_cons_of_ne hji] at hj
    exact (h₂.others j hj).trans (h₁.others j hji)
  fedSeq j hj := by
    by_cases hji : j = i
    · subst hji
      rw [tokensFor_cons_self]
      exact h₁.fedSeq h h₂ hi
    · rw [tokensFor_cons_of_ne hji, ← h₁.others j hji]
      refine h₂.fedSeq j ((h₁.running j).mpr ⟨hj, ?_⟩)
      rw [h₁.others j hji, h.running_status j hj]
      simp
  finished j hj := by
    have hji : j ≠ i := by
      rintro rfl
      rw [h.running_status j hi] at hj
      cases hj
    rw [← h₁.others j hji] at hj ⊢
    exact h₂.finished j hj

/-- A pair for a sequence that is already finished is skipped. -/
theorem Feedback.skip {i : SeqId} {tok : TokenId} {rest : List (SeqId × TokenId)}
    (h : Inv s) (hi : (s.seqs i).status = .finished)
    (h₂ : Feedback stop caps (s.credit caps i) (tokensFor rest) s') :
    Feedback stop caps s (tokensFor ((i, tok) :: rest)) s' := by
  obtain ⟨hrun, hpre, hwait, hconf, hbm, hcount, -⟩ := credit_frame s caps i
  have hcredit := credit_seqs_self s caps i
  have hne : ∀ j ∈ s.running, j ≠ i := by
    rintro j hj rfl
    rw [h.running_status j hj] at hi
    cases hi
  refine
    { inv := h₂.inv, config_eq := h₂.config_eq.trans hconf
      counter_eq := h₂.counter_eq.trans hcount, shape := hbm ▸ h₂.shape
      preempted_eq := h₂.preempted_eq.trans hpre
      waiting_eq := h₂.waiting_eq.trans (by rw [hwait])
      running := fun j => hrun ▸ h₂.running j, others := fun j hj => ?_
      fedSeq := fun j hj => ?_, finished := fun j hj => ?_ }
  · have hji : j ≠ i := by
      rintro rfl
      rw [tokensFor_cons_self] at hj
      cases hj
    rw [tokensFor_cons_of_ne hji] at hj
    exact (h₂.others j hj).trans (credit_seqs_of_ne s caps hji)
  · have hji := hne j hj
    rw [tokensFor_cons_of_ne hji, ← credit_seqs_of_ne s caps hji]
    exact h₂.fedSeq j (hrun ▸ hj)
  · by_cases hji : j = i
    · subst hji
      have hfin : ((s.credit caps j).seqs j).status = .finished := by rw [hcredit]; exact hj
      obtain ⟨hsame, hout, hfin', hreason⟩ := h₂.finished j hfin
      rw [hcredit] at hsame hout hreason
      exact ⟨⟨hsame.prompt_eq, hsame.sampling_eq, hsame.lora_eq, hsame.request_eq⟩, hout,
        hfin', hreason⟩
    · have hsame := credit_seqs_of_ne s caps hji
      rw [← hsame] at hj ⊢
      exact h₂.finished j hj

/-- Nobody's cap is passed by one token and its credit. -/
theorem FedOne.capsOk {i : SeqId} {tok : TokenId} (h₁ : FedOne stop caps s i tok s₁)
    (hi : i ∈ s.running) (hcaps : CapsOk caps s) : CapsOk caps s₁ := by
  intro j cap hcap hj
  obtain ⟨hj', hnf⟩ := (h₁.running j).mp hj
  rw [h₁.blockSize_eq]
  by_cases hji : j = i
  · subst hji
    cases hstop : stop (s.seqs j).sampling ((s.seqs j).outputTokenIds ++ [tok]) with
    | none =>
        rw [h₁.going hstop]
        refine ⟨?_, (hcaps j cap hcap hj').2⟩
        simp [creditedCount, hcap]
    | some reason => exact absurd (h₁.ended reason hstop).1 hnf
  · rw [h₁.others j hji]
    exact hcaps j cap hcap hj'

/-- Who was running or finished still is. -/
theorem FedOne.stays {i j : SeqId} {tok : TokenId} (h : Inv s)
    (h₁ : FedOne stop caps s i tok s₁) (hi : i ∈ s.running)
    (hj : j ∈ s.running ∨ (s.seqs j).status = .finished) :
    j ∈ s₁.running ∨ (s₁.seqs j).status = .finished := by
  by_cases hfin : (s₁.seqs j).status = .finished
  · exact Or.inr hfin
  · left
    rcases hj with hj | hdone
    · exact (h₁.running j).mpr ⟨hj, hfin⟩
    · have hne : j ≠ i := by
        rintro rfl
        rw [h.running_status j hi] at hdone
        cases hdone
      rw [h₁.others j hne] at hfin
      exact absurd hdone hfin

/-- A finished sequence is in no queue. -/
theorem Inv.finished_absent {i : SeqId} (h : Inv s)
    (hi : (s.seqs i).status = .finished) : i ∉ s.inFlight := by
  intro hf
  have := h.not_finished hf
  simp [Sequence.isFinished, hi] at this

omit [BlockDigest D] in
/-- The credit of a finished sequence changes nobody else's caps. -/
theorem credit_capsOk {i : SeqId} (hi : i ∉ s.inFlight) (hcaps : CapsOk caps s) :
    CapsOk caps (s.credit caps i) := by
  obtain ⟨hrun, -, -, -, hbm, -, -⟩ := credit_frame s caps i
  intro j cap hcap hj
  rw [hrun] at hj
  have hji : j ≠ i := by
    rintro rfl
    exact hi (mem_inFlight.mpr (Or.inl hj))
  rw [credit_seqs_of_ne s caps hji, hbm]
  exact hcaps j cap hcap hj

omit [BlockDigest D] in
theorem credit_stays {i j : SeqId} (hj : j ∈ s.running ∨ (s.seqs j).status = .finished) :
    j ∈ (s.credit caps i).running ∨ ((s.credit caps i).seqs j).status = .finished := by
  obtain ⟨hrun, -⟩ := credit_frame s caps i
  rw [hrun]
  refine hj.imp_right fun hf => ?_
  by_cases hji : j = i
  · rw [hji, credit_seqs_self]
    rw [hji] at hf
    exact hf
  · rw [credit_seqs_of_ne s caps hji]
    exact hf

/-- Tokens of running sequences are fed without a fault, and only they change. -/
theorem feedAll_spec
    {one : Scheduler D W → SeqId → TokenId → Except Fault (Scheduler D W)}
    (hone : FeedsOne stop one) (pairs : List (SeqId × TokenId)) (h : Inv s)
    (hcaps : CapsOk caps s)
    (hpairs : ∀ p ∈ pairs, p.1 ∈ s.running ∨ (s.seqs p.1).status = .finished)
    (hskip : (∀ t i tok, ((t : Scheduler D W).seqs i).status = .finished →
        one t i tok = .ok t) ∨
      (pairs.map Prod.fst).Nodup ∧ ∀ p ∈ pairs, p.1 ∈ s.running) :
    ∃ s', Scheduler.feedAll one caps s pairs = .ok s' ∧
      Feedback stop caps s (tokensFor pairs) s' := by
  induction pairs generalizing s with
  | nil => exact ⟨s, rfl, .refl h⟩
  | cons p rest ih =>
      obtain ⟨i, tok⟩ := p
      by_cases hi : i ∈ s.running
      · obtain ⟨s₁, hok, h₁, hfed⟩ := hone s i tok h hi
        have hone₁ := fedOne_spec h hi hcaps h₁ hfed
        have hskip₁ : (∀ t i tok, ((t : Scheduler D W).seqs i).status = .finished →
              one t i tok = .ok t) ∨
            (rest.map Prod.fst).Nodup ∧
              ∀ p ∈ rest, p.1 ∈ (s₁.credit caps i).running := by
          refine hskip.imp_right fun ⟨hnd, hall⟩ => ?_
          obtain ⟨hnot, hnd'⟩ := List.nodup_cons.mp hnd
          refine ⟨hnd', fun p hp => ?_⟩
          have hne : p.1 ≠ i := by
            intro heq
            have hmem : p.1 ∈ rest.map Prod.fst := List.mem_map_of_mem hp
            rw [heq] at hmem
            exact hnot hmem
          have hr := hall p (List.mem_cons_of_mem _ hp)
          refine (hone₁.running p.1).mpr ⟨hr, ?_⟩
          rw [hone₁.others p.1 hne, h.running_status p.1 hr]
          simp
        obtain ⟨s', hok', hback⟩ := ih hone₁.inv (hone₁.capsOk hi hcaps)
          (fun p hp => hone₁.stays h hi (hpairs p (List.mem_cons_of_mem _ hp))) hskip₁
        refine ⟨s', ?_, hone₁.feedback h hback hi⟩
        simp only [Scheduler.feedAll, hok, bind, Except.bind]
        exact hok'
      · -- the sequence finished earlier in this feedback
        have hfin : (s.seqs i).status = .finished :=
          (hpairs (i, tok) List.mem_cons_self).resolve_left hi
        have hone₁ : one s i tok = .ok s := by
          rcases hskip with hall | ⟨-, hall⟩
          · exact hall s i tok hfin
          · exact absurd (hall (i, tok) List.mem_cons_self) hi
        have habsent := h.finished_absent hfin
        have hskip₁ : (∀ t i tok, ((t : Scheduler D W).seqs i).status = .finished →
              one t i tok = .ok t) ∨
            (rest.map Prod.fst).Nodup ∧ ∀ p ∈ rest, p.1 ∈ (s.credit caps i).running := by
          refine hskip.imp_right fun ⟨hnd, hall⟩ => ?_
          exact absurd (hall (i, tok) List.mem_cons_self) hi
        obtain ⟨s', hok', hback⟩ :=
          ih (credit_inv h hcaps i (Or.inr habsent)) (credit_capsOk habsent hcaps)
            (fun p hp => credit_stays (hpairs p (List.mem_cons_of_mem _ hp))) hskip₁
        refine ⟨s', ?_, hback.skip h hfin⟩
        simp only [Scheduler.feedAll, hone₁, bind, Except.bind]
        exact hok'

/-- What every single token and every skipped pair keep, a whole feedback keeps. `P`
speaks of the scheduler and of the pairs still to come. -/
theorem feedAll_induct
    {one : Scheduler D W → SeqId → TokenId → Except Fault (Scheduler D W)}
    (hone : FeedsOne stop one)
    (hskip : ∀ t i tok, ((t : Scheduler D W).seqs i).status = .finished →
      one t i tok = .ok t)
    {P : Scheduler D W → List (SeqId × TokenId) → Prop}
    (hfed : ∀ s i tok rest s₁, Inv s → CapsOk caps s → i ∈ s.running → Inv s₁ →
      Fed stop s i tok s₁ → P s ((i, tok) :: rest) → P (s₁.credit caps i) rest)
    (hdone : ∀ s i tok rest, Inv s → i ∉ s.inFlight → P s ((i, tok) :: rest) →
      P (s.credit caps i) rest)
    (pairs : List (SeqId × TokenId)) (h : Inv s) (hcaps : CapsOk caps s)
    (hpairs : ∀ p ∈ pairs, p.1 ∈ s.running ∨ (s.seqs p.1).status = .finished)
    (hP : P s pairs) :
    ∃ s', Scheduler.feedAll one caps s pairs = .ok s' ∧ Inv s' ∧ P s' [] := by
  induction pairs generalizing s with
  | nil => exact ⟨s, rfl, h, hP⟩
  | cons p rest ih =>
      obtain ⟨i, tok⟩ := p
      by_cases hi : i ∈ s.running
      · obtain ⟨s₁, hok, h₁, hone₁⟩ := hone s i tok h hi
        have hfedOne := fedOne_spec h hi hcaps h₁ hone₁
        obtain ⟨s', hok', hinv', hP'⟩ := ih hfedOne.inv (hfedOne.capsOk hi hcaps)
          (fun p hp => hfedOne.stays h hi (hpairs p (List.mem_cons_of_mem _ hp)))
          (hfed s i tok rest s₁ h hcaps hi h₁ hone₁ hP)
        refine ⟨s', ?_, hinv', hP'⟩
        simp only [Scheduler.feedAll, hok, bind, Except.bind]
        exact hok'
      · have hfin : (s.seqs i).status = .finished :=
          (hpairs (i, tok) List.mem_cons_self).resolve_left hi
        have habsent := h.finished_absent hfin
        obtain ⟨s', hok', hinv', hP'⟩ :=
          ih (credit_inv h hcaps i (Or.inr habsent)) (credit_capsOk habsent hcaps)
            (fun p hp => credit_stays (hpairs p (List.mem_cons_of_mem _ hp)))
            (hdone s i tok rest h habsent hP)
        refine ⟨s', ?_, hinv', hP'⟩
        simp only [Scheduler.feedAll, hskip s i tok hfin, bind, Except.bind]
        exact hok'

end TurboServe.Core
