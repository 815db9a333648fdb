import TurboServe.System.Loop

/-!
# Scheduling and the output

Serving with a deterministic model: requests arrive, rounds of the step protocol
run, every sampling entry draws the model's token after its context. As long as
each emission gives a sequence all it has left or stays inside its prompt, every
finished request has the output of its own autoregressive generation.

`_emit` decides whether an entry samples by looking at the prompt boundary only.
A resumed sequence cut by the budget inside its generated tokens therefore
samples in the middle of its own text.
-/

namespace TurboServe.Core

variable {D W : Type} [BlockDigest D] [DecidableEq D] [VirtualTime W]

/-! ## §1  Serving -/

/-- Arrivals and rounds in any order, each round from a state that meets `G`. -/
inductive Serve (G : Scheduler D W → Prop) (eos : Option TokenId)
    (sample : Scheduler D W → ScheduledSeq → TokenId) :
    Scheduler D W → Scheduler D W → Prop where
  | arrive {s : Scheduler D W} (r : Scheduler.Request) :
      Serve G eos sample s (s.addRequest r).2
  | round {s s' : Scheduler D W} (hG : G s) (hok : s.step eos sample = .ok s') :
      Serve G eos sample s s'

def serve (G : Scheduler D W → Prop) (eos : Option TokenId)
    (sample : Scheduler D W → ScheduledSeq → TokenId) :
    Lib.TransitionSystem (Scheduler D W) where
  init := Initial
  step := Serve G eos sample

/-- A deterministic model samples the token after the entry's context. -/
def sampleOf (f : List TokenId → TokenId) (s : Scheduler D W) (item : ScheduledSeq) :
    TokenId :=
  f ((s.seqs item.seq).tokenIds.take item.contextLen)

/-- A deterministic model's next token, whoever asks. -/
def nextOf (f : List TokenId → TokenId) : NextToken := fun _ _ => f

theorem serve_inv {G : Scheduler D W → Prop} {eos : Option TokenId}
    {sample : Scheduler D W → ScheduledSeq → TokenId} {s : Scheduler D W}
    (h : (serve G eos sample).Reachable s) : Inv s := by
  induction h with
  | init h => exact h.inv
  | step _ hs ih =>
      cases hs with
      | arrive r => exact addRequest_inv ih r
      | round hG hok =>
          obtain ⟨out, s₁, s'', hs, hok', hback⟩ := step_spec ih eos sample
          rw [hok] at hok'
          cases hok'
          exact hback.inv

/-- A list of events: an arrival, or a round from a state that passes `check`. -/
def serveAll (check : Scheduler D W → Bool) (eos : Option TokenId)
    (sample : Scheduler D W → ScheduledSeq → TokenId) (s : Scheduler D W) :
    List (Option Scheduler.Request) → Option (Scheduler D W)
  | [] => some s
  | some r :: rest => serveAll check eos sample (s.addRequest r).2 rest
  | none :: rest =>
      if check s then
        match s.step eos sample with
        | .ok s' => serveAll check eos sample s' rest
        | .error _ => none
      else none

theorem reachable_serveAll {G : Scheduler D W → Prop} {check : Scheduler D W → Bool}
    (hcheck : ∀ s, Inv s → check s = true → G s) {eos : Option TokenId}
    {sample : Scheduler D W → ScheduledSeq → TokenId} {s s' : Scheduler D W}
    (h : (serve G eos sample).Reachable s) (es : List (Option Scheduler.Request))
    (hes : serveAll check eos sample s es = some s') :
    (serve G eos sample).Reachable s' := by
  induction es generalizing s with
  | nil =>
      cases hes
      exact h
  | cons e es ih =>
      cases e with
      | some r => exact ih (.step h (.arrive r)) hes
      | none =>
          simp only [serveAll] at hes
          split at hes
          · next hc =>
              split at hes
              · next s₁ hok =>
                  exact ih (.step h (.round (hcheck s (serve_inv h) hc) hok)) hes
              · cases hes
          · cases hes

/-! ## §2  Outputs under whole emissions -/

/-- A round from a state whose emissions are whole feeds every sampling sequence
the token its generation would draw next. -/
theorem round_decoded {eos : Option TokenId} {f : List TokenId → TokenId}
    {s s' : Scheduler D W} (h : Inv s) (hwhole : EveryEmission EmitsWhole s)
    (hok : s.step eos (sampleOf f) = .ok s')
    (hd : ∀ j, Decoded (nextOf f) (stopRule eos) (s.seqs j)) (j : SeqId) :
    Decoded (nextOf f) (stopRule eos) (s'.seqs j) := by
  obtain ⟨out, s₁, s'', hs, hok', hback⟩ := step_spec h eos (sampleOf f)
  rw [hok] at hok'
  cases hok'
  have hmem : ∀ i, tokensFor (out.sampled.map fun item =>
      (item.seq, sampleOf f s₁ item)) i ≠ [] → ∃ item ∈ out.sampled, item.seq = i := by
    intro i hi
    obtain ⟨p, hp, rfl⟩ := List.mem_map.mp (tokensFor_ne_nil.mp hi)
    obtain ⟨item, hitem, rfl⟩ := List.mem_map.mp hp
    exact ⟨item, hitem, rfl⟩
  refine hback.decoded h hs (fun i _ => ?_) (fun i hi => ?_) hd j
  · by_cases hi : tokensFor (out.sampled.map fun item =>
        (item.seq, sampleOf f s₁ item)) i = []
    · rw [hi]
      trivial
    · obtain ⟨item, hitem, rfl⟩ := hmem i hi
      rw [fed_of_sampled h hs _ hitem]
      refine ⟨?_, trivial⟩
      have hctx := sampled_whole h hwhole hs hitem
      rw [sampleOf, hctx, ← Sequence.length_tokenIds, List.take_length]
      rfl
  · obtain ⟨item, hitem, rfl⟩ := hmem i hi
    exact (sampled_spec h hs).2 item hitem

/-- Scheduling is invisible in the output of every run whose emissions are
whole: what a finished request has generated is the autoregressive generation
from its own prompt, cut by its own stop condition. -/
theorem scheduling_invisible {eos : Option TokenId} {f : List TokenId → TokenId}
    {s : Scheduler D W}
    (h : (serve (EveryEmission EmitsWhole) eos (sampleOf f)).Reachable s) {i : SeqId}
    (hfin : (s.seqs i).status = .finished) :
    ∃ reason, (s.seqs i).finishReason = some reason ∧
      Lib.autoregress f (stopRule eos (s.seqs i).sampling) (s.seqs i).promptTokenIds
        (s.seqs i).sampling.maxTokens [] = some ((s.seqs i).outputTokenIds, reason) := by
  have hd : ∀ j, Decoded (nextOf f) (stopRule eos) (s.seqs j) := by
    clear hfin
    induction h with
    | init h =>
        obtain ⟨n, caching, -, -, -, -, -, -, hseqs⟩ := h.shape
        intro j
        rw [hseqs]
        exact ⟨.nil, fun _ => Or.inl rfl, fun hf => by cases hf⟩
    | step hr hs ih =>
        cases hs with
        | arrive r => exact addRequest_decoded ih r
        | round hG hok => exact round_decoded (serve_inv hr) hG hok ih
  exact (hd i).result (stopRule_bounded eos) hfin

/-! ## §3  A run that shows the schedule -/

/-- Blocks of one token, a pool of four of them, no prefix cache, and a budget
of `budget` tokens a step. -/
def tightConfig (budget : ℕ) (h : 1 ≤ budget) : SchedulerConfig ℚ :=
  { maxNumSeqs := 2, maxNumBatchedTokens := budget, blockSize := 1
    enablePrefixCaching := false, one_le_maxNumSeqs := Nat.two_pos
    one_le_maxNumBatchedTokens := h, one_le_blockSize := Nat.one_pos, blockSize_pow2 := rfl
    blockSize_le_budget := h }

/-- The model that answers with the number of tokens it has seen. -/
def countTokens (tokens : List TokenId) : TokenId := tokens.length

/-- Two requests of one token each, both for three tokens, and four rounds. -/
def twoRequests : List (Option Scheduler.Request) :=
  [some { requestId := "a", promptTokenIds := [1]
          sampling := { maxTokens := 3, one_le_maxTokens := Nat.le_add_left 1 2 } },
    some { requestId := "b", promptTokenIds := [2]
           sampling := { maxTokens := 3, one_le_maxTokens := Nat.le_add_left 1 2 } },
    none, none, none, none]

/-- Whether the batch of the next round consists of whole emissions. -/
def Scheduler.wholeBatch (s : Scheduler D W) : Bool :=
  match s.schedule with
  | .ok (out, s') => out.scheduled.all fun item =>
      decide (item.contextLen = (s'.seqs item.seq).numTokens ∨
        item.contextLen < (s'.seqs item.seq).numPromptTokens)
  | .error _ => true

theorem whole_of_wholeBatch (s : Scheduler D W) (h : Inv s) (hw : s.wholeBatch = true) :
    EveryEmission EmitsWhole s := by
  refine whole_of_batch h fun out s' hs item hitem => ?_
  rw [Scheduler.wholeBatch, hs] at hw
  exact of_decide_eq_true (List.all_eq_true.mp hw item hitem)

/-- Four tokens a step: the second request is preempted with two tokens
generated, resumed in one piece, and both outputs are right. -/
theorem scheduling_invisible_resumed :
    ∃ s : Scheduler FreeDigest ℚ, s.numPreemptions = 1 ∧
      (s.seqs 1).outputTokenIds = [1, 2, 3] ∧
      ∃ reason, (s.seqs 1).finishReason = some reason ∧
        Lib.autoregress countTokens (stopRule none (s.seqs 1).sampling)
          (s.seqs 1).promptTokenIds (s.seqs 1).sampling.maxTokens [] =
            some ((s.seqs 1).outputTokenIds, reason) := by
  have hrun : ((serveAll Scheduler.wholeBatch none (sampleOf countTokens)
      (fresh FreeDigest (tightConfig 4 (by decide)) 4) twoRequests).map fun s =>
        (s.numPreemptions, (s.seqs 1).outputTokenIds, (s.seqs 1).status)) =
      some (1, [1, 2, 3], .finished) := by decide +kernel
  obtain ⟨s, hs, hobs⟩ := Option.map_eq_some_iff.mp hrun
  simp only [Prod.mk.injEq] at hobs
  obtain ⟨hpre, hout, hfin⟩ := hobs
  have hstart : (serve (EveryEmission EmitsWhole) none (sampleOf countTokens)).Reachable
      (fresh FreeDigest (tightConfig 4 (by decide)) 4) := .init (fresh_initial _ _)
  exact ⟨s, hpre, hout, scheduling_invisible
    (reachable_serveAll whole_of_wholeBatch hstart twoRequests hs) hfin⟩

/-- Two tokens a step: the second request is resumed in pieces of two, samples
its second token again, and finishes with `[1, 2, 2]` where its generation is
`[1, 2, 3]`. -/
theorem scheduling_visible :
    ∃ s : Scheduler FreeDigest ℚ,
      (serve (fun _ => True) none (sampleOf countTokens)).Reachable s ∧
      (s.seqs 1).status = .finished ∧ (s.seqs 1).outputTokenIds = [1, 2, 2] ∧
      Lib.autoregress countTokens (stopRule none (s.seqs 1).sampling)
        (s.seqs 1).promptTokenIds (s.seqs 1).sampling.maxTokens [] =
          some ([1, 2, 3], .length) := by
  have hrun : ((serveAll (fun _ => true) none (sampleOf countTokens)
      (fresh FreeDigest (tightConfig 2 (by decide)) 4) twoRequests).map fun s =>
        ((s.seqs 1).status, (s.seqs 1).outputTokenIds,
          Lib.autoregress countTokens (stopRule none (s.seqs 1).sampling)
            (s.seqs 1).promptTokenIds (s.seqs 1).sampling.maxTokens [])) =
      some (.finished, [1, 2, 2], some ([1, 2, 3], .length)) := by decide +kernel
  obtain ⟨s, hs, hobs⟩ := Option.map_eq_some_iff.mp hrun
  simp only [Prod.mk.injEq] at hobs
  obtain ⟨hfin, hout, hgen⟩ := hobs
  have hstart : (serve (fun _ => True) none (sampleOf countTokens)).Reachable
      (fresh FreeDigest (tightConfig 2 (by decide)) 4) := .init (fresh_initial _ _)
  exact ⟨s, reachable_serveAll (fun _ _ _ => trivial) hstart twoRequests hs, hfin, hout,
    hgen⟩

end TurboServe.Core
