import TurboServe.Runtime.LlmEngine
import TurboServe.Properties.StopStrings
import TurboServe.Spec.Feedback
import TurboServe.System.Completion

/-!
# What the engine answers to its tokens

The decoder of a request is a function of the output so far; so is the reason for which the
engine ends it. A token that comes back is answered with one delta and changes nothing of the
other requests.
-/

namespace TurboServe.Runtime

open TurboServe.Core TurboServe.Lib
open TurboServe.Spec (EngineStops engineRule engineRule_append)

/-! ## §1  The decoder of a request -/

/-- The decoder of a request after its output so far, one token at a time. -/
def decoderAfter (decode : List TokenId → Text) (p : SamplingParams) (out : List TokenId) :
    StreamingDecoder :=
  out.foldl (fun d tok => (d.feed decode [tok]).2) (.create (stopTexts p) [])

/-- Whether the last token of an output completes a stop string. -/
def completesStop (decode : List TokenId → Text) (p : SamplingParams) (out : List TokenId) :
    Bool :=
  match out.getLast? with
  | none => false
  | some tok => ((decoderAfter decode p out.dropLast).feed decode [tok]).1.stopped

/-- The stop conditions of a checkpoint with its tokenizer. -/
def checkpointStops (eosTokenIds : List TokenId) (decode : List TokenId → Text) :
    EngineStops := ⟨eosTokenIds, completesStop decode⟩

/-- The text of a request that ends with this output. -/
def textOf (decode : List TokenId → Text) (p : SamplingParams) (out : List TokenId) : Text :=
  ((decoderAfter decode p out).finish decode).2.text

variable {decode : List TokenId → Text} {p : SamplingParams} {out : List TokenId}
  {tok : TokenId}

theorem decoderAfter_concat : decoderAfter decode p (out ++ [tok]) =
    ((decoderAfter decode p out).feed decode [tok]).2 := by
  rw [decoderAfter, List.foldl_append]
  rfl

theorem completesStop_concat : completesStop decode p (out ++ [tok]) =
    ((decoderAfter decode p out).feed decode [tok]).1.stopped := by
  unfold completesStop
  rw [List.getLast?_concat, List.dropLast_concat]

/-- Without a match the matcher still holds no stop string. -/
theorem StopStringMatcher.Holds.feed_going {m : StopStringMatcher} {emitted seen : Text}
    (h : m.Holds emitted seen) {text : Text} (hgo : (m.feed text).1.stop = none) :
    (m.feed text).2.Holds (emitted ++ (m.feed text).1.text) (seen ++ text) := by
  refine (h.feed_none fun i s hit => ?_).2.2
  obtain ⟨j, u, hlead⟩ := exists_leads m.stop_ne_nil hit
  rw [(h.feed_match hlead).1] at hgo
  cases hgo

/-- A match needs new text. -/
theorem StopStringMatcher.Holds.feed_nil {m : StopStringMatcher} {emitted seen : Text}
    (h : m.Holds emitted seen) : (m.feed []).1.stop = none := by
  refine (h.feed_none fun i s hit => h.clear i s ?_).1
  rwa [List.append_nil] at hit

/-- The matcher of a request that has not met a stop string. -/
theorem decoderAfter_holds (hgo : ∀ pre t, pre ++ [t] <+: out →
    completesStop decode p (pre ++ [t]) = false) :
    ∃ emitted seen, (decoderAfter decode p out).matcher.Holds emitted seen := by
  induction out using List.reverseRecOn with
  | nil => exact ⟨[], [], StopStringMatcher.holds_create _⟩
  | append_singleton out tok ih =>
      obtain ⟨emitted, seen, h⟩ := ih fun pre t hpre =>
        hgo pre t (hpre.trans (List.prefix_append _ _))
      have hlast := hgo out tok (List.prefix_refl _)
      rw [completesStop_concat] at hlast
      rw [decoderAfter_concat]
      exact ⟨_, _, h.feed_going (Option.not_isSome_iff_eq_none.mp (ne_true_of_eq_false hlast))⟩

/-- A match leaves nothing to match with. -/
theorem StopStringMatcher.buffer_of_stopped {m : StopStringMatcher} {text : Text}
    (hstop : (m.feed text).1.stopped = true) : (m.feed text).2.buffer = [] := by
  unfold StopStringMatcher.feed at hstop ⊢
  split at hstop
  · cases hstop
  · rename_i hactive
    rw [if_neg hactive]
    simp only at hstop ⊢
    split at hstop
    · rfl
    · cases hstop

/-- Once a stop string was found there is nothing to flush. -/
theorem finish_of_stopped {d : StreamingDecoder} {emitted seen : Text}
    (h : d.matcher.Holds emitted seen)
    (hstop : (d.feed decode [tok]).1.stopped = true) :
    ((d.feed decode [tok]).2.finish decode).1 = [] := by
  have hbuffer : (d.feed decode [tok]).2.matcher.buffer = [] :=
    StopStringMatcher.buffer_of_stopped hstop
  -- a match needs text, and text moves the window past every token
  have hread : (d.feed decode [tok]).2.detokenizer.tokens.length ≤
      (d.feed decode [tok]).2.detokenizer.readOffset := by
    have hmatch : (d.matcher.feed (d.detokenizer.append decode [tok]).1).1.stopped = true :=
      hstop
    show (d.detokenizer.append decode [tok]).2.tokens.length ≤
      (d.detokenizer.append decode [tok]).2.readOffset
    unfold IncrementalDetokenizer.append at hmatch ⊢
    rw [if_neg (List.cons_ne_nil _ _)] at hmatch ⊢
    simp only at hmatch ⊢
    split at hmatch
    · rw [DecodedDelta.stopped, h.feed_nil] at hmatch
      cases hmatch
    · rename_i hlast
      rw [if_neg hlast]
      exact le_rfl
  unfold StreamingDecoder.finish IncrementalDetokenizer.flush StopStringMatcher.flush
  simp only [hbuffer, if_pos hread, List.nil_append, ite_self]

/-! ## §2  The engine's rule -/

/-- The token after `out` is an end token that counts, or completes a stop string. -/
def Ends (stops : EngineStops) (p : SamplingParams) (out : List TokenId) (tok : TokenId) :
    Prop :=
  (tok ∈ stops.eosTokenIds ∧ p.ignoreEos = false) ∨ stops.stopString p (out ++ [tok]) = true

variable {stops : EngineStops}

theorem stopRule_concat : stopRule none p (out ++ [tok]) =
    if tok ∈ p.stopTokenIds then some .stop
    else if p.maxTokens ≤ (out ++ [tok]).length then some .length else none := by
  unfold stopRule
  simp only [List.getLast?_concat, reduceCtorEq, false_and, if_false, ge_iff_le]

/-- The engine goes on. -/
theorem engineRule_eq_none : engineRule stops p (out ++ [tok]) = none ↔
    tok ∉ p.stopTokenIds ∧ ¬ Ends stops p out tok ∧ (out ++ [tok]).length < p.maxTokens := by
  rw [engineRule_append, stopRule_concat, Ends, ← not_le]
  by_cases hid : tok ∈ p.stopTokenIds
  · simp [hid]
  by_cases hlen : p.maxTokens ≤ (out ++ [tok]).length
  · rw [if_neg hid, if_pos hlen]
    exact iff_of_false (Option.some_ne_none _) fun h => h.2.2 hlen
  rw [if_neg hid, if_neg hlen]
  simp only [hid, hlen, not_false_eq_true, and_true, true_and, not_or]
  split
  · rename_i heos
    exact iff_of_false (Option.some_ne_none _) fun h => h.1 heos
  · rename_i heos
    split
    · rename_i hstring
      exact iff_of_false (Option.some_ne_none _) fun h => h.2 hstring
    · rename_i hstring
      exact iff_of_true rfl ⟨heos, hstring⟩

/-! ## §3  One token -/

namespace LLMEngine

variable {D W : Type} [BlockDigest D] [DecidableEq D] [VirtualTime W] {e e' : LLMEngine D W}
  {i : SeqId}

/-- The decoder the next token of `i` goes to. -/
def decoderOf (e : LLMEngine D W) (i : SeqId) : StreamingDecoder :=
  let seq := e.scheduler.seqs i
  (e.decoders seq.requestId).getD (.create (stopTexts seq.sampling) [])

/-- Why the next token of `i` ends it. -/
def endOf (e : LLMEngine D W) (i : SeqId) (tok : TokenId) : Option FinishReason :=
  let seq := e.scheduler.seqs i
  match stopRule none seq.sampling (seq.outputTokenIds ++ [tok]) with
  | some reason => some reason
  | none =>
      if tok ∈ e.eosTokenIds ∧ seq.sampling.ignoreEos = false then some .stop
      else if ((e.decoderOf i).feed e.decode [tok]).1.stopped then some .stop
      else none

/-- The text a last token is answered with. -/
def lastText (e : LLMEngine D W) (i : SeqId) (tok : TokenId) : Text :=
  let fed := (e.decoderOf i).feed e.decode [tok]
  fed.1.text ++ if fed.1.stopped then [] else (fed.2.finish e.decode).1

/-- What token `tok` of sequence `i` did, `o` being the delta it was answered with. -/
structure Answered (e : LLMEngine D W) (i : SeqId) (tok : TokenId) (o : RequestOutput)
    (e' : LLMEngine D W) : Prop where
  inv : Inv e'.scheduler
  eos_eq : e'.eosTokenIds = e.eosTokenIds
  decode_eq : e'.decode = e.decode
  others : ∀ j, j ≠ i → e'.scheduler.seqs j = e.scheduler.seqs j
  inFlight : ∀ j, j ≠ i → (j ∈ e'.scheduler.inFlight ↔ j ∈ e.scheduler.inFlight)
  decoders : ∀ id, id ≠ (e.scheduler.seqs i).requestId → e'.decoders id = e.decoders id
  same : SameRequest (e.scheduler.seqs i) (e'.scheduler.seqs i)
  output_eq : (e'.scheduler.seqs i).outputTokenIds =
    (e.scheduler.seqs i).outputTokenIds ++ [tok]
  requestId_eq : o.requestId = (e.scheduler.seqs i).requestId
  tokens_eq : o.newTokenIds = [tok]
  going : e.endOf i tok = none → i ∈ e'.scheduler.inFlight ∧
    e'.decoders (e.scheduler.seqs i).requestId =
      some ((e.decoderOf i).feed e.decode [tok]).2 ∧
    o.textDelta = ((e.decoderOf i).feed e.decode [tok]).1.text
  ended : ∀ reason, e.endOf i tok = some reason →
    (e'.scheduler.seqs i).isFinished = true ∧ o.finishReason = some reason ∧
    o.textDelta = e.lastText i tok

omit [DecidableEq D] in
/-- The sequence goes on. -/
theorem Answered.kept (h : Inv e.scheduler) (hi : i ∈ e.scheduler.inFlight) {tok : TokenId}
    (hgo : e.endOf i tok = none) :
    Answered e i tok
      (makeOutput (appended (e.scheduler.seqs i) tok) [tok]
        ((e.decoderOf i).feed e.decode [tok]).1.text)
      { e with
        scheduler := e.scheduler.setSeq i (appended (e.scheduler.seqs i) tok)
        decoders := Function.update e.decoders (e.scheduler.seqs i).requestId
          (some ((e.decoderOf i).feed e.decode [tok]).2) } where
  inv := appended_inv h i tok
  eos_eq := rfl
  decode_eq := rfl
  others _ hj := Function.update_of_ne hj _ _
  inFlight _ _ := Iff.rfl
  decoders _ hid := Function.update_of_ne hid _ _
  same := by
    show SameRequest _ (Function.update e.scheduler.seqs i _ i)
    rw [Function.update_self]
    exact ⟨rfl, rfl, rfl, rfl⟩
  output_eq := by
    show (Function.update e.scheduler.seqs i _ i).outputTokenIds = _
    rw [Function.update_self]
  requestId_eq := rfl
  tokens_eq := rfl
  going _ := ⟨hi, Function.update_self _ _ _, rfl⟩
  ended reason hend := by
    rw [hgo] at hend
    cases hend

omit [DecidableEq D] in
/-- The sequence is retired. -/
theorem Answered.retired (h : Inv e.scheduler) {tok : TokenId} {reason : FinishReason}
    {stopTok : Option TokenId} {s' : Scheduler D W} (hinv : Inv s')
    (hr : Retired (e.scheduler.setSeq i (appended (e.scheduler.seqs i) tok)) i
      (finished (appended (e.scheduler.seqs i) tok) reason stopTok) s')
    (hend : e.endOf i tok = some reason) :
    Answered e i tok (makeOutput (s'.seqs i) [tok] (e.lastText i tok))
      { e with
        scheduler := s'
        decoders := Function.update e.decoders (e.scheduler.seqs i).requestId none } := by
  have hself : s'.seqs i = finished (appended (e.scheduler.seqs i) tok) reason stopTok := by
    rw [hr.seqs_eq, Function.update_self]
  have happended := appended_inv h i tok
  exact
    { inv := hinv
      eos_eq := rfl
      decode_eq := rfl
      others := fun j hj => by
        show s'.seqs j = _
        rw [hr.seqs_eq, Function.update_of_ne hj]
        exact Function.update_of_ne hj _ _
      inFlight := fun j hj => by
        show j ∈ s'.inFlight ↔ _
        rw [hr.inFlight_eq happended, happended.nodup.mem_erase_iff, and_iff_right hj]
        exact Iff.rfl
      decoders := fun id hid => Function.update_of_ne hid _ _
      same := by
        show SameRequest _ (s'.seqs i)
        rw [hself]
        exact ⟨rfl, rfl, rfl, rfl⟩
      output_eq := by
        show (s'.seqs i).outputTokenIds = _
        rw [hself]
      requestId_eq := by
        show (s'.seqs i).requestId = _
        rw [hself]
      tokens_eq := rfl
      going := fun hgo => by
        rw [hgo] at hend
        cases hend
      ended := fun reason' hend' => by
        obtain rfl := Option.some.inj (hend.symm.trans hend')
        refine ⟨?_, ?_, rfl⟩
        · show (s'.seqs i).isFinished = true
          rw [hself]
          rfl
        · show (s'.seqs i).finishReason = _
          rw [hself] }

/-- The last delta of a retired sequence. -/
theorem emit_retired {tok : TokenId} (reason : FinishReason) {s' : Scheduler D W}
    (hid : (s'.seqs i).requestId = (e.scheduler.seqs i).requestId)
    (hsampling : (s'.seqs i).sampling = (e.scheduler.seqs i).sampling) :
    (e.withScheduler s').emit i tok (some reason) =
      .ok (makeOutput (s'.seqs i) [tok] (e.lastText i tok),
        { e with
          scheduler := s'
          decoders := Function.update e.decoders (e.scheduler.seqs i).requestId none }) := by
  have hdecoder : (e.withScheduler s').decoderOf i = e.decoderOf i := by
    show (e.decoders (s'.seqs i).requestId).getD (.create (stopTexts (s'.seqs i).sampling) []) =
      _
    rw [hid, hsampling]
    rfl
  have hlast : (e.withScheduler s').lastText i tok = e.lastText i tok := by
    rw [lastText, hdecoder]
    rfl
  rw [← hlast, ← hid]
  unfold LLMEngine.emit lastText
  cases hstop : (((e.withScheduler s').decoderOf i).feed (e.withScheduler s').decode
      [tok]).1.stopped with
  | true =>
      unfold decoderOf at hstop ⊢
      simp only [hstop, if_true, List.append_nil]
      rfl
  | false =>
      unfold decoderOf at hstop ⊢
      simp only [hstop, Bool.false_eq_true, if_false]
      rfl

/-- A token for a sequence in flight is always answered. -/
theorem processToken_spec (h : Inv e.scheduler) (hi : i ∈ e.scheduler.inFlight)
    (tok : TokenId) :
    ∃ o e', e.processToken i tok = .ok (o, e') ∧ Answered e i tok o e' := by
  obtain ⟨s₁, hok, hinv, hkeep, hret⟩ := appendToken_spec h hi tok none
  rw [stopRule_append] at hok hkeep hret
  unfold processToken
  rw [hok]
  -- a retired sequence keeps what the decoder is found by
  have hanswer : ∀ (reason : FinishReason) (stopTok : Option TokenId) (s' : Scheduler D W),
      Inv s' → Retired (e.scheduler.setSeq i (appended (e.scheduler.seqs i) tok)) i
        (finished (appended (e.scheduler.seqs i) tok) reason stopTok) s' →
      e.endOf i tok = some reason →
      ∃ o e', (e.withScheduler s').emit i tok (some reason) = .ok (o, e') ∧
        Answered e i tok o e' := by
    intro reason stopTok s' hinv' hr hend
    have hself : s'.seqs i = finished (appended (e.scheduler.seqs i) tok) reason stopTok := by
      rw [hr.seqs_eq, Function.update_self]
    exact ⟨_, _, emit_retired reason (by rw [hself]) (by rw [hself]),
      Answered.retired h hinv' hr hend⟩
  cases hcore : stopRule none (e.scheduler.seqs i).sampling
      ((e.scheduler.seqs i).outputTokenIds ++ [tok]) with
  | some reason =>
      have hend : e.endOf i tok = some reason := by
        unfold endOf
        simp only [hcore]
      exact hanswer reason _ s₁ hinv (hret reason hcore) hend
  | none =>
      obtain rfl := hkeep hcore
      have hmem : i ∈ (e.scheduler.setSeq i (appended (e.scheduler.seqs i) tok)).inFlight := hi
      have hself : (e.scheduler.setSeq i (appended (e.scheduler.seqs i) tok)).seqs i =
          appended (e.scheduler.seqs i) tok := Function.update_self _ _ _
      show ∃ o e', (if tok ∈ e.eosTokenIds ∧
          ((e.scheduler.setSeq i (appended (e.scheduler.seqs i) tok)).seqs i).sampling.ignoreEos =
            false then _ else _) = Except.ok (o, e') ∧ _
      rw [hself]
      by_cases heos : tok ∈ e.eosTokenIds ∧ (e.scheduler.seqs i).sampling.ignoreEos = false
      · rw [if_pos heos]
        obtain ⟨s', hfinish, hinv', hr⟩ := finish_spec hinv hmem .stop (some tok)
        rw [hfinish]
        rw [hself] at hr
        refine hanswer .stop (some tok) s' hinv' hr ?_
        unfold endOf
        simp only [hcore]
        exact if_pos heos
      rw [if_neg heos]
      cases hstop : ((e.decoderOf i).feed e.decode [tok]).1.stopped with
      | true =>
          obtain ⟨s', hfinish, hinv', hr⟩ := finish_spec hinv hmem .stop none
          rw [hself] at hr
          have hend : e.endOf i tok = some .stop := by
            unfold endOf
            simp only [hcore, if_neg heos, hstop, if_true]
          refine ⟨_, _, ?_, Answered.retired h hinv' hr hend⟩
          unfold LLMEngine.emit withScheduler lastText
          unfold decoderOf at hstop ⊢
          simp only [hself, hstop, hfinish, if_true, List.append_nil]
          rfl
      | false =>
          have hend : e.endOf i tok = none := by
            unfold endOf
            simp only [hcore, if_neg heos, hstop, Bool.false_eq_true, if_false]
          refine ⟨_, _, ?_, Answered.kept h hi hend⟩
          unfold LLMEngine.emit withScheduler
          unfold decoderOf at hstop ⊢
          simp only [hself, hstop]

/-! ## §4  The deltas of one request -/

end LLMEngine

/-- The tokens a request has got so far. -/
def tokensSoFar (requestId : String) (outputs : List RequestOutput) : List TokenId :=
  ((accumulated requestId outputs).map (·.newTokenIds)).getD []

/-- The text a request has got so far. -/
def textSoFar (requestId : String) (outputs : List RequestOutput) : Text :=
  ((accumulated requestId outputs).map (·.textDelta)).getD []

variable {requestId : String} {outputs : List RequestOutput} {o : RequestOutput}

theorem accumulated_concat (h : o.requestId = requestId) :
    accumulated requestId (outputs ++ [o]) =
      some (accumulate (accumulated requestId outputs) o) := by
  have hself : [o].filter (fun o => decide (o.requestId = requestId)) = [o] :=
    List.filter_cons_of_pos (by simpa using h)
  unfold accumulated
  rw [List.filter_append, hself, List.foldl_append]
  rfl

theorem accumulated_concat_of_ne (h : o.requestId ≠ requestId) :
    accumulated requestId (outputs ++ [o]) = accumulated requestId outputs := by
  unfold accumulated
  rw [List.filter_append, List.filter_cons_of_neg (by simpa using h), List.filter_nil,
    List.append_nil]

theorem tokensSoFar_concat (h : o.requestId = requestId) :
    tokensSoFar requestId (outputs ++ [o]) =
      tokensSoFar requestId outputs ++ o.newTokenIds := by
  unfold tokensSoFar
  rw [accumulated_concat h]
  cases accumulated requestId outputs <;> rfl

theorem textSoFar_concat (h : o.requestId = requestId) :
    textSoFar requestId (outputs ++ [o]) = textSoFar requestId outputs ++ o.textDelta := by
  unfold textSoFar
  rw [accumulated_concat h]
  cases accumulated requestId outputs <;> rfl

theorem finishReason_concat (h : o.requestId = requestId) :
    (accumulated requestId (outputs ++ [o])).bind (·.finishReason) = o.finishReason := by
  rw [accumulated_concat h]
  cases accumulated requestId outputs <;> rfl

/-- Request `requestId`, sequence `i`, after the tokens `fed` came back for it, `outputs`
being everything the engine has answered. -/
structure Follows {D W : Type} [BlockDigest D] [DecidableEq D] [VirtualTime W]
    (eos : List TokenId) (decode : List TokenId → Text) (p : SamplingParams)
    (requestId : String) (i : SeqId) (outputs : List RequestOutput) (fed : List TokenId)
    (e : LLMEngine D W) : Prop where
  inv : Inv e.scheduler
  eos_eq : e.eosTokenIds = eos
  decode_eq : e.decode = decode
  alone : ∀ j ∈ e.scheduler.inFlight, j ≠ i → (e.scheduler.seqs j).requestId ≠ requestId
  request_eq : (e.scheduler.seqs i).requestId = requestId
  sampling_eq : (e.scheduler.seqs i).sampling = p
  output_eq : (e.scheduler.seqs i).outputTokenIds =
    (feedUntil (engineRule (checkpointStops eos decode) p) [] fed).1
  tokens_eq : tokensSoFar requestId outputs =
    (feedUntil (engineRule (checkpointStops eos decode) p) [] fed).1
  going : (feedUntil (engineRule (checkpointStops eos decode) p) [] fed).2 = none →
    i ∈ e.scheduler.inFlight ∧ e.decoders requestId = some (decoderAfter decode p fed) ∧
      textSoFar requestId outputs = (decoderAfter decode p fed).text
  ended : ∀ reason,
    (feedUntil (engineRule (checkpointStops eos decode) p) [] fed).2 = some reason →
    (e.scheduler.seqs i).isFinished = true ∧
      textSoFar requestId outputs =
        textOf decode p (feedUntil (engineRule (checkpointStops eos decode) p) [] fed).1 ∧
      (accumulated requestId outputs).bind (·.finishReason) = some reason

namespace Follows

variable {D W : Type} [BlockDigest D] [DecidableEq D] [VirtualTime W] {e e' : LLMEngine D W}
  {eos : List TokenId} {i j : SeqId} {fed : List TokenId}

/-- A token for another request. -/
theorem other (h : Follows eos decode p requestId i outputs fed e)
    (hfly : j ∈ e.scheduler.inFlight) (hj : j ≠ i)
    (ha : LLMEngine.Answered e j tok o e') :
    Follows eos decode p requestId i (outputs ++ [o]) fed e' := by
  have hne := h.alone j hfly hj
  have hseq := ha.others i hj.symm
  have hacc : accumulated requestId (outputs ++ [o]) = accumulated requestId outputs :=
    accumulated_concat_of_ne (by rwa [ha.requestId_eq])
  have htokens : tokensSoFar requestId (outputs ++ [o]) = tokensSoFar requestId outputs := by
    rw [tokensSoFar, hacc, tokensSoFar]
  have htext : textSoFar requestId (outputs ++ [o]) = textSoFar requestId outputs := by
    rw [textSoFar, hacc, textSoFar]
  refine
    { inv := ha.inv, eos_eq := ha.eos_eq.trans h.eos_eq
      decode_eq := ha.decode_eq.trans h.decode_eq, alone := fun k hk hki => ?_
      request_eq := by rw [hseq, h.request_eq], sampling_eq := by rw [hseq, h.sampling_eq]
      output_eq := by rw [hseq, h.output_eq], tokens_eq := htokens.trans h.tokens_eq
      going := fun hgo => ?_, ended := fun reason hend => ?_ }
  · by_cases hkj : k = j
    · subst hkj
      rw [ha.same.request_eq]
      exact hne
    · rw [ha.others k hkj]
      exact h.alone k ((ha.inFlight k hkj).mp hk) hki
  · obtain ⟨hmem, hdecoder, htxt⟩ := h.going hgo
    exact ⟨(ha.inFlight i hj.symm).mpr hmem, (ha.decoders _ hne.symm).trans hdecoder,
      htext.trans htxt⟩
  · obtain ⟨hfin, htxt, hreason⟩ := h.ended reason hend
    exact ⟨by rw [hseq]; exact hfin, htext.trans htxt, by rw [hacc]; exact hreason⟩

/-- A token past the end is skipped. -/
theorem skip (h : Follows eos decode p requestId i outputs fed e) (tok : TokenId)
    (hend : (feedUntil (engineRule (checkpointStops eos decode) p) [] fed).2 ≠ none) :
    Follows eos decode p requestId i outputs (fed ++ [tok]) e := by
  have hsame : feedUntil (engineRule (checkpointStops eos decode) p) [] (fed ++ [tok]) =
      feedUntil (engineRule (checkpointStops eos decode) p) [] fed := by
    rw [feedUntil_append, if_neg (by simpa using hend)]
  refine { h with
    output_eq := by rw [hsame]; exact h.output_eq
    tokens_eq := by rw [hsame]; exact h.tokens_eq
    going := fun hgo => absurd (by rwa [hsame] at hgo) hend
    ended := fun reason hreason => ?_ }
  rw [hsame] at hreason ⊢
  exact h.ended reason hreason

/-- The engine ends the request by its rule. -/
theorem endOf_eq (h : Follows eos decode p requestId i outputs fed e) (tok : TokenId)
    (hgo : (feedUntil (engineRule (checkpointStops eos decode) p) [] fed).2 = none) :
    e.decoderOf i = decoderAfter decode p fed ∧
      e.endOf i tok = engineRule (checkpointStops eos decode) p (fed ++ [tok]) := by
  obtain ⟨-, hdecoder, -⟩ := h.going hgo
  have hof : e.decoderOf i = decoderAfter decode p fed := by
    unfold LLMEngine.decoderOf
    simp only [h.request_eq, hdecoder, Option.getD_some]
  have hout := h.output_eq.trans (feedUntil_eq_of_none hgo)
  refine ⟨hof, ?_⟩
  rw [engineRule_append]
  unfold LLMEngine.endOf
  simp only [hof, h.sampling_eq, hout, h.eos_eq, h.decode_eq, List.nil_append,
    ← completesStop_concat]
  rfl

/-- The next token of the request. -/
theorem token (h : Follows eos decode p requestId i outputs fed e)
    (hgo : (feedUntil (engineRule (checkpointStops eos decode) p) [] fed).2 = none)
    (ha : LLMEngine.Answered e i tok o e') :
    Follows eos decode p requestId i (outputs ++ [o]) (fed ++ [tok]) e' := by
  obtain ⟨hmem, hdecoder, htext⟩ := h.going hgo
  obtain ⟨hof, hend⟩ := h.endOf_eq tok hgo
  have hid : o.requestId = requestId := ha.requestId_eq.trans h.request_eq
  have hall := feedUntil_eq_of_none hgo
  rw [List.nil_append] at hall
  have hfeed : feedUntil (engineRule (checkpointStops eos decode) p) [] (fed ++ [tok]) =
      (fed ++ [tok], engineRule (checkpointStops eos decode) p (fed ++ [tok])) :=
    feedUntil_concat [] fed tok hgo
  have hafter : (decoderAfter decode p (fed ++ [tok])).text =
      textSoFar requestId outputs ++ ((decoderAfter decode p fed).feed decode [tok]).1.text := by
    rw [htext, decoderAfter_concat]
    rfl
  refine
    { inv := ha.inv, eos_eq := ha.eos_eq.trans h.eos_eq
      decode_eq := ha.decode_eq.trans h.decode_eq, alone := fun j hj hji => ?_
      request_eq := ha.same.request_eq.trans h.request_eq
      sampling_eq := ha.same.sampling_eq.trans h.sampling_eq
      output_eq := ?_, tokens_eq := ?_, going := fun hnone => ?_
      ended := fun reason hreason => ?_ }
  · rw [ha.others j hji]
    exact h.alone j ((ha.inFlight j hji).mp hj) hji
  · rw [ha.output_eq, h.output_eq, hall, hfeed]
  · rw [tokensSoFar_concat hid, h.tokens_eq, hall, ha.tokens_eq, hfeed]
  · rw [hfeed] at hnone
    obtain ⟨hmem', hdec', htxt'⟩ := ha.going (hend.trans hnone)
    rw [h.request_eq, hof, h.decode_eq, ← decoderAfter_concat] at hdec'
    rw [hof, h.decode_eq] at htxt'
    exact ⟨hmem', hdec', by rw [textSoFar_concat hid, htxt', hafter]⟩
  · rw [hfeed] at hreason
    obtain ⟨hfin, hwhy, htxt'⟩ := ha.ended reason (hend.trans hreason)
    refine ⟨hfin, ?_, by rw [finishReason_concat hid, hwhy]⟩
    rw [textSoFar_concat hid, htxt', hfeed]
    unfold LLMEngine.lastText textOf
    simp only [hof, h.decode_eq]
    rw [← List.append_assoc, ← hafter, decoderAfter_concat]
    cases hstop : ((decoderAfter decode p fed).feed decode [tok]).1.stopped with
    | false => rfl
    | true =>
        -- nothing is left to flush after a stop string
        have hheld : ∃ emitted seen, (decoderAfter decode p fed).matcher.Holds emitted seen := by
          refine decoderAfter_holds fun pre t hpre => ?_
          have hnone := engineRule_eq_none.mp (rule_none_on_path hgo hpre)
          exact Bool.eq_false_of_not_eq_true fun hstring => hnone.2.1 (Or.inr hstring)
        obtain ⟨emitted, seen, hholds⟩ := hheld
        have hrest := finish_of_stopped hholds hstop
        have hfinish : ((((decoderAfter decode p fed).feed decode [tok]).2.finish decode).2).text =
            (((decoderAfter decode p fed).feed decode [tok]).2).text ++
              (((decoderAfter decode p fed).feed decode [tok]).2.finish decode).1 := rfl
        rw [hfinish, hrest]
        rfl

/-- A request the engine has just taken. -/
theorem added {r : Scheduler.Request} (h : Inv e.scheduler)
    (hadd : e.addRequest r = .ok (i, e')) :
    (r.promptTokenIds ≠ [] ∧ noLora ≤ r.loraId) ∧
      Follows e.eosTokenIds e.decode r.sampling r.requestId i [] [] e' := by
  unfold LLMEngine.addRequest at hadd
  split at hadd
  · cases hadd
  rename_i hprompt
  split at hadd
  · cases hadd
  rename_i i' s' hsched
  cases hadd
  have hinv : Inv s' := by
    have hkept := addRequest_inv h r
    rwa [hsched] at hkept
  -- the sequence the scheduler made of it
  obtain ⟨seq, hcreate, hqueued⟩ : ∃ seq, Sequence.create e.scheduler.seqCounter r.requestId
      r.promptTokenIds r.sampling r.tenantId r.priority r.loraId [] = .ok seq ∧
      i = e.scheduler.seqCounter ∧
      { e.scheduler with seqCounter := e.scheduler.seqCounter + 1 }.addSequence seq = .ok s' := by
    unfold Scheduler.addRequest at hsched
    split at hsched
    · cases hsched
    simp only at hsched
    split at hsched
    · cases hsched
    · rename_i seq hseq
      split at hsched
      · cases hsched
      · rename_i s'' hadd
        cases hsched
        exact ⟨seq, hseq, rfl, hadd⟩
  obtain ⟨rfl, hadd⟩ := hqueued
  unfold Sequence.create at hcreate
  rw [dif_neg hprompt] at hcreate
  split at hcreate
  · cases hcreate
  rename_i hlora
  cases hcreate
  obtain ⟨-, -, -, hs'⟩ := addSequence_ok hadd
  have hmem : e.scheduler.seqCounter ∈ s'.inFlight := by
    have hreq : (r.requestId, e.scheduler.seqCounter) ∈ s'.byRequest := by
      rw [hs']
      exact List.mem_append_right _ (List.mem_singleton_self _)
    obtain ⟨j, hj, heq⟩ := List.mem_map.mp (hinv.requests.subset hreq)
    rwa [(Prod.mk.inj heq).2] at hj
  have hself : (s'.seqs e.scheduler.seqCounter).requestId = r.requestId ∧
      (s'.seqs e.scheduler.seqCounter).sampling = r.sampling ∧
      (s'.seqs e.scheduler.seqCounter).outputTokenIds = [] := by
    rw [hs']
    simp only [Function.update_self, and_self]
  refine ⟨⟨hprompt, not_lt.mp hlora⟩, ?_⟩
  exact
    { inv := hinv, eos_eq := rfl, decode_eq := rfl
      alone := fun j hj hji hrid => hji (hinv.requestId_inj hj hmem (hrid.trans hself.1.symm))
      request_eq := hself.1, sampling_eq := hself.2.1, output_eq := hself.2.2, tokens_eq := rfl
      going := fun _ => ⟨hmem, Function.update_self _ _ _, rfl⟩
      ended := fun reason hreason => by cases hreason }

/-- A scheduling step keeps what every request has. -/
theorem schedule (h : Follows eos decode p requestId i outputs fed e) :
    ∃ r, e.event .schedule = .ok r ∧
      Follows eos decode p requestId i (outputs ++ r.1) fed r.2 := by
  obtain ⟨out, s', hok, hrun⟩ := schedule_spec h.inv
  have hsame := hrun.sameRequest h.inv
  have hmem : ∀ j, j ∈ s'.inFlight ↔ j ∈ e.scheduler.inFlight := fun j =>
    (hrun.inFlight_perm h.inv).mem_iff
  have hout : (s'.seqs i).outputTokenIds = (e.scheduler.seqs i).outputTokenIds :=
    (hsame i).2.output_eq
  refine ⟨([], e.withScheduler s'), ?_, ?_⟩
  · unfold LLMEngine.event
    rw [hok]
    rfl
  rw [List.append_nil]
  exact
    { inv := hrun.inv h.inv, eos_eq := h.eos_eq, decode_eq := h.decode_eq
      alone := fun j hj hji => by
        show (s'.seqs j).requestId ≠ requestId
        rw [(hsame j).1.request_eq]
        exact h.alone j ((hmem j).mp hj) hji
      request_eq := (hsame i).1.request_eq.trans h.request_eq
      sampling_eq := (hsame i).1.sampling_eq.trans h.sampling_eq
      output_eq := hout.trans h.output_eq, tokens_eq := h.tokens_eq
      going := fun hgo => ⟨(hmem i).mpr (h.going hgo).1, (h.going hgo).2⟩
      ended := fun reason hreason => by
        obtain ⟨hfin, hrest⟩ := h.ended reason hreason
        refine ⟨decide_eq_true (((hrun.status h.inv i).2).mpr ?_), hrest⟩
        exact of_decide_eq_true hfin }

/-- The tokens of a step, in the order in which they come back. -/
theorem process {pairs : List (SeqId × TokenId)}
    (h : Follows eos decode p requestId i outputs fed e)
    (hknown : ∀ q ∈ pairs,
      q.1 ∈ e.scheduler.inFlight ∨ (e.scheduler.seqs q.1).isFinished = true) :
    ∃ r, e.process pairs = .ok r ∧
      Follows eos decode p requestId i (outputs ++ r.1) (fed ++ tokensFor pairs i) r.2 := by
  induction pairs generalizing e outputs fed with
  | nil => exact ⟨([], e), rfl, by simpa [tokensFor] using h⟩
  | cons q rest ih =>
      obtain ⟨j, tok⟩ := q
      rw [LLMEngine.process]
      by_cases hfin : (e.scheduler.seqs j).isFinished = true
      · rw [if_pos hfin]
        have hrest := fun q hq => hknown q (List.mem_cons_of_mem _ hq)
        by_cases hji : j = i
        · subst hji
          have hend : (feedUntil (engineRule (checkpointStops eos decode) p) [] fed).2 ≠ none := by
            intro hnone
            rw [h.inv.not_finished (h.going hnone).1] at hfin
            cases hfin
          obtain ⟨r, hok, hf⟩ := ih (h.skip tok hend) hrest
          rw [tokensFor_cons_self, List.append_cons]
          exact ⟨r, hok, hf⟩
        · rw [tokensFor_cons_of_ne (Ne.symm hji)]
          exact ih h hrest
      · rw [if_neg hfin]
        have hfly : j ∈ e.scheduler.inFlight :=
          (hknown (j, tok) List.mem_cons_self).resolve_right hfin
        obtain ⟨o, e', hok, ha⟩ := LLMEngine.processToken_spec h.inv hfly tok
        rw [hok]
        -- who was known is still known
        have hrest : ∀ q ∈ rest,
            q.1 ∈ e'.scheduler.inFlight ∨ (e'.scheduler.seqs q.1).isFinished = true := by
          intro q hq
          by_cases hqj : q.1 = j
          · rw [hqj]
            cases hend : e.endOf j tok with
            | none => exact Or.inl (ha.going hend).1
            | some reason => exact Or.inr (ha.ended reason hend).1
          · rw [ha.inFlight _ hqj, ha.others _ hqj]
            exact hknown q (List.mem_cons_of_mem _ hq)
        have hnext : Follows eos decode p requestId i (outputs ++ [o])
            (fed ++ tokensFor [(j, tok)] i) e' := by
          by_cases hji : j = i
          · subst hji
            rw [tokensFor_cons_self]
            refine h.token ?_ ha
            cases hwhy : (feedUntil (engineRule (checkpointStops eos decode) p) [] fed).2 with
            | none => rfl
            | some reason => exact absurd (h.ended reason hwhy).1 hfin
          · rw [tokensFor_cons_of_ne (Ne.symm hji)]
            show Follows eos decode p requestId i (outputs ++ [o]) (fed ++ []) e'
            rw [List.append_nil]
            exact h.other hfly hji ha
        obtain ⟨r, hmore, hf⟩ := ih hnext hrest
        refine ⟨(o :: r.1, r.2), ?_, ?_⟩
        · show (e'.process rest >>= _) = _
          rw [hmore]
          rfl
        · have htokens : tokensFor ((j, tok) :: rest) i =
              tokensFor [(j, tok)] i ++ tokensFor rest i := by
            unfold tokensFor
            rw [← List.map_append, ← List.filter_append]
            rfl
          rw [htokens, ← List.append_assoc, List.append_cons]
          exact hf

/-- Whatever the engine does, it does not fail, and the request follows its rule. -/
theorem run {events : List EngineEvent}
    (h : Follows eos decode p requestId i outputs fed e) (hadmits : e.Admits events) :
    ∃ r, e.run events = .ok r ∧
      Follows eos decode p requestId i (outputs ++ r.1) (fed ++ fedTokens i events) r.2 := by
  induction events generalizing e outputs fed with
  | nil => exact ⟨([], e), rfl, by simpa [fedTokens] using h⟩
  | cons ev rest ih =>
      obtain ⟨one, hone, hfollows, hrest⟩ : ∃ one, e.event ev = .ok one ∧
          Follows eos decode p requestId i (outputs ++ one.1) (fed ++ fedTokens i [ev])
            one.2 ∧ one.2.Admits rest := by
        cases ev with
        | schedule =>
            obtain ⟨one, hone, hfollows⟩ := h.schedule
            refine ⟨one, hone, ?_, hadmits one hone⟩
            show Follows eos decode p requestId i (outputs ++ one.1) (fed ++ []) one.2
            rwa [List.append_nil]
        | process pairs =>
            obtain ⟨one, hone, hfollows⟩ := h.process hadmits.1
            refine ⟨one, hone, ?_, hadmits.2 one hone⟩
            show Follows eos decode p requestId i (outputs ++ one.1)
              (fed ++ (tokensFor pairs i ++ [])) one.2
            rwa [List.append_nil]
      obtain ⟨more, hmore, hf⟩ := ih hfollows hrest
      refine ⟨(one.1 ++ more.1, more.2), ?_, ?_⟩
      · rw [LLMEngine.run, hone]
        show (one.2.run rest >>= _) = _
        rw [hmore]
        rfl
      · have htokens : fedTokens i (ev :: rest) = fedTokens i [ev] ++ fedTokens i rest := by
          unfold fedTokens
          rw [← List.flatMap_append]
          rfl
        rw [htokens, ← List.append_assoc, ← List.append_assoc]
        exact hf

end Follows

end TurboServe.Runtime
