import TurboServe.Runtime.Naive
import TurboServe.Invariants.Answers

/-!
# Where the baseline engines and the engine stop

Both read the sampled tokens of a request one at a time, with the same stop conditions in
another order. They stop at the same token with the same text. The reasons differ exactly if
the last allowed token is also an end token or completes a stop string: the engine has then
already met the token limit.
-/

namespace TurboServe.Runtime

open TurboServe.Core TurboServe.Lib
open TurboServe.Spec (EngineStops engineRule engineRule_append)

/-! ## §1  The two orders -/

/-- The end tokens first, then the stop strings, then the checks of the core. -/
def baselineRule (stops : EngineStops) : StopRule := fun p out =>
  match out.getLast? with
  | none => none
  | some tok =>
      if tok ∈ stops.eosTokenIds ∧ p.ignoreEos = false then some .stop
      else if stops.stopString p out then some .stop
      else stopRule none p out

variable {stops : EngineStops} {p : SamplingParams} {out : List TokenId} {tok : TokenId}

theorem baselineRule_concat : baselineRule stops p (out ++ [tok]) =
    if tok ∈ stops.eosTokenIds ∧ p.ignoreEos = false then some .stop
    else if stops.stopString p (out ++ [tok]) then some .stop
    else stopRule none p (out ++ [tok]) := by
  unfold baselineRule
  rw [List.getLast?_concat]

/-- And so does a baseline engine. -/
theorem baselineRule_eq_none :
    baselineRule stops p (out ++ [tok]) = none ↔ engineRule stops p (out ++ [tok]) = none := by
  rw [engineRule_eq_none, baselineRule_concat, stopRule_concat, Ends, ← not_le, not_or]
  split
  · rename_i heos
    exact iff_of_false (Option.some_ne_none _) fun h => h.2.1.1 heos
  rename_i heos
  split
  · rename_i hstring
    exact iff_of_false (Option.some_ne_none _) fun h => h.2.1.2 hstring
  rename_i hstring
  split
  · rename_i hid
    exact iff_of_false (Option.some_ne_none _) fun h => h.1 hid
  rename_i hid
  split
  · rename_i hlen
    exact iff_of_false (Option.some_ne_none _) fun h => h.2.2 hlen
  · rename_i hlen
    exact iff_of_true rfl ⟨hid, ⟨heos, hstring⟩, hlen⟩

/-- The token limit hides an end token or a stop string from the engine only. -/
theorem rules_agree_iff :
    engineRule stops p (out ++ [tok]) = baselineRule stops p (out ++ [tok]) ↔
      ¬ (tok ∉ p.stopTokenIds ∧ Ends stops p out tok ∧
        p.maxTokens ≤ (out ++ [tok]).length) := by
  rw [engineRule_append, baselineRule_concat, stopRule_concat, Ends]
  by_cases hid : tok ∈ p.stopTokenIds
  · simp [hid]
  rw [if_neg hid]
  by_cases hlen : p.maxTokens ≤ (out ++ [tok]).length
  · rw [if_pos hlen]
    show some FinishReason.length = _ ↔ _
    by_cases heos : tok ∈ stops.eosTokenIds ∧ p.ignoreEos = false
    · rw [if_pos heos]
      exact iff_of_false (by simp) fun h => h ⟨hid, Or.inl heos, hlen⟩
    rw [if_neg heos]
    by_cases hstring : stops.stopString p (out ++ [tok]) = true
    · rw [if_pos hstring]
      exact iff_of_false (by simp) fun h => h ⟨hid, Or.inr hstring, hlen⟩
    · rw [if_neg hstring]
      exact iff_of_true rfl fun h => h.2.1.elim heos hstring
  · rw [if_neg hlen]
    exact iff_of_true rfl fun h => hlen h.2.2

/-! ## §2  A stream of sampled tokens -/

/-- The first `n` tokens of a stream. -/
def firstTokens (σ : ℕ → TokenId) (n : ℕ) : List TokenId := (List.range n).map σ

/-- Nothing stops the request before its last allowed token, and that one, no stop token of
the request, is an end token of the checkpoint or completes a stop string. -/
def LateStop (stops : EngineStops) (p : SamplingParams) (σ : ℕ → TokenId) : Prop :=
  (∀ k, k + 1 < p.maxTokens →
    σ k ∉ p.stopTokenIds ∧ ¬ Ends stops p (firstTokens σ k) (σ k)) ∧
  σ (p.maxTokens - 1) ∉ p.stopTokenIds ∧
    Ends stops p (firstTokens σ (p.maxTokens - 1)) (σ (p.maxTokens - 1))

variable {σ : ℕ → TokenId}

theorem length_firstTokens (σ : ℕ → TokenId) (n : ℕ) : (firstTokens σ n).length = n := by
  rw [firstTokens, List.length_map, List.length_range]

theorem firstTokens_succ (σ : ℕ → TokenId) (n : ℕ) :
    firstTokens σ (n + 1) = firstTokens σ n ++ [σ n] := by
  rw [firstTokens, List.range_succ, List.map_append]
  rfl

theorem take_firstTokens {k n : ℕ} (h : k ≤ n) :
    (firstTokens σ n).take k = firstTokens σ k := by
  rw [firstTokens, ← List.map_take, List.take_range, min_eq_left h]
  rfl

/-- Both rules fire first at the same token, the last allowed one at the latest. -/
theorem exists_first_stop (stops : EngineStops) (p : SamplingParams) (σ : ℕ → TokenId) :
    ∃ k < p.maxTokens, engineRule stops p (firstTokens σ (k + 1)) ≠ none ∧
      ∀ j < k, engineRule stops p (firstTokens σ (j + 1)) = none := by
  have hpos := p.one_le_maxTokens
  have hlast : engineRule stops p (firstTokens σ (p.maxTokens - 1 + 1)) ≠ none := by
    intro hnone
    rw [firstTokens_succ] at hnone
    have hlen := (engineRule_eq_none.mp hnone).2.2
    rw [← firstTokens_succ, length_firstTokens] at hlen
    omega
  have hex : ∃ k, engineRule stops p (firstTokens σ (k + 1)) ≠ none := ⟨_, hlast⟩
  refine ⟨Nat.find hex, ?_, Nat.find_spec hex, fun j hj => not_not.mp (Nat.find_min hex hj)⟩
  have hle := Nat.find_min' hex hlast
  omega

/-- What a loop with one of the rules reads of a stream. -/
theorem feed_stream {stop : StopRule} {k n : ℕ} (hk : k < n) {reason : FinishReason}
    (hstop : stop p (firstTokens σ (k + 1)) = some reason)
    (hbefore : ∀ j < k, stop p (firstTokens σ (j + 1)) = none) :
    feedUntil (stop p) [] (firstTokens σ n) = (firstTokens σ (k + 1), some reason) := by
  have htake : (firstTokens σ n).take (k + 1) = firstTokens σ (k + 1) := take_firstTokens hk
  rw [← htake] at hstop ⊢
  refine feedUntil_of_first (by rwa [length_firstTokens]) hstop fun j hj => ?_
  rw [take_firstTokens (by omega)]
  exact hbefore j hj

/-- At the token where both stop, the reasons differ only for a late stop. -/
theorem stream_agrees_iff {k : ℕ} (hk : k < p.maxTokens)
    (hstop : engineRule stops p (firstTokens σ (k + 1)) ≠ none)
    (hbefore : ∀ j < k, engineRule stops p (firstTokens σ (j + 1)) = none) :
    engineRule stops p (firstTokens σ (k + 1)) = baselineRule stops p (firstTokens σ (k + 1)) ↔
      ¬ LateStop stops p σ := by
  rw [firstTokens_succ, rules_agree_iff, ← firstTokens_succ, length_firstTokens]
  refine not_congr ⟨?_, ?_⟩
  · rintro ⟨hid, hends, hlen⟩
    obtain rfl : k = p.maxTokens - 1 := by omega
    refine ⟨fun j hj => ?_, hid, hends⟩
    have hnone := hbefore j (by omega)
    rw [firstTokens_succ] at hnone
    exact ⟨(engineRule_eq_none.mp hnone).1, (engineRule_eq_none.mp hnone).2.1⟩
  · rintro ⟨hgo, hid, hends⟩
    have hlast : k = p.maxTokens - 1 := by
      by_contra hne
      obtain ⟨hid', hends'⟩ := hgo k (by omega)
      rw [firstTokens_succ] at hstop
      refine hstop (engineRule_eq_none.mpr ⟨hid', hends', ?_⟩)
      rw [← firstTokens_succ, length_firstTokens]
      omega
    subst hlast
    exact ⟨hid, hends, by omega⟩

/-! ## §3  The baseline engine -/

/-- The loop over a row reads it by the baseline's rule. -/
theorem BaselineEngine.trim_eq (b : BaselineEngine) (seq : Sequence)
    (hgo : seq.isFinished = false) {row final : List TokenId} {reason : FinishReason}
    (h : feedUntil (baselineRule (checkpointStops b.eosTokenIds b.decode) seq.sampling)
      seq.outputTokenIds row = (final, some reason)) :
    b.trim seq (decoderAfter b.decode seq.sampling seq.outputTokenIds) row =
      .ok ({ seq with outputTokenIds := final },
        decoderAfter b.decode seq.sampling final, reason) := by
  induction row generalizing seq with
  | nil => cases h
  | cons tok rest ih =>
      have happend : seq.appendToken tok = .ok (appended seq tok) := by
        rw [Sequence.appendToken, hgo]
        rfl
      have hrule : baselineRule (checkpointStops b.eosTokenIds b.decode) seq.sampling
          (seq.outputTokenIds ++ [tok]) =
          if tok ∈ b.eosTokenIds ∧ seq.sampling.ignoreEos = false then some .stop
          else if completesStop b.decode seq.sampling (seq.outputTokenIds ++ [tok]) then
            some .stop
          else stopRule none seq.sampling (seq.outputTokenIds ++ [tok]) := baselineRule_concat
      rw [feedUntil, hrule] at h
      rw [BaselineEngine.trim, happend]
      show (if _ then _ else if _ then _ else _) = _
      rw [stopRule_append, ← completesStop_concat, ← decoderAfter_concat]
      by_cases heos : tok ∈ b.eosTokenIds ∧ seq.sampling.ignoreEos = false
      · rw [if_pos heos] at h
        rw [if_pos heos]
        cases h
        rfl
      rw [if_neg heos] at h
      rw [if_neg heos]
      by_cases hstring : completesStop b.decode seq.sampling (seq.outputTokenIds ++ [tok]) = true
      · rw [if_pos hstring] at h
        rw [if_pos hstring]
        cases h
        rfl
      rw [if_neg hstring] at h
      rw [if_neg hstring]
      cases hcore : stopRule none seq.sampling (seq.outputTokenIds ++ [tok]) with
      | some reason =>
          rw [hcore] at h
          cases h
          rfl
      | none =>
          rw [hcore] at h
          exact ih (appended seq tok) hgo h

/-- A request the engine could take is one a baseline engine can package. -/
theorem BaselineEngine.buildOutput_eq (b : BaselineEngine) {item : Scheduler.Request}
    (hprompt : item.promptTokenIds ≠ []) (hlora : noLora ≤ item.loraId)
    {row final : List TokenId} {reason : FinishReason}
    (h : feedUntil (baselineRule (checkpointStops b.eosTokenIds b.decode) item.sampling) []
      row = (final, some reason)) :
    ∃ o, b.buildOutput item row = .ok o ∧ o.newTokenIds = final ∧
      o.finishReason = some reason ∧ o.textDelta = textOf b.decode item.sampling final := by
  obtain ⟨seq, hseq, hsampling, hout, hgo⟩ : ∃ seq : Sequence,
      Sequence.create 0 item.requestId item.promptTokenIds item.sampling item.tenantId
        item.priority item.loraId [] = .ok seq ∧ seq.sampling = item.sampling ∧
      seq.outputTokenIds = [] ∧ seq.isFinished = false := by
    unfold Sequence.create
    rw [dif_neg hprompt, dif_neg (not_lt.mpr hlora)]
    exact ⟨_, rfl, rfl, rfl, rfl⟩
  have hread : feedUntil (baselineRule (checkpointStops b.eosTokenIds b.decode) seq.sampling)
      seq.outputTokenIds row = (final, some reason) := by
    rwa [hsampling, hout]
  have htrim := b.trim_eq seq hgo hread
  have hstart : decoderAfter b.decode seq.sampling seq.outputTokenIds =
      .create (stopTexts item.sampling) [] := by
    rw [hsampling, hout]
    rfl
  rw [hstart] at htrim
  unfold BaselineEngine.buildOutput
  rw [hseq]
  show ∃ o, (b.trim seq _ row >>= _) = .ok o ∧ _
  rw [htrim]
  have hfinish : ({ seq with outputTokenIds := final } : Sequence).finish reason none =
      { seq with
        outputTokenIds := final, status := .finished, finishReason := some reason
        stopTokenId := none } := by
    unfold Sequence.finish
    rw [show ({ seq with outputTokenIds := final } : Sequence).isFinished = false from hgo]
    rfl
  refine ⟨_, rfl, ?_, ?_, ?_⟩
  · show (Sequence.finish _ reason none).outputTokenIds = final
    rw [hfinish]
  · show (Sequence.finish _ reason none).finishReason = some reason
    rw [hfinish]
  · rw [textOf, ← hsampling]
    rfl

/-! ## §4  The same stop -/

/-- The same tokens, the same reason and the same text. -/
structure SameEnd (o o' : RequestOutput) : Prop where
  tokens : o.newTokenIds = o'.newTokenIds
  reason : o.finishReason = o'.finishReason
  text : o.textDelta = o'.textDelta

/-- A request in an engine that serves others too, its tokens coming back in the order of the
stream, and a baseline engine on a row of the same stream: tokens and text agree, and the
outputs do unless the stop is a late one. -/
theorem baseline_agrees_iff {D W : Type} [BlockDigest D] [DecidableEq D] [VirtualTime W]
    {e e₁ : LLMEngine D W} (h : Reachable e.scheduler) {r : Scheduler.Request} {i : SeqId}
    (hadd : e.addRequest r = .ok (i, e₁)) {events : List EngineEvent}
    (hadmits : e₁.Admits events) {m n : ℕ} (hm : r.sampling.maxTokens ≤ m)
    (hn : r.sampling.maxTokens ≤ n) (hfed : fedTokens i events = firstTokens σ m) :
    ∃ ran total o, e₁.run events = .ok ran ∧ accumulated r.requestId ran.1 = some total ∧
      BaselineEngine.buildOutput ⟨e.eosTokenIds, e.decode⟩ r (firstTokens σ n) = .ok o ∧
      total.newTokenIds = o.newTokenIds ∧ total.textDelta = o.textDelta ∧
      (SameEnd total o ↔
        ¬ LateStop (checkpointStops e.eosTokenIds e.decode) r.sampling σ) := by
  obtain ⟨⟨hprompt, hlora⟩, hstart⟩ := Follows.added h.inv hadd
  obtain ⟨ran, hran, hfollows⟩ := hstart.run hadmits
  rw [List.nil_append, List.nil_append, hfed] at hfollows
  -- where both stop
  obtain ⟨k, hk, hstop, hbefore⟩ :=
    exists_first_stop (checkpointStops e.eosTokenIds e.decode) r.sampling σ
  obtain ⟨reason, hreason⟩ := Option.ne_none_iff_exists'.mp hstop
  have hboth := stream_agrees_iff hk hstop hbefore
  have hengine := feed_stream (n := m) (by omega) hreason hbefore
  have hsame : baselineRule (checkpointStops e.eosTokenIds e.decode) r.sampling
      (firstTokens σ (k + 1)) ≠ none := by
    rw [firstTokens_succ, Ne, baselineRule_eq_none, ← firstTokens_succ]
    exact hstop
  obtain ⟨reason', hreason'⟩ := Option.ne_none_iff_exists'.mp hsame
  have hbaseline := feed_stream (n := n) (by omega) hreason' fun j hj => by
    rw [firstTokens_succ, baselineRule_eq_none, ← firstTokens_succ]
    exact hbefore j hj
  -- what the two answer
  obtain ⟨o, hbuild, htokens, hwhy, htext⟩ :=
    BaselineEngine.buildOutput_eq ⟨e.eosTokenIds, e.decode⟩ hprompt hlora hbaseline
  obtain ⟨-, htext', hwhy'⟩ := hfollows.ended reason (by rw [hengine])
  have htokens' := hfollows.tokens_eq
  rw [hengine] at htext' htokens'
  obtain ⟨total, htotal, hwhy'⟩ := Option.bind_eq_some_iff.mp hwhy'
  rw [tokensSoFar, htotal] at htokens'
  rw [textSoFar, htotal] at htext'
  have htok : total.newTokenIds = o.newTokenIds := by
    rw [htokens]
    exact htokens'
  have htxt : total.textDelta = o.textDelta := by
    rw [htext]
    exact htext'
  refine ⟨ran, total, o, hran, htotal, hbuild, htok, htxt, ?_⟩
  rw [← hboth, hreason, hreason', ← hwhy', ← hwhy]
  exact ⟨fun hend => hend.reason, fun hend => ⟨htok, hend, htxt⟩⟩

/-- Whether each group is for sequences in flight or finished. -/
def LLMEngine.admits {D W : Type} [BlockDigest D] [DecidableEq D] [VirtualTime W]
    (e : LLMEngine D W) : List EngineEvent → Bool
  | [] => true
  | .schedule :: rest =>
      match e.event .schedule with
      | .error _ => true
      | .ok r => r.2.admits rest
  | .process pairs :: rest =>
      decide (∀ p ∈ pairs,
        p.1 ∈ e.scheduler.inFlight ∨ (e.scheduler.seqs p.1).isFinished = true) &&
        match e.event (.process pairs) with
        | .error _ => true
        | .ok r => r.2.admits rest

theorem LLMEngine.admits_iff {D W : Type} [BlockDigest D] [DecidableEq D] [VirtualTime W]
    {e : LLMEngine D W} {events : List EngineEvent} :
    e.admits events = true ↔ e.Admits events := by
  induction events generalizing e with
  | nil => exact iff_of_true rfl trivial
  | cons ev rest ih =>
      cases ev with
      | schedule =>
          rw [admits, Admits]
          cases he : e.event .schedule with
          | error fault => exact iff_of_true rfl fun r hr => (by cases hr)
          | ok r =>
              rw [ih]
              refine ⟨fun h r' hr' => ?_, fun h => h r rfl⟩
              cases hr'
              exact h
      | process pairs =>
          rw [admits, Admits, Bool.and_eq_true, decide_eq_true_iff]
          refine and_congr_right fun _ => ?_
          cases he : e.event (.process pairs) with
          | error fault => exact iff_of_true rfl fun r hr => (by cases hr)
          | ok r =>
              rw [ih]
              refine ⟨fun h r' hr' => ?_, fun h => h r rfl⟩
              cases hr'
              exact h

theorem four_tokens : 1 ≤ 4 := by decide

/-- Four tokens at most, and a stop string. -/
def stopRequest : Scheduler.Request :=
  { requestId := "a", promptTokenIds := [1]
    sampling := { maxTokens := 4, stop := ["yz"], one_le_maxTokens := four_tokens } }

/-- Each token a letter. -/
def letters (ids : List TokenId) : Text :=
  ids.map fun t => if t = 5 then 'x' else if t = 6 then 'y' else 'z'

/-- An engine with the given scheduler; `9` ends a text. -/
def spelling (s : Scheduler FreeDigest ℚ) : LLMEngine FreeDigest ℚ where
  scheduler := s
  eosTokenIds := [9]
  decode := letters
  decoders := fun _ => none

/-- Its tokens come back one, then three at a time, between those of another request. -/
def between : List EngineEvent :=
  [.schedule, .process [(0, 3), (1, 5)], .schedule, .process [(1, 6), (0, 3), (1, 7), (1, 5)]]

def spelled (k : ℕ) : TokenId := [5, 6, 7, 5].getD k 0

/-- The request is number 1, and stops at its third token, before the stop string. -/
def stopsEarly (s : Scheduler FreeDigest ℚ) : Bool :=
  match (spelling s).addRequest stopRequest with
  | .error _ => false
  | .ok (i, e₁) =>
      decide (i = 1) && e₁.admits between &&
        match e₁.run between with
        | .error _ => false
        | .ok ran => decide ((accumulated "a" ran.1).map (fun o : RequestOutput =>
            (o.newTokenIds, o.finishReason, o.textDelta)) = some ([5, 6, 7], some .stop, ['x']))

theorem baseline_agrees_iff_stopString :
    ∃ (s : Scheduler FreeDigest ℚ) (e₁ : LLMEngine FreeDigest ℚ)
      (ran : List RequestOutput × LLMEngine FreeDigest ℚ) (total o : RequestOutput),
      Reachable s ∧ s.inFlight = [0] ∧ (spelling s).addRequest stopRequest = .ok (1, e₁) ∧
      e₁.run between = .ok ran ∧ accumulated "a" ran.1 = some total ∧
      BaselineEngine.buildOutput ⟨[9], letters⟩ stopRequest [5, 6, 7, 5] = .ok o ∧
      total.newTokenIds = [5, 6, 7] ∧ total.finishReason = some .stop ∧
      total.textDelta = ['x'] ∧ SameEnd total o := by
  have hrun : (runOps (fresh FreeDigest smallConfig 8)
      [.addRequest { requestId := "b", promptTokenIds := [1] }]).map
        (fun s => decide (s.inFlight = [0]) && stopsEarly s) = some true := by
    decide +kernel
  obtain ⟨s, hs, hboth⟩ := Option.map_eq_some_iff.mp hrun
  obtain ⟨hflight, hstops⟩ := (Bool.and_eq_true _ _).mp hboth
  have hreach : Reachable s := (fresh_reachable smallConfig 8).runOps _ hs
  unfold stopsEarly at hstops
  split at hstops
  · cases hstops
  rename_i i e₁ hadd
  obtain ⟨hhead, hend⟩ := (Bool.and_eq_true _ _).mp hstops
  obtain ⟨hi, hadmits⟩ := (Bool.and_eq_true _ _).mp hhead
  obtain rfl := of_decide_eq_true hi
  obtain ⟨ran, total, o, hran, htotal, hbuild, -, -, hiff⟩ :=
    baseline_agrees_iff (σ := spelled) hreach hadd
      (LLMEngine.admits_iff.mp hadmits) (m := 4) (n := 4) le_rfl le_rfl rfl
  rw [hran] at hend
  have hshown := of_decide_eq_true hend
  rw [show accumulated "a" ran.1 = some total from htotal] at hshown
  obtain ⟨htokens, hrest⟩ := Prod.mk.inj (Option.some.inj hshown)
  obtain ⟨hreason, htext⟩ := Prod.mk.inj hrest
  refine ⟨s, e₁, ran, total, o, hreach, of_decide_eq_true hflight, hadd, hran, htotal, hbuild,
    htokens, hreason, htext, hiff.mpr fun hlate => ?_⟩
  -- the third token completes the stop string
  have hthree : firstTokens spelled 2 ++ [spelled 2] = [5, 6, 7] := rfl
  have hends : Ends (checkpointStops [9] letters) stopRequest.sampling (firstTokens spelled 2)
      (spelled 2) := by
    refine Or.inr ?_
    rw [hthree]
    decide +kernel
  exact (hlate.1 2 (by decide)).2 hends

/-- One token is allowed. -/
def oneTokenRequest : Scheduler.Request :=
  { requestId := "a", promptTokenIds := [1]
    sampling := { maxTokens := 1, one_le_maxTokens := Nat.one_pos } }

/-- An engine without requests; `9` ends a text. -/
def idleEngine : LLMEngine FreeDigest ℚ where
  scheduler := fresh FreeDigest smallConfig 4
  eosTokenIds := [9]
  decode := fun _ => []
  decoders := fun _ => none

/-- The only allowed token is an end token: the engine reports the length, a baseline engine
the stop. -/
theorem reasons_differ :
    ((idleEngine.addRequest oneTokenRequest).bind fun q =>
        (q.2.run [.schedule, .process [(q.1, 9)]]).map fun ran =>
          (accumulated "a" ran.1).map fun o => (o.newTokenIds, o.finishReason)) =
      .ok (some ([9], some .length)) ∧
    ((BaselineEngine.buildOutput ⟨[9], fun _ => []⟩ oneTokenRequest [9]).map fun o =>
        (o.newTokenIds, o.finishReason)) = .ok ([9], some .stop) := by
  constructor <;> rfl

end TurboServe.Runtime
