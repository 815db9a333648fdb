import TurboServe.Spec.Tracking

/-!
# KV credit after a speculative step

A decoding sequence that was scheduled with one uncomputed token comes out of a
speculative step with the verified tokens and nothing else of its draft, computed up to
its last token, on KV that is its own. The KV of a rejected draft token is never under a
digest of the prefix index.
-/

namespace TurboServe.Spec

open TurboServe.Core SpecWorld

variable {D W : Type} [BlockDigest D] [DecidableEq D] [VirtualTime W]
variable {sample : Scheduler D W → ScheduledSeq → TokenId} {draft : SeqId → List TokenId}
variable {verify : Verifier} {s s' : Scheduler D W} {out : SchedulerOutput}
variable {e : Executed D W} {maxBatchSize : Option ℕ} {stops : EngineStops}
variable {w : SpecWorld D W}

/-- What a step feeds back for a decode: the tokens of the verdict on a prefix of its
draft, or the sampled token of a step that does not speculate. -/
def FedBack (sample : Scheduler D W → ScheduledSeq → TokenId)
    (draft : SeqId → List TokenId) (verify : Verifier) (e : Executed D W)
    (item : ScheduledSeq) (tokens : List TokenId) : Prop :=
  (∃ kept, kept <+: draft item.seq ∧
    tokens = (verify (e.computed.seqs item.seq) kept).tokens) ∨
  (e.caps item.seq = none ∧ tokens = [sample e.computed item])

/-- What a step makes of one decoding sequence: its output is extended by the verified
tokens, up to the first that stops it; if it goes on, all but its last token are
computed, and over a pool that was right their KV is that of its own text. -/
structure CreditedDecode (w : SpecWorld D W) (stops : EngineStops)
    (sample : Scheduler D W → ScheduledSeq → TokenId) (draft : SeqId → List TokenId)
    (verify : Verifier) (s : Scheduler D W) (out : SchedulerOutput) (e : Executed D W)
    (s' : Scheduler D W) (item : ScheduledSeq) : Prop where
  output : ∃ tokens, FedBack sample draft verify e item tokens ∧
    (s'.seqs item.seq).outputTokenIds =
      (Lib.feedUntil (engineRule stops (s.seqs item.seq).sampling)
        (s.seqs item.seq).outputTokenIds tokens).1
  computed : item.seq ∈ s'.running →
    (s'.seqs item.seq).numComputedTokens + 1 = (s'.seqs item.seq).numTokens
  own : Contents w.sched w.kv → item.seq ∈ s'.running →
    Reads (w.after out e s').kv s'.blockManager.blockSize (s'.seqs item.seq).blockTable
      (s'.seqs item.seq) (s'.seqs item.seq).numComputedTokens

omit [BlockDigest D] [DecidableEq D] in
theorem FedBack.ne_nil {item : ScheduledSeq} {tokens : List TokenId}
    (h : FedBack sample draft verify e item tokens) : tokens ≠ [] := by
  rcases h with ⟨kept, -, rfl⟩ | ⟨-, rfl⟩
  · simp [Verification.tokens]
  · simp

section Decode

variable (hstep : EngineStep maxBatchSize stops sample draft verify w.sched out s e s')
variable (h₀ : Inv w.sched) {item : ScheduledSeq} (hitem : item ∈ out.scheduled)

include hstep h₀ hitem

theorem fedBack_of_decode (hdecode : item.isPrefill = false) :
    FedBack sample draft verify e item (tokensFor e.pairs item.seq) := by
  obtain ⟨h, hok, hnd⟩ := hstep.batch h₀
  obtain ⟨x, -, hr⟩ := (hstep.outcome h₀).entry hitem
  cases hr with
  | plain huncapped hseq hfed =>
      have hsamples : item.samplesToken = true := by
        simp [ScheduledSeq.samplesToken, (hok item hitem).chunk_eq, hdecode]
      rw [if_pos hsamples] at hfed
      exact Or.inr ⟨huncapped, hfed⟩
  | verified hdecode hone hkept hw hcap hfed => exact Or.inl ⟨_, hkept, hfed⟩

/-- A sequence that goes on has been fed all its tokens. -/
theorem output_of_running (hdecode : item.isPrefill = false)
    (hrun : item.seq ∈ s'.running) :
    (s'.seqs item.seq).outputTokenIds =
        (e.sched.seqs item.seq).outputTokenIds ++ tokensFor e.pairs item.seq ∧
      (s'.seqs item.seq).numComputedTokens = creditedCount e.caps item.seq
        { s'.seqs item.seq with
          numComputedTokens := (e.sched.seqs item.seq).numComputedTokens } := by
  obtain ⟨h, hok, hnd⟩ := hstep.batch h₀
  have ho := hstep.outcome h₀
  have hback := hstep.feedback h₀
  have hrunning : item.seq ∈ e.sched.running := ((hback.running _).mp hrun).1
  have hfed := hback.fedSeq _ hrunning
  have hne := (fedBack_of_decode hstep h₀ hitem hdecode).ne_nil
  obtain ⟨tok, rest, htoks⟩ := List.exists_cons_of_ne_nil hne
  cases hstop : (Lib.feedUntil (engineRule stops (e.sched.seqs item.seq).sampling)
      (e.sched.seqs item.seq).outputTokenIds (tokensFor e.pairs item.seq)).2 with
  | some reason =>
      exact absurd (hfed.ended reason hstop).1 ((hback.running _).mp hrun).2
  | none =>
      refine ⟨?_, (hfed.going hstop).2 hne⟩
      rw [hfed.output_eq, htoks] at *
      obtain ⟨more, hout, -, -, hall⟩ := Lib.feedUntil_spec
        (e.sched.seqs item.seq).outputTokenIds tok rest
      rw [hout, hall hstop]

/-- The computed count follows the tokens fed up to the last one, and never past what
the forward pass computed. -/
theorem computed_of_running (hdecode : item.isPrefill = false)
    (hone : OneUncomputed s item) (hrun : item.seq ∈ s'.running) :
    (s'.seqs item.seq).numComputedTokens + 1 = (s'.seqs item.seq).numTokens ∧
      (s'.seqs item.seq).numComputedTokens ≤ reach e.caps item.seq (s.seqs item.seq) := by
  obtain ⟨h, hok, hnd⟩ := hstep.batch h₀
  have ho := hstep.outcome h₀
  have hback := hstep.feedback h₀
  have hrunning : item.seq ∈ e.sched.running := ((hback.running _).mp hrun).1
  have hsame := (hback.fedSeq _ hrunning).same
  obtain ⟨hout, hcount⟩ := output_of_running hstep h₀ hitem hdecode hrun
  have hold := hok item hitem
  have hcontext := hold.context_eq
  have hall : (s.seqs item.seq).numComputedTokens = (s.seqs item.seq).numTokens := by
    have hle := h.computed_le hold.running
    have hpos := item.le_contextLen
    have hnew := item.numNewTokens_pos
    have hstart : item.start = item.contextLen - item.numNewTokens := rfl
    rw [OneUncomputed] at hone
    omega
  have hnum : (s'.seqs item.seq).numTokens =
      (s.seqs item.seq).numTokens + (tokensFor e.pairs item.seq).length := by
    rw [Sequence.numTokens, hout, hsame.prompt_eq, ho.seqs_eq, List.length_append,
      Sequence.numTokens, Nat.add_assoc]
  have hcomputed : (e.sched.seqs item.seq).numComputedTokens =
      (s.seqs item.seq).numComputedTokens := by rw [ho.seqs_eq]
  obtain ⟨x, -, hr⟩ := ho.entry hitem
  cases hr with
  | plain huncapped hseq hfed =>
      have hsamples : item.samplesToken = true := by
        simp [ScheduledSeq.samplesToken, hold.chunk_eq, hdecode]
      rw [if_pos hsamples] at hfed
      rw [creditedCount, huncapped] at hcount
      simp only [hcomputed] at hcount
      rw [hnum, hfed, hcount, List.length_singleton, hall]
      exact ⟨rfl, hall ▸ le_max_left _ _⟩
  | @verified kept record _ _ _ _ hcap hfed =>
      rw [creditedCount, hcap] at hcount
      simp only at hcount
      rw [reach, hcap, Option.getD_some, max_eq_right (Nat.le_add_right _ _)]
      have hlen : (tokensFor e.pairs item.seq).length =
          (verify (e.computed.seqs item.seq) kept).numAccepted + 1 := by
        rw [hfed, Verification.tokens, List.length_append, List.length_singleton]
        rfl
      have hnum' : ({ s'.seqs item.seq with
          numComputedTokens := (e.sched.seqs item.seq).numComputedTokens } :
            Sequence).numTokens = (s'.seqs item.seq).numTokens := rfl
      rw [hnum'] at hcount
      omega

theorem creditedDecode [CollisionFree D] (hdecode : item.isPrefill = false)
    (hone : OneUncomputed s item) :
    CreditedDecode w stops sample draft verify s out e s' item := by
  obtain ⟨h, hok, hnd⟩ := hstep.batch h₀
  have ho := hstep.outcome h₀
  have hback := hstep.feedback h₀
  have hold := hok item hitem
  have hrunning : item.seq ∈ e.sched.running := by
    rw [ho.sched_eq]
    exact hold.running
  have hseqs := ho.seqs_eq item.seq
  refine { output := ?_, computed := ?_, own := ?_ }
  · refine ⟨_, fedBack_of_decode hstep h₀ hitem hdecode, ?_⟩
    have hout := (hback.fedSeq _ hrunning).output_eq
    rw [hseqs] at hout
    exact hout
  · intro hrun
    exact (computed_of_running hstep h₀ hitem hdecode hone hrun).1
  · intro hkv hrun p hp
    have hle := (computed_of_running hstep h₀ hitem hdecode hone hrun).2
    have hcredited := hstep.credited h₀ hkv
    have hplaced := ho.placed h hok
    have hi : item.seq ∈ e.computed.running := ho.running_eq ▸ hold.running
    have hbs : s'.blockManager.blockSize = e.computed.blockManager.blockSize := by
      have hbm : e.sched.blockManager = e.computed.blockManager := by rw [ho.sched_eq]
      rw [hback.inv.blockSize_eq, hback.config_eq, ← ho.sched_inv.blockSize_eq, hbm]
    obtain ⟨b, hb, hmem⟩ := hcredited.own _ hrun p (lt_max_of_lt_left hp)
    rw [hcredited.table_eq _ hrun]
    refine ⟨b, hb, ?_⟩
    refine ho.agrees h hok hnd (fun _ _ => id) (hmem.trans ?_) ?_
    · simp [kvAt, fullText, tokensFor, Sequence.tokenIds]
    · -- the slot is this sequence's own, so only its own entry writes it
      intro x hx hslot
      have hplace := hplaced x hx
      rw [hplace.slots_eq] at hslot
      obtain ⟨q, hq, heq⟩ := List.mem_map.mp hslot
      have hreach := (hp.trans_le hle).trans_le (ho.reach_le h hok)
      obtain ⟨b', hb', hslot'⟩ := ho.computed_inv.slot hi hreach
      rw [← hbs, hb] at hb'
      obtain rfl := Option.some.inj hb'
      have hseq := (hplace.inj ho.computed_inv hq hi hreach (by
        rw [heq, hslot', hbs])).1
      obtain ⟨old, hmem', hr⟩ := ho.origin hx
      have hsame : old = item := by
        apply List.inj_on_of_nodup_map hnd hmem' hitem
        rw [← (hr.grew h (hok old hmem')).seq_eq, hseq]
      rw [Outcome.single_iff h hok hmem' hr, hsame]
      intro _
      rw [OneUncomputed, ho.numTokens_eq]
      exact hone

end Decode

/-- What one engine step from `w` leaves, if it returns. -/
def engineStep (stops : EngineStops) (sample : Scheduler D W → ScheduledSeq → TokenId)
    (draft : SeqId → List TokenId) (verify : Verifier) (w : SpecWorld D W) :
    Option (SchedulerOutput × Scheduler D W × Executed D W × Scheduler D W) :=
  match w.sched.schedule with
  | .error _ => none
  | .ok (out, s) =>
      match execute none sample draft verify s out with
      | .error _ => none
      | .ok e =>
          match process stops e with
          | .error _ => none
          | .ok s' => some (out, s, e, s')

theorem engineStep_ok (h : engineStep stops sample draft verify w = some (out, s, e, s')) :
    EngineStep none stops sample draft verify w.sched out s e s' := by
  unfold engineStep at h
  split at h
  · cases h
  · next out' s₁ hsched =>
      split at h
      · cases h
      · next e' hexec =>
          split at h
          · cases h
          · next s'' hproc =>
              cases h
              exact ⟨hsched, hexec, hproc⟩

/-- The checkpoint has no end token and no request a stop string. -/
def plainStops : EngineStops := ⟨[], fun _ _ => false⟩

/-- Of every draft the first token is accepted, and `7` follows. -/
def firstAccepted : Verifier := fun _ drafts => ⟨drafts.take 1, 7, List.take_prefix 1 drafts⟩

def oneRequest : Scheduler.Request :=
  { requestId := "a", promptTokenIds := [1], tenantId := "x" }

/-- A request has arrived. -/
def oneWaiting : SpecWorld FreeDigest ℚ where
  sched := ((fresh FreeDigest smallConfig 8).addRequest oneRequest).2
  kv _ := none
  rejected _ := false
  orderly := true

/-- The request after its prefill: the sampler answered `9`. -/
def oneDecoding : Option (SpecWorld FreeDigest ℚ) :=
  (engineStep plainStops (fun _ _ => 9) (fun _ => [5, 6]) firstAccepted oneWaiting).map
    fun r => oneWaiting.after r.1 r.2.2.1 r.2.2.2

/-- What the next step shows: whether the request decodes one uncomputed token, its
output, its computed count and how many slots hold a rejected draft token. -/
def nextDecode (w : SpecWorld FreeDigest ℚ) :
    Option (List SeqId × Bool × List TokenId × ℕ × List Slot) :=
  (engineStep plainStops (fun _ _ => 9) (fun _ => [5, 6]) firstAccepted w).map fun r =>
    (r.1.scheduled.map (·.seq),
      r.1.scheduled.all fun item => !item.isPrefill && decide (OneUncomputed r.2.1 item),
      (r.2.2.2.seqs 0).outputTokenIds, (r.2.2.2.seqs 0).numComputedTokens,
      rejectedSlots r.2.2.1)

theorem oneDecoding_reachable {w : SpecWorld FreeDigest ℚ} (h : oneDecoding = some w) :
    (speculation FreeDigest ℚ none plainStops).Reachable w := by
  rw [oneDecoding] at h
  obtain ⟨⟨out, s, e, s'⟩, hr, rfl⟩ := Option.map_eq_some_iff.mp h
  have hstart : (speculation FreeDigest ℚ none plainStops).Reachable
      ⟨fresh FreeDigest smallConfig 8, fun _ => none, fun _ => false, true⟩ :=
    .init ⟨fresh_initial smallConfig 8, fun _ => rfl, fun _ => rfl, rfl⟩
  have hwaiting : (speculation FreeDigest ℚ none plainStops).Reachable oneWaiting :=
    .step hstart (.call (.addRequest oneRequest) (by simp) rfl rfl)
  exact .step hwaiting (.engine _ _ _ (engineStep_ok hr))

end TurboServe.Spec
