import TurboServe.System.Runs

/-!
# What each emission finds

`_emit` gives a sequence the tokens its remaining text and the remaining budget
allow. `EveryEmission P s` says that every emission of the `schedule()` made in
`s` finds a sequence and a token budget that meet `P`: a condition on what each
small step starts from, not on the batch it ends in.
-/

namespace TurboServe.Core

variable {D W : Type} [BlockDigest D] [DecidableEq D] [VirtualTime W]

/-! ## §1  Conditions on emissions -/

/-- A small step whose emission, when it makes one, meets `P`. -/
def Emitting (P : Sequence → ℕ → Prop) (x y : Scheduler D W × StepAcc) : Prop :=
  Micro x y ∧ ∀ i ∈ y.2.scheduledIds, i ∉ x.2.scheduledIds →
    P (x.1.seqs i) x.2.budget.tokens

/-- Every emission of the `schedule()` made in `s` meets `P`. -/
def EveryEmission (P : Sequence → ℕ → Prop) (s : Scheduler D W) : Prop :=
  ∀ out s', s.schedule = .ok (out, s') → ∃ m₀ s₁ acc, PublishedAll s m₀ ∧
    Relation.ReflTransGen (Emitting P)
      ({ s with blockManager := m₀ }, StepAcc.init s.config) (s₁, acc) ∧
    out = acc.toOutput ∧ s' = s₁.counted out

/-- The budget covers everything the sequence has left, or runs out inside its
prompt. -/
def EmitsWhole (seq : Sequence) (budget : ℕ) : Prop :=
  seq.numUncomputedTokens ≤ budget ∨ seq.numComputedTokens + budget < seq.numPromptTokens

/-- Two values of a sequence with the same text. -/
structure SameText (seq seq' : Sequence) : Prop where
  prompt_eq : seq'.promptTokenIds = seq.promptTokenIds
  output_eq : seq'.outputTokenIds = seq.outputTokenIds

namespace SameText

variable {seq seq' seq'' : Sequence}

theorem refl (seq : Sequence) : SameText seq seq := ⟨rfl, rfl⟩

theorem trans (h : SameText seq seq') (h' : SameText seq' seq'') : SameText seq seq'' :=
  ⟨h'.prompt_eq.trans h.prompt_eq, h'.output_eq.trans h.output_eq⟩

theorem numTokens_eq (h : SameText seq seq') : seq'.numTokens = seq.numTokens := by
  rw [Sequence.numTokens, Sequence.numTokens, h.prompt_eq, h.output_eq]

theorem numPromptTokens_eq (h : SameText seq seq') :
    seq'.numPromptTokens = seq.numPromptTokens := by
  rw [Sequence.numPromptTokens, Sequence.numPromptTokens, h.prompt_eq]

end SameText

omit [DecidableEq D] in
theorem Micro.sameText {x y : Scheduler D W × StepAcc} (hm : Micro x y) (j : SeqId) :
    SameText (x.1.seqs j) (y.1.seqs j) := by
  obtain ⟨hp, ho, -⟩ := hm.same.2.2.2.2.1 j
  exact ⟨hp, ho⟩

/-! ## §2  Entries and the emissions they come from -/

/-- The emission a batch entry came from: what it found, and what it made of
it. -/
structure EmissionOf (seq : Sequence) (budget : ℕ) (item : ScheduledSeq)
    (seq' : Sequence) : Prop where
  start_eq : item.start = seq.numComputedTokens
  num_eq : item.numNewTokens = min budget seq.numUncomputedTokens
  same : SameText seq seq'

theorem EmissionOf.contextLen_eq {seq seq' : Sequence} {budget : ℕ}
    {item : ScheduledSeq} (h : EmissionOf seq budget item seq') :
    item.contextLen = seq.numComputedTokens + min budget seq.numUncomputedTokens := by
  have hle := item.le_contextLen
  have hstart := h.start_eq
  rw [ScheduledSeq.start] at hstart
  rw [← h.num_eq]
  omega

/-- The emission of one `grow` step. -/
theorem ItemOf.emission {seq seq' : Sequence} {i : SeqId} {n budget : ℕ}
    {slots : List Slot} {item : ScheduledSeq} (h : ItemOf seq i n slots seq' item)
    (hn : n = seq.numNewTokensToCompute budget) (hsame : SameText seq seq') :
    EmissionOf seq budget item seq' where
  start_eq := by rw [ScheduledSeq.start, h.context_eq, h.num_eq, Nat.add_sub_cancel]
  num_eq := by
    have hpos := item.numNewTokens_pos
    rw [h.num_eq, hn] at hpos ⊢
    unfold Sequence.numNewTokensToCompute at hpos ⊢
    split
    · next hz =>
        rw [if_pos hz] at hpos
        omega
    · rfl
  same := hsame

omit [DecidableEq D] in
theorem Micro.entries_mono {x y : Scheduler D W × StepAcc} (hm : Micro x y)
    {item : ScheduledSeq} (hitem : item ∈ x.2.entries) : item ∈ y.2.entries := by
  cases hm with
  | @grow s acc i n slots m' seq' item' =>
      exact (entries_emitted i n item').mem_iff.mpr (List.mem_cons_of_mem _ hitem)
  | _ => exact hitem

omit [DecidableEq D] in
/-- What a small step newly schedules comes from its emission. -/
theorem Micro.emission {x y : Scheduler D W × StepAcc} (hm : Micro x y)
    {i : SeqId} (hi : i ∈ y.2.scheduledIds) (hnew : i ∉ x.2.scheduledIds) :
    ∃ item ∈ y.2.entries, item.seq = i ∧
      EmissionOf (x.1.seqs i) x.2.budget.tokens item (y.1.seqs i) := by
  have hsame := hm.sameText
  cases hm with
  | @grow s acc j n slots m' seq' item hj hnew' hbudget hn hmay hgrown hframe hmanager
      hitem =>
      obtain rfl : i = j := (List.mem_cons.mp hi).resolve_right hnew
      refine ⟨item, (entries_emitted i n item).mem_iff.mpr List.mem_cons_self,
        hitem.seq_eq, ?_⟩
      have hem := hitem.emission hn ⟨by rw [hgrown.seq_eq], by rw [hgrown.seq_eq]⟩
      exact ⟨hem.start_eq, hem.num_eq, hsame i⟩
  | _ => exact absurd hi hnew

/-- Every entry of a batch whose emissions meet `P` comes from one that did. -/
theorem EveryEmission.emission {P : Sequence → ℕ → Prop} {s s' : Scheduler D W}
    {out : SchedulerOutput} (hP : EveryEmission P s) (h : Inv s)
    (hs : s.schedule = .ok (out, s')) {item : ScheduledSeq}
    (hitem : item ∈ out.scheduled) :
    ∃ seq budget, P seq budget ∧ EmissionOf seq budget item (s'.seqs item.seq) := by
  obtain ⟨m₀, s₁, acc, hpub, hrun, rfl, rfl⟩ := hP out s' hs
  have hstep : ∀ x y : Scheduler D W × StepAcc, Emitting P x y → StepInv x.1 x.2 →
      (∀ item ∈ x.2.entries, ∃ seq budget, P seq budget ∧
        EmissionOf seq budget item (x.1.seqs item.seq)) →
      ∀ item ∈ y.2.entries, ∃ seq budget, P seq budget ∧
        EmissionOf seq budget item (y.1.seqs item.seq) := by
    rintro x y ⟨hm, hem⟩ hinv hx item hitem
    by_cases hold : item ∈ x.2.entries
    · obtain ⟨seq, budget, hp, he⟩ := hx item hold
      exact ⟨seq, budget, hp, he.start_eq, he.num_eq, he.same.trans (hm.sameText _)⟩
    · -- the entry is the one this step emitted
      have hy := hm.stepInv hinv
      have hi : item.seq ∈ y.2.scheduledIds := hy.mem_scheduled hitem
      have hnew : item.seq ∉ x.2.scheduledIds := fun hin => by
        obtain ⟨item', hitem', hseq⟩ := List.mem_map.mp (hinv.ids.mem_iff.mpr hin)
        have hnd : (y.2.entries.map (·.seq)).Nodup := hy.ids.nodup_iff.mpr hy.nodup
        obtain rfl := List.inj_on_of_nodup_map hnd (hm.entries_mono hitem') hitem hseq
        exact hold hitem'
      obtain ⟨item', hitem', hseq, he⟩ := hm.emission hi hnew
      have hnd : (y.2.entries.map (·.seq)).Nodup := hy.ids.nodup_iff.mpr hy.nodup
      obtain rfl := List.inj_on_of_nodup_map hnd hitem' hitem hseq
      exact ⟨_, _, hem _ hi hnew, he⟩
  have hall : StepInv s₁ acc ∧ ∀ item ∈ acc.entries, ∃ seq budget, P seq budget ∧
      EmissionOf seq budget item (s₁.seqs item.seq) := by
    generalize hz : (s₁, acc) = z at hrun
    have hgoal : StepInv z.1 z.2 ∧ ∀ item ∈ z.2.entries, ∃ seq budget, P seq budget ∧
        EmissionOf seq budget item (z.1.seqs item.seq) := by
      clear hz
      induction hrun with
      | refl =>
          refine ⟨StepInv.init (hpub.inv h), ?_⟩
          simp [StepAcc.entries, StepAcc.init]
      | tail _ hlast ih => exact ⟨hlast.1.stepInv ih.1, hstep _ _ hlast ih.1 ih.2⟩
    subst hz
    exact hgoal
  exact hall.2 item hitem

/-- A condition every emission's entry can be checked against. -/
theorem everyEmission_of_batch {P : Sequence → ℕ → Prop} {s : Scheduler D W}
    (h : Inv s) (hP : ∀ out s', s.schedule = .ok (out, s') → ∀ item ∈ out.scheduled,
      ∀ seq budget, EmissionOf seq budget item (s'.seqs item.seq) → P seq budget) :
    EveryEmission P s := by
  intro out s' hs
  cases StepRun.of_schedule h hs with
  | intro m₀ s₁ acc hpub hrun =>
      refine ⟨m₀, s₁, acc, hpub, ?_, rfl, rfl⟩
      have hend : ∀ item ∈ acc.entries, ∀ seq budget,
          EmissionOf seq budget item (s₁.seqs item.seq) → P seq budget :=
        hP _ _ hs
      clear hP hs
      have hgo : ∀ {x z : Scheduler D W × StepAcc}, Micros x z → StepInv x.1 x.2 →
          (∀ item ∈ z.2.entries, ∀ seq budget,
            EmissionOf seq budget item (z.1.seqs item.seq) → P seq budget) →
          Relation.ReflTransGen (Emitting P) x z ∧
            (∀ item ∈ x.2.entries, item ∈ z.2.entries) ∧
            ∀ j, SameText (x.1.seqs j) (z.1.seqs j) := by
        intro x z hrun hinv hz
        induction hrun using Relation.ReflTransGen.head_induction_on with
        | refl => exact ⟨.refl, fun _ => id, fun j => .refl _⟩
        | @head x y hm hrun ih =>
            obtain ⟨hem, hmono, htext⟩ := ih (hm.stepInv hinv)
            refine ⟨.head ⟨hm, fun i hi hnew => ?_⟩ hem,
              fun item hitem => hmono item (hm.entries_mono hitem),
              fun j => (hm.sameText j).trans (htext j)⟩
            obtain ⟨item, hitem, rfl, he⟩ := hm.emission hi hnew
            exact hz item (hmono item hitem) _ _
              ⟨he.start_eq, he.num_eq, he.same.trans (htext _)⟩
      exact (hgo hrun (StepInv.init (hpub.inv h)) hend).1

/-! ## §3  Whole emissions -/

/-- When every emission is whole, a sampling entry ends at its sequence's last
token. -/
theorem sampled_whole {s s' : Scheduler D W} {out : SchedulerOutput} (h : Inv s)
    (hwhole : EveryEmission EmitsWhole s) (hs : s.schedule = .ok (out, s'))
    {item : ScheduledSeq} (hitem : item ∈ out.sampled) :
    item.contextLen = (s'.seqs item.seq).numTokens := by
  obtain ⟨hin, hsamples⟩ := List.mem_filter.mp hitem
  obtain ⟨seq, budget, hp, he⟩ := hwhole.emission h hs hin
  have hok := (StepRun.of_schedule h hs).entryOk h hin
  have hctx := he.contextLen_eq
  have hnew := he.num_eq
  have hpos := item.numNewTokens_pos
  have hnum := he.same.numTokens_eq
  have hprompt := he.same.numPromptTokens_eq
  rcases hp with hle | hlt
  · rw [min_eq_right hle] at hctx hnew
    unfold Sequence.numUncomputedTokens at hctx hnew
    omega
  · -- the budget ran out inside the prompt: a chunk, which samples nothing
    have hpre : item.isPrefill = true := by
      rw [hok.prefill_eq, hprompt, he.start_eq]
      exact decide_eq_true (by omega)
    have hchunk : item.isChunk = true := by
      rw [hok.chunk_eq, hpre, hprompt, hctx, Bool.true_and]
      exact decide_eq_true (by have := Nat.min_le_left budget seq.numUncomputedTokens; omega)
    rw [ScheduledSeq.samplesToken, hchunk] at hsamples
    cases hsamples

/-- Emissions are whole as soon as the entries of the batch are. -/
theorem whole_of_batch {s : Scheduler D W} (h : Inv s)
    (hb : ∀ out s', s.schedule = .ok (out, s') → ∀ item ∈ out.scheduled,
      item.contextLen = (s'.seqs item.seq).numTokens ∨
        item.contextLen < (s'.seqs item.seq).numPromptTokens) :
    EveryEmission EmitsWhole s := by
  refine everyEmission_of_batch h fun out s' hs item hitem seq budget he => ?_
  have hctx := he.contextLen_eq
  have hnum := he.same.numTokens_eq
  have hprompt := he.same.numPromptTokens_eq
  have hle := seq.numPromptTokens_le
  have hun : seq.numUncomputedTokens = seq.numTokens - seq.numComputedTokens := rfl
  unfold EmitsWhole
  rcases hb out s' hs item hitem with hall | hcut
  · left
    have := Nat.min_le_left budget seq.numUncomputedTokens
    omega
  · right
    rcases Nat.le_total budget seq.numUncomputedTokens with hle' | hle'
    · rw [min_eq_left hle'] at hctx
      omega
    · rw [min_eq_right hle'] at hctx
      omega

/-- Without chunked prefill every emission is whole. -/
theorem whole_of_unchunked {s : Scheduler D W} (h : Inv s)
    (hoff : s.config.enableChunkedPrefill = false) : EveryEmission EmitsWhole s := by
  intro out s' hs
  cases StepRun.of_schedule h hs with
  | intro m₀ s₁ acc hpub hrun =>
      refine ⟨m₀, s₁, acc, hpub, ?_, rfl, rfl⟩
      have hgo : ∀ {x z : Scheduler D W × StepAcc}, Micros x z →
          x.1.config.enableChunkedPrefill = false →
          Relation.ReflTransGen (Emitting EmitsWhole) x z := by
        intro x z hrun hx
        induction hrun using Relation.ReflTransGen.head_induction_on with
        | refl => exact .refl
        | @head x y hm hrun ih =>
            have hy : y.1.config.enableChunkedPrefill = false := by
              rw [hm.same.1]
              exact hx
            refine .head ⟨hm, fun i hi hnew => ?_⟩ (ih hy)
            cases hm with
            | @grow s acc j n slots m' seq' item hj hnew' hbudget hn hmay =>
                obtain rfl : i = j := (List.mem_cons.mp hi).resolve_right hnew
                simp only [Scheduler.mayRun, decide_eq_true_eq] at hmay
                have hle : (s.seqs i).numUncomputedTokens ≤ n := by
                  rcases hmay.2 with hon | hle
                  · rw [show s.config.enableChunkedPrefill = false from hx] at hon
                    cases hon
                  · exact hle
                exact Or.inl (hle.trans (hn ▸ (numNew_le _ _).1))
            | _ => exact absurd hi hnew
      exact hgo hrun hoff

end TurboServe.Core
