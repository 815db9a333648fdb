import TurboServe.Lib.Related
import TurboServe.Spec.Rollback
import TurboServe.Invariants.Writes
import TurboServe.System.Loop

/-!
# What a step of the speculative engine leaves

One description for both paths: every entry of the scheduler's batch was run as it is
and fed at most one sampled token, or was run with a prefix of its draft and is fed the
tokens of the verdict on that prefix. The scheduler is back at the texts and the
computed counts it had, with the blocks of the drafts.
-/

namespace TurboServe.Spec

open TurboServe.Core

/-! ## §1  The tokens of one sequence -/

theorem tokensFor_append (l l' : List (SeqId × TokenId)) (i : SeqId) :
    tokensFor (l ++ l') i = tokensFor l i ++ tokensFor l' i := by
  unfold tokensFor
  rw [List.filter_append, List.map_append]

theorem tokensFor_eq_nil {pairs : List (SeqId × TokenId)} {i : SeqId}
    (h : i ∉ pairs.map Prod.fst) : tokensFor pairs i = [] := by
  by_contra hne
  exact h (tokensFor_ne_nil.mp hne)

theorem tokensFor_pair (i : SeqId) (toks : List TokenId) :
    tokensFor (toks.map fun tok => (i, tok)) i = toks := by
  induction toks with
  | nil => rfl
  | cons tok rest ih => rw [List.map_cons, tokensFor_cons_self, ih]

/-- Of sampled entries with different sequences, each sequence gets its own token. -/
theorem tokensFor_sampled {items : List ScheduledSeq} (hnd : (items.map (·.seq)).Nodup)
    (p : ScheduledSeq → Bool) (f : ScheduledSeq → TokenId) {item : ScheduledSeq}
    (hitem : item ∈ items) :
    tokensFor ((items.filter p).map fun x => (x.seq, f x)) item.seq =
      if p item then [f item] else [] := by
  have hfst : ((items.filter p).map fun x => (x.seq, f x)).map Prod.fst =
      (items.filter p).map (·.seq) := by
    rw [List.map_map]
    rfl
  by_cases hp : p item = true
  · rw [if_pos hp]
    apply tokensFor_of_mem
    · rw [hfst]
      exact hnd.sublist (List.filter_sublist.map _)
    · exact List.mem_map_of_mem (List.mem_filter.mpr ⟨hitem, hp⟩)
  · rw [if_neg hp]
    apply tokensFor_eq_nil
    rw [hfst]
    intro hmem
    obtain ⟨x, hx, heq⟩ := List.mem_map.mp hmem
    rw [List.mem_filter] at hx
    have hsame : x = item := List.inj_on_of_nodup_map hnd hx.1 hitem heq
    exact hp (hsame ▸ hx.2)

/-- Of blocks of pairs for different sequences, each sequence gets its own block. -/
theorem tokensFor_flatMap {α : Type} {l : List α} (id : α → SeqId)
    (toks : α → List TokenId) (hnd : (l.map id).Nodup) {a : α} (ha : a ∈ l) :
    tokensFor (l.flatMap fun x => (toks x).map fun tok => (id x, tok)) (id a) = toks a := by
  have hfst : ∀ l' : List α, (l'.flatMap fun x => (toks x).map fun tok => (id x, tok)).map
      Prod.fst = l'.flatMap fun x => (toks x).map fun _ => id x := by
    intro l'
    rw [List.map_flatMap]
    simp only [List.map_map]
    rfl
  induction l with
  | nil => cases ha
  | cons b rest ih =>
      rw [List.map_cons, List.nodup_cons] at hnd
      rw [List.flatMap_cons, tokensFor_append]
      rcases List.mem_cons.mp ha with rfl | ha
      · have hrest : tokensFor (rest.flatMap fun x =>
            (toks x).map fun tok => (id x, tok)) (id a) = [] := by
          apply tokensFor_eq_nil
          rw [hfst]
          intro hmem
          obtain ⟨x, hx, hid⟩ := List.mem_flatMap.mp hmem
          obtain ⟨-, -, heq⟩ := List.mem_map.mp hid
          exact hnd.1 (heq ▸ List.mem_map_of_mem hx)
        rw [tokensFor_pair, hrest, List.append_nil]
      · have hne : id a ≠ id b := by
          intro heq
          exact hnd.1 (heq ▸ List.mem_map_of_mem ha)
        have hfirst : tokensFor ((toks b).map fun tok => (id b, tok)) (id a) = [] := by
          apply tokensFor_eq_nil
          rw [List.map_map]
          intro hmem
          obtain ⟨tok, -, heq⟩ := List.mem_map.mp hmem
          exact hne heq.symm
        rw [hfirst, List.nil_append]
        exact ih hnd.2 ha

/-! ## §2  One entry -/

variable {D W : Type} [BlockDigest D] [VirtualTime W]

/-- How a step ran the entry `old` of its batch, and what it feeds back. -/
inductive Ran (sample : Scheduler D W → ScheduledSeq → TokenId)
    (draft : SeqId → List TokenId) (verify : Verifier) (s : Scheduler D W)
    (e : Executed D W) (old : ScheduledSeq) : ScheduledSeq → Prop where
  | plain (huncapped : e.caps old.seq = none)
      (hseq : e.computed.seqs old.seq = s.seqs old.seq)
      (hfed : tokensFor e.pairs old.seq =
        if old.samplesToken then [sample e.computed old] else []) :
      Ran sample draft verify s e old old
  | verified {kept : List TokenId} {record : Verified} (hdecode : old.isPrefill = false)
      (hone : old.numNewTokens = 1) (hkept : kept <+: draft old.seq)
      (hw : Widened s.blockManager.blockSize (s.seqs old.seq) (e.computed.seqs old.seq) old
        kept record)
      (hcap : e.caps old.seq = some ((s.seqs old.seq).numComputedTokens +
        (verify (e.computed.seqs old.seq) kept).numAccepted))
      (hfed : tokensFor e.pairs old.seq = (verify (e.computed.seqs old.seq) kept).tokens) :
      Ran sample draft verify s e old record.verifyItem

/-- What a step leaves of the scheduler `s` it found. -/
structure Outcome (sample : Scheduler D W → ScheduledSeq → TokenId)
    (draft : SeqId → List TokenId) (verify : Verifier) (s : Scheduler D W)
    (out : SchedulerOutput) (e : Executed D W) : Prop where
  computed_inv : Inv e.computed
  sched_inv : Inv e.sched
  running_eq : e.computed.running = s.running
  blockSize_eq : e.computed.blockManager.blockSize = s.blockManager.blockSize
  state_eq : e.computed.blockManager.state = s.blockManager.state
  indexed_of : ∀ x d, e.computed.blockManager.allocator.indexed x = some d →
    s.blockManager.allocator.indexed x = some d
  sched_eq : e.sched = { s with
    seqs := e.sched.seqs, blockManager := e.computed.blockManager }
  seqs_eq : ∀ i, e.sched.seqs i =
    { s.seqs i with blockTable := (e.computed.seqs i).blockTable }
  ran : ∃ olds : List ScheduledSeq, olds.Perm out.scheduled ∧
    List.Forall₂ (Ran sample draft verify s e) olds e.batch
  idle : ∀ i, i ∉ out.scheduled.map (·.seq) → e.caps i = none ∧
    tokensFor e.pairs i = [] ∧ e.computed.seqs i = s.seqs i

variable {sample : Scheduler D W → ScheduledSeq → TokenId} {draft : SeqId → List TokenId}
variable {verify : Verifier} {s : Scheduler D W} {out : SchedulerOutput} {e : Executed D W}

/-! ## §3  Both paths -/

theorem executePlain_outcome (h : Inv s) (hnd : (out.scheduled.map (·.seq)).Nodup) :
    Outcome sample draft verify s out (executePlain sample s out) where
  computed_inv := h
  sched_inv := h
  running_eq := rfl
  blockSize_eq := rfl
  state_eq := rfl
  indexed_of := fun _ _ => id
  sched_eq := rfl
  seqs_eq _ := rfl
  ran := by
    refine ⟨out.scheduled, List.Perm.refl _, ?_⟩
    show List.Forall₂ _ out.scheduled out.scheduled
    rw [List.forall₂_same]
    intro old hold
    exact .plain rfl rfl (tokensFor_sampled hnd _ _ hold)
  idle i hi := by
    refine ⟨rfl, tokensFor_eq_nil ?_, rfl⟩
    intro hmem
    obtain ⟨p, hp, heq⟩ := List.mem_map.mp hmem
    obtain ⟨item, hitem, hpair⟩ := List.mem_map.mp hp
    rw [← heq, ← hpair] at hi
    exact hi (List.mem_map_of_mem (List.mem_of_mem_filter hitem))

/-- The two halves of a batch. -/
theorem halves_perm (items : List ScheduledSeq) :
    ((items.filter fun item => item.isPrefill) ++
      items.filter fun item => !item.isPrefill).Perm items :=
  List.filter_append_perm _ _

theorem Widened.offered_eq {bs : ℕ} {seq seq' : Sequence} {item : ScheduledSeq}
    {drafts : List TokenId} {record : Verified}
    (h : Widened bs seq seq' item drafts record) : offered record = drafts := by
  rw [offered, h.verify_tokens, h.item_eq, List.drop_left']
  exact item.length_tokenIds

section Records

variable {decodes : List ScheduledSeq} {records : List Verified} {s₂ : Scheduler D W}
variable (hf : Funded s (decodes.map fun item => (item, draft item.seq)) records s₂)

include hf

theorem Funded.widened : List.Forall₂ (fun item record => ∃ kept, kept <+: draft item.seq ∧
    Widened s.blockManager.blockSize (s.seqs item.seq) (s₂.seqs item.seq) item kept
      record) decodes records :=
  List.forall₂_map_left_iff.mp hf.records

theorem Funded.ids_eq : decodes.map (·.seq) = records.map (·.item.seq) := by
  refine Lib.related_map_eq hf.widened ?_
  rintro item record ⟨kept, -, hw⟩
  rw [hw.item_eq]

theorem Funded.extendable (h : Inv s) (hok : ∀ item ∈ decodes, EntryOk s item) :
    ∀ record ∈ records, Extendable s₂ (s.seqs record.item.seq) record := by
  intro record hrecord
  obtain ⟨item, hitem, kept, -, hw⟩ := Lib.related_right hf.widened hrecord
  have hold := hok item hitem
  obtain ⟨st, hst, -⟩ := hold.placed.holds h
  have hid := h.id_of_running hold.running
  rw [hw.item_eq]
  refine
    { running := ?_, widened := ?_, computed_le := hst.computed_le, published := ?_ }
  · rw [hw.item_eq, hf.same]
    exact hold.running
  · refine ⟨item, kept, ?_⟩
    rw [hw.item_eq, hf.blockSize_eq]
    exact hw
  · intro st' hst'
    have hstate := hst.state_eq
    rw [hw.item_eq, hf.state_eq, ← hid, hstate] at hst'
    obtain rfl := Option.some.inj hst'
    rw [hf.blockSize_eq]
    exact hst.published_le

/-- An entry of one new token is verified on as many rows as the verifier expects. -/
theorem Funded.rowsFit (hone : ∀ item ∈ decodes, item.numNewTokens = 1) :
    ∀ record ∈ records, RowsFit record := by
  intro record hrecord
  obtain ⟨item, hitem, kept, -, hw⟩ := Lib.related_right hf.widened hrecord
  rw [RowsFit, hw.offered_eq, hw.verify_num, hone item hitem, Nat.add_comm]

end Records

theorem speculate_outcome {records : List Verified} {s₂ : Scheduler D W}
    {v : Verdicts D W} (h : Inv s) (hok : ∀ item ∈ out.scheduled, EntryOk s item)
    (hnd : (out.scheduled.map (·.seq)).Nodup)
    (hfunded : Funded s ((out.scheduled.filter fun item => !item.isPrefill).map
      fun item => (item, draft item.seq)) records s₂)
    (hv : verifyDecodes verify s₂ Scheduler.noCaps
      (((out.scheduled.filter fun item => item.isPrefill).filter (·.samplesToken)).map
        fun item => (item.seq, sample s₂ item)) records = .ok v) :
    Outcome sample draft verify s out ⟨s₂,
      (out.scheduled.filter fun item => item.isPrefill) ++ records.map (·.verifyItem),
      v.sched, v.caps, v.pairs⟩ := by
  have hrecords := hfunded.widened
  have hids := hfunded.ids_eq
  have hext := hfunded.extendable h fun item hitem =>
    hok item (List.mem_of_mem_filter hitem)
  set decodes := out.scheduled.filter fun item => !item.isPrefill with hdec
  set prefills := out.scheduled.filter fun item => item.isPrefill with hpre
  have hsplit := halves_perm out.scheduled
  rw [← hdec, ← hpre] at hsplit
  have hboth : ((prefills ++ decodes).map (·.seq)).Nodup :=
    (hsplit.map _).nodup_iff.mpr hnd
  rw [List.map_append, List.nodup_append'] at hboth
  obtain ⟨hndp, hndd, hdisj⟩ := hboth
  have hrunning : s₂.running = s.running := by rw [hfunded.same]
  have hmem : ∀ item ∈ decodes, item ∈ out.scheduled ∧ item.isPrefill = false := by
    intro item hitem
    rw [hdec, List.mem_filter] at hitem
    exact ⟨hitem.1, Bool.not_eq_true' _ ▸ hitem.2⟩
  have hrows := verifyDecodes_rows verify _ _ _ _ hv
  obtain ⟨v', hv', hjudged⟩ := verifyDecodes_spec verify hfunded.inv Scheduler.noCaps
    (((prefills.filter (·.samplesToken)).map fun item => (item.seq, sample s₂ item)))
    records hrows hext (hids ▸ hndd)
  obtain rfl : v = v' := by
    rw [hv] at hv'
    exact Except.ok.inj hv'
  have hothers : ∀ i, i ∉ decodes.map (·.seq) → s₂.seqs i = s.seqs i := by
    intro i hi
    apply hfunded.others
    rw [List.map_map]
    exact hi
  have hsampledFst : ((prefills.filter (·.samplesToken)).map
      fun item => (item.seq, sample s₂ item)).map Prod.fst =
        (prefills.filter (·.samplesToken)).map (·.seq) := by
    rw [List.map_map]
    rfl
  -- a decode is fed nothing by the sampler, and a prefill nothing by the verifier
  have hsampled : ∀ i, i ∉ prefills.map (·.seq) → tokensFor
      ((prefills.filter (·.samplesToken)).map fun item => (item.seq, sample s₂ item)) i =
        [] := by
    intro i hi
    apply tokensFor_eq_nil
    rw [hsampledFst]
    intro hmem'
    obtain ⟨item, hitem, rfl⟩ := List.mem_map.mp hmem'
    exact hi (List.mem_map_of_mem (List.mem_of_mem_filter hitem))
  have hverified : ∀ i, i ∉ decodes.map (·.seq) → tokensFor
      (records.flatMap fun record => (verdict verify s₂ record).tokens.map
        fun tok => (record.item.seq, tok)) i = [] := by
    intro i hi
    apply tokensFor_eq_nil
    intro hmem'
    obtain ⟨p, hp, heq⟩ := List.mem_map.mp hmem'
    obtain ⟨record, hrecord, hp⟩ := List.mem_flatMap.mp hp
    obtain ⟨tok, -, rfl⟩ := List.mem_map.mp hp
    rw [hids, ← heq] at hi
    exact hi (List.mem_map_of_mem (f := fun r : Verified => r.item.seq) hrecord)
  have hfed : ∀ i, tokensFor v.pairs i = tokensFor
      ((prefills.filter (·.samplesToken)).map fun item => (item.seq, sample s₂ item)) i ++
        tokensFor (records.flatMap fun record => (verdict verify s₂ record).tokens.map
          fun tok => (record.item.seq, tok)) i := by
    intro i
    rw [hjudged.pairs_eq, tokensFor_append]
  refine
    { computed_inv := hfunded.inv, sched_inv := hjudged.inv, running_eq := hrunning
      blockSize_eq := hfunded.blockSize_eq, state_eq := hfunded.state_eq
      indexed_of := hfunded.indexed_of, sched_eq := ?_, seqs_eq := ?_
      ran := ⟨prefills ++ decodes, hsplit, ?_⟩, idle := ?_ }
  · show v.sched = _
    rw [hjudged.same, hfunded.same]
  · intro i
    show v.sched.seqs i = { s.seqs i with blockTable := (s₂.seqs i).blockTable }
    by_cases hi : i ∈ decodes.map (·.seq)
    · obtain ⟨item, hitem, rfl⟩ := List.mem_map.mp hi
      obtain ⟨record, hrecord, kept, -, hw⟩ := Lib.related_left hrecords hitem
      have hundone := hjudged.undone_eq record hrecord
      rw [hw.item_eq, hw.undone_eq] at hundone
      exact hundone
    · rw [hjudged.others i (hids ▸ hi), hothers i hi]
  · apply List.rel_append
    · rw [List.forall₂_same]
      intro old hold
      have hnot : old.seq ∉ decodes.map (·.seq) := hdisj (List.mem_map_of_mem hold)
      apply Ran.plain
      · exact hjudged.uncapped _ (hids ▸ hnot)
      · exact hothers _ hnot
      · show tokensFor v.pairs old.seq = _
        rw [hfed, hverified _ hnot, List.append_nil]
        exact tokensFor_sampled hndp _ _ hold
    · rw [List.forall₂_map_right_iff]
      refine (Lib.related_mem hrecords).imp ?_
      rintro old record ⟨hold, hrecord, kept, hkept, hw⟩
      have hrow := hrows record hrecord
      rw [RowsFit, hw.offered_eq, hw.verify_num] at hrow
      have hverdict : ∀ {α : Type} (f : ∀ {drafts}, Verification drafts → α),
          f (verdict verify s₂ record) = f (verify (s₂.seqs old.seq) kept) := by
        intro α f
        unfold verdict
        rw [hw.item_eq, hw.offered_eq]
      have hcap := hjudged.caps_eq record hrecord
      rw [hw.item_eq, hw.baseComputed_eq, hverdict Verification.numAccepted] at hcap
      refine Ran.verified (hmem old hold).2 (by omega) hkept hw hcap ?_
      show tokensFor v.pairs old.seq = _
      have hnot : old.seq ∉ prefills.map (·.seq) := fun hp =>
        hdisj hp (List.mem_map_of_mem hold)
      have hblock := tokensFor_flatMap (fun r : Verified => r.item.seq)
        (fun r => (verdict verify s₂ r).tokens) (hids ▸ hndd) hrecord
      rw [hfed, hsampled _ hnot, List.nil_append]
      simp only [hw.item_eq] at hblock
      rw [hblock, hverdict Verification.tokens]
  · intro i hi
    have hnotd : i ∉ decodes.map (·.seq) := fun hd => by
      obtain ⟨item, hitem, rfl⟩ := List.mem_map.mp hd
      exact hi (List.mem_map_of_mem (hmem item hitem).1)
    have hnotp : i ∉ prefills.map (·.seq) := fun hp => by
      obtain ⟨item, hitem, rfl⟩ := List.mem_map.mp hp
      exact hi (List.mem_map_of_mem (List.mem_of_mem_filter hitem))
    refine ⟨hjudged.uncapped i (hids ▸ hnotd), ?_, hothers i hnotd⟩
    show tokensFor v.pairs i = []
    rw [hfed, hsampled i hnotp, hverified i hnotd, List.append_nil]

/-- The funding loop of a step returns. -/
theorem fund_batch [DecidableEq D] (h : Inv s) (hok : ∀ item ∈ out.scheduled, EntryOk s item)
    (hnd : (out.scheduled.map (·.seq)).Nodup) (draft : SeqId → List TokenId) :
    ∃ records s₂, fundDecodes s 0
        ((out.scheduled.filter fun item => !item.isPrefill).map
          fun item => (item, draft item.seq)) = .ok (records, s₂) ∧
      Funded s ((out.scheduled.filter fun item => !item.isPrefill).map
        fun item => (item, draft item.seq)) records s₂ := by
  have hsub : (out.scheduled.filter fun item => !item.isPrefill).Sublist out.scheduled :=
    List.filter_sublist
  obtain ⟨records, s₂, hfund, hfunded, -⟩ := fundDecodes_spec h 0
    ((out.scheduled.filter fun item => !item.isPrefill).map
      fun item => (item, draft item.seq)) (by
      intro p hp
      obtain ⟨item, hitem, rfl⟩ := List.mem_map.mp hp
      exact (hok item (hsub.subset hitem)).running) (by
      rw [List.map_map]
      exact hnd.sublist (hsub.map _))
  exact ⟨records, s₂, hfund, hfunded⟩

/-- Every step that returns leaves such a scheduler. -/
theorem execute_outcome [DecidableEq D] {maxBatchSize : Option ℕ} (h : Inv s)
    (hok : ∀ item ∈ out.scheduled, EntryOk s item)
    (hnd : (out.scheduled.map (·.seq)).Nodup)
    (hex : execute maxBatchSize sample draft verify s out = .ok e) :
    Outcome sample draft verify s out e := by
  unfold execute at hex
  simp only at hex
  split at hex
  · cases hex
    exact executePlain_outcome h hnd
  · unfold speculativeStep at hex
    simp only at hex
    split at hex
    · cases hex
      exact executePlain_outcome h hnd
    · obtain ⟨records, s₂, hfund, hfunded⟩ := fund_batch h hok hnd draft
      rw [hfund] at hex
      simp only [lift, bind, Except.bind] at hex
      split at hex
      · cases hex
      · next v hv =>
          cases hex
          exact speculate_outcome h hok hnd hfunded hv

/-- A step whose decodes have one new token each returns. -/
theorem execute_returns [DecidableEq D] (maxBatchSize : Option ℕ) (h : Inv s)
    (hok : ∀ item ∈ out.scheduled, EntryOk s item)
    (hnd : (out.scheduled.map (·.seq)).Nodup)
    (hone : ∀ item ∈ out.scheduled, item.isPrefill = false → item.numNewTokens = 1)
    (sample : Scheduler D W → ScheduledSeq → TokenId) (draft : SeqId → List TokenId)
    (verify : Verifier) : ∃ e, execute maxBatchSize sample draft verify s out = .ok e := by
  unfold execute
  simp only
  split
  · exact ⟨_, rfl⟩
  · unfold speculativeStep
    simp only
    split
    · exact ⟨_, rfl⟩
    · obtain ⟨records, s₂, hfund, hfunded⟩ := fund_batch h hok hnd draft
      have hsub : (out.scheduled.filter fun item => !item.isPrefill).Sublist
          out.scheduled := List.filter_sublist
      obtain ⟨v, hv, -⟩ := verifyDecodes_spec verify hfunded.inv Scheduler.noCaps
        (((out.scheduled.filter fun item => item.isPrefill).filter (·.samplesToken)).map
          fun item => (item.seq, sample s₂ item)) records
        (hfunded.rowsFit fun item hitem => by
          rw [List.mem_filter, Bool.not_eq_true'] at hitem
          exact hone item hitem.1 hitem.2)
        (hfunded.extendable h fun item hitem => hok item (hsub.subset hitem))
        (hfunded.ids_eq ▸ hnd.sublist (hsub.map _))
      rw [hfund]
      simp only [lift, bind, Except.bind, hv]
      exact ⟨_, rfl⟩

end TurboServe.Spec
