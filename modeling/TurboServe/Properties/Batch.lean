import TurboServe.Core.AttnMetadata
import TurboServe.Invariants.Writes
import TurboServe.System.Runs

/-!
# Every batch is well formed

Limits, layout, counts and sampling rows of the batch of any reachable state,
and the attention metadata built from it. What a decode entry contributes is
not settled here: a resumed sequence whose cached prefix covers its prompt is
classified as a decode whatever it has left to compute.
-/

namespace TurboServe.Core

variable {D W : Type} [BlockDigest D] [DecidableEq D] [VirtualTime W]

/-! ## §1  Offsets -/

theorem cumulative_eq_cons (offset : ℕ) (qs : List ℕ) :
    ∃ rest, cumulative offset qs = offset :: rest := by
  cases qs <;> exact ⟨_, rfl⟩

theorem length_cumulative (offset : ℕ) (qs : List ℕ) :
    (cumulative offset qs).length = qs.length + 1 := by
  induction qs generalizing offset with
  | nil => rfl
  | cons q qs ih => simp [cumulative, ih]

theorem getLastD_cumulative (offset d : ℕ) (qs : List ℕ) :
    (cumulative offset qs).getLastD d = offset + qs.sum := by
  induction qs generalizing offset d with
  | nil => rfl
  | cons q qs ih =>
      rw [cumulative, List.getLastD_cons, ih, List.sum_cons, Nat.add_assoc]

theorem decreases_cumulative (offset : ℕ) (qs : List ℕ) :
    AttnMetadata.decreases (cumulative offset qs) = false := by
  induction qs generalizing offset with
  | nil => rfl
  | cons q qs ih =>
      obtain ⟨rest, hrest⟩ := cumulative_eq_cons (offset + q) qs
      have hq := ih (offset + q)
      rw [hrest] at hq
      simp [cumulative, hrest, AttnMetadata.decreases, hq]

/-- The differences of the offsets are the query lengths again. -/
theorem zipWith_cumulative (offset : ℕ) (qs : List ℕ) :
    List.zipWith (fun a b => b - a) (cumulative offset qs) (cumulative offset qs).tail =
      qs := by
  induction qs generalizing offset with
  | nil => rfl
  | cons q qs ih =>
      obtain ⟨rest, hrest⟩ := cumulative_eq_cons (offset + q) qs
      have hq := ih (offset + q)
      rw [hrest] at hq
      simpa [cumulative, hrest] using hq

/-! ## §2  Sampling rows -/

/-- `sample_indices()` against `sampled()`: entry by entry, the row is the last
row of that entry in the packed batch. -/
structure RowOf (scheduled : List ScheduledSeq) (item : ScheduledSeq) (row : ℕ) :
    Prop where
  last_row : ∃ before after, scheduled = before ++ item :: after ∧
    row + 1 = (before.map (·.numNewTokens)).sum + item.numNewTokens

theorem sampleIndicesFrom_spec (offset : ℕ) (l : List ScheduledSeq) :
    List.Forall₂ (fun item row => ∃ before after, l = before ++ item :: after ∧
        row + 1 = offset + (before.map (·.numNewTokens)).sum + item.numNewTokens)
      (l.filter (·.samplesToken)) (SchedulerOutput.sampleIndicesFrom offset l) := by
  induction l generalizing offset with
  | nil => exact .nil
  | cons item l ih =>
      have hlater : List.Forall₂ (fun x row => ∃ before after,
          item :: l = before ++ x :: after ∧
            row + 1 = offset + (before.map (·.numNewTokens)).sum + x.numNewTokens)
          (l.filter (·.samplesToken))
          (SchedulerOutput.sampleIndicesFrom (offset + item.numNewTokens) l) := by
        refine (ih (offset + item.numNewTokens)).imp fun x row hx => ?_
        obtain ⟨before, after, hsplit, hrow⟩ := hx
        refine ⟨item :: before, after, by rw [hsplit]; rfl, ?_⟩
        rw [hrow, List.map_cons, List.sum_cons]
        omega
      cases hs : item.samplesToken with
      | false =>
          rw [List.filter_cons_of_neg (by simp [hs])]
          simpa [SchedulerOutput.sampleIndicesFrom, hs] using hlater
      | true =>
          rw [List.filter_cons_of_pos hs]
          simp only [SchedulerOutput.sampleIndicesFrom, hs, if_true]
          refine .cons ⟨[], l, rfl, ?_⟩ hlater
          have := item.numNewTokens_pos
          simp
          omega

theorem sampleIndices_spec (out : SchedulerOutput) :
    List.Forall₂ (RowOf out.scheduled) out.sampled out.sampleIndices := by
  refine (sampleIndicesFrom_spec 0 out.scheduled).imp fun item row h => ?_
  obtain ⟨before, after, hsplit, hrow⟩ := h
  exact ⟨before, after, hsplit, by rw [hrow, Nat.zero_add]⟩

/-! ## §3  Limits and layout -/

/-- The batch as `SchedulerOutput` documents it. -/
structure BatchOk (config : SchedulerConfig W) (out : SchedulerOutput) : Prop where
  tokens_le : out.numBatchedTokens ≤ config.maxNumBatchedTokens
  tokens_eq : out.numBatchedTokens = out.inputTokenIds.length
  seqs_le : out.numSeqs ≤ config.maxNumSeqs
  no_sequence_twice : (out.scheduled.map (·.seq)).Nodup
  layout : ∃ prefills decodes, out.scheduled = prefills ++ decodes ∧
    (∀ item ∈ prefills, item.isPrefill = true) ∧
    (∀ item ∈ decodes, item.isPrefill = false) ∧
    out.numPrefillSeqs = prefills.length ∧ out.numDecodeSeqs = decodes.length ∧
    out.numPrefillTokens = (prefills.map (·.numNewTokens)).sum ∧
    out.numDecodeTokens = (decodes.map (·.numNewTokens)).sum
  sample_rows : List.Forall₂ (RowOf out.scheduled) out.sampled out.sampleIndices

theorem length_inputTokenIds (out : SchedulerOutput) :
    out.inputTokenIds.length = (out.scheduled.map (·.numNewTokens)).sum := by
  rw [SchedulerOutput.inputTokenIds, List.length_flatMap]
  congr 1
  exact List.map_congr_left fun item _ => item.length_tokenIds

omit [DecidableEq D] in
theorem StepInv.batchOk {s : Scheduler D W} {acc : StepAcc} (h : StepInv s acc) :
    BatchOk s.config acc.toOutput := by
  have hsplit : (acc.entries.map (·.numNewTokens)).sum =
      acc.toOutput.numBatchedTokens := by
    simp [StepAcc.entries, SchedulerOutput.numBatchedTokens, StepAcc.toOutput]
  have hlen : acc.entries.length = acc.scheduledIds.length := by
    have := h.ids.length_eq
    rwa [List.length_map] at this
  have htok := h.tokens
  have hseqs := h.seqs
  exact
    { tokens_le := by omega
      tokens_eq := by rw [length_inputTokenIds, ← hsplit]; rfl
      seqs_le := by
        show acc.entries.length ≤ _
        omega
      no_sequence_twice := h.ids.nodup_iff.mpr h.nodup
      layout := ⟨acc.prefills, acc.decodes, rfl, h.prefills, h.decodes, rfl, rfl, rfl,
        rfl⟩
      sample_rows := sampleIndices_spec _ }

/-! ## §4  Metadata -/

theorem forM_ok {α : Type} {f : α → Except Fault Unit} (xs : List α)
    (h : ∀ x ∈ xs, f x = .ok ()) : xs.forM f = .ok () := by
  induction xs with
  | nil => rfl
  | cons x xs ih =>
      show (f x >>= fun _ => xs.forM f) = _
      rw [h x List.mem_cons_self]
      exact ih fun y hy => h y (List.mem_cons_of_mem _ hy)

/-- Real blocks are not padding. -/
theorem filter_padBlock (row : List BlockId) :
    (row.map Int.ofNat).filter (fun b => decide (b ≠ padBlock)) = row.map Int.ofNat := by
  refine List.filter_eq_self.mpr fun b hb => ?_
  obtain ⟨x, -, rfl⟩ := List.mem_map.mp hb
  exact decide_eq_true (by simp [padBlock])

/-- One row of `validate`: a table that covers its context, then padding. -/
theorem validateSeq_ok {m : AttnMetadata} {bs index ctx q : ℕ} {row : List BlockId}
    (pads : List ℤ) (hbs : 0 < bs)
    (hrow : m.blockTables[index]? = some (row.map Int.ofNat ++ pads))
    (hcover : ctx ≤ row.length * bs) (hq : q ≤ ctx) :
    m.validateSeq (some bs) index ctx q = .ok () := by
  have hneed : ctx ⌈/⌉ bs ≤ row.length := by
    rw [ceilDiv_le_iff_le_smul hbs, smul_eq_mul, Nat.mul_comm]
    exact hcover
  have htake : ((row.map Int.ofNat ++ pads).take (ctx ⌈/⌉ bs)).filter
      (fun b => decide (b ≠ padBlock)) = (row.take (ctx ⌈/⌉ bs)).map Int.ofNat := by
    rw [List.take_append_of_le_length (by rw [List.length_map]; exact hneed),
      ← List.map_take, filter_padBlock]
  simp only [AttnMetadata.validateSeq, if_neg (Nat.not_lt.mpr hq), hrow,
    Option.getD_some, htake, List.length_map, List.length_take, min_eq_left hneed,
    ne_eq, not_true_eq_false, if_false]

/-- The metadata of a non-empty batch whose tables cover their contexts. -/
theorem buildAttnMetadata_validates {out : SchedulerOutput} {bs : ℕ}
    (requestIdOf : SeqId → String) (hbs : 0 < bs) (hne : out.scheduled ≠ [])
    (hcover : ∀ item ∈ out.scheduled,
      item.contextLen ≤ item.blockTable.length * bs)
    (hcount : out.numPrefillSeqs + out.numDecodeSeqs = out.scheduled.length) :
    ∃ md, out.buildAttnMetadata requestIdOf bs none = .ok md ∧
      md.validate (some bs) = .ok () := by
  have hfind : out.scheduled.find? (fun item =>
      decide (item.blockTable.length * bs < item.contextLen)) = none := by
    rw [List.find?_eq_none]
    intro item hitem
    simpa using hcover item hitem
  refine ⟨_, by
    simp only [SchedulerOutput.buildAttnMetadata, hne, if_false, hfind, padBlockTables,
      if_neg (Nat.not_lt.mpr hbs)]
    rfl, ?_⟩
  generalize hwidth : maximum ((out.scheduled.map (·.blockTable)).map List.length) = width
  have hq : ∀ {slots tables ctxs mq mc np nd}, (AttnMetadata.mk slots tables ctxs
      (buildQueryStartLoc (out.scheduled.map (·.numNewTokens))) mq mc np nd).queryLens =
        out.scheduled.map (·.numNewTokens) := fun {_ _ _ _ _ _ _} =>
    zipWith_cumulative 0 _
  have hslots : (out.scheduled.flatMap (·.slotMapping)).length =
      (out.scheduled.map (·.numNewTokens)).sum := by
    rw [List.length_flatMap]
    congr 1
    exact List.map_congr_left fun item _ => item.length_slotMapping
  obtain ⟨rest, hcons⟩ := cumulative_eq_cons 0 (out.scheduled.map (·.numNewTokens))
  have hhead : (buildQueryStartLoc (out.scheduled.map (·.numNewTokens))).headD 0 = 0 := by
    rw [buildQueryStartLoc, hcons]
    rfl
  have hlast : (buildQueryStartLoc (out.scheduled.map (·.numNewTokens))).getLastD 0 =
      (out.scheduled.flatMap (·.slotMapping)).length := by
    rw [buildQueryStartLoc, getLastD_cumulative, Nat.zero_add, hslots]
  have hlocs : (buildQueryStartLoc (out.scheduled.map (·.numNewTokens))).length =
      out.scheduled.length + 1 := by
    rw [buildQueryStartLoc, length_cumulative, List.length_map]
  have hmono : AttnMetadata.decreases
      (buildQueryStartLoc (out.scheduled.map (·.numNewTokens))) = false :=
    decreases_cumulative 0 _
  simp only [AttnMetadata.validate, AttnMetadata.numSeqs, AttnMetadata.numTokens, hq,
    hhead, hlast, hlocs, hmono, hcount, List.length_map, ne_eq, not_true_eq_false,
    if_false, and_false, Bool.false_eq_true]
  refine forM_ok _ fun p hp => ?_
  obtain ⟨⟨ctx, q⟩, k⟩ := p
  have hk := List.mem_zipIdx' hp
  obtain ⟨hklt, hval⟩ := hk
  rw [List.getElem_zip] at hval
  have hlt : k < out.scheduled.length := by simpa using hklt
  have hitem : out.scheduled[k] ∈ out.scheduled := List.getElem_mem hlt
  simp only [List.getElem_map, Prod.mk.injEq] at hval
  obtain ⟨hctx, hquery⟩ := hval
  simp only [hctx, hquery]
  refine validateSeq_ok (List.replicate
    (width - out.scheduled[k].blockTable.length) padBlock) hbs ?_ (hcover _ hitem)
    out.scheduled[k].le_contextLen
  simp only [List.map_map, List.getElem?_map, List.getElem?_eq_getElem hlt,
    Option.map_some, Function.comp]

/-! ## §5  Every reachable batch -/

/-- Batches are well formed in every reachable state, and a batch that is not
empty has valid attention metadata; on an empty one there is none to build. -/
theorem batch_well_formed {s s' : Scheduler D W} {out : SchedulerOutput}
    (h : Reachable s) (hs : s.schedule = .ok (out, s')) :
    BatchOk s.config out ∧
      (out.scheduled ≠ [] → ∃ md,
        out.buildAttnMetadata (fun i => (s'.seqs i).requestId) s.config.blockSize none =
          .ok md ∧ md.validate (some s.config.blockSize) = .ok ()) ∧
      (out.scheduled = [] →
        out.buildAttnMetadata (fun i => (s'.seqs i).requestId) s.config.blockSize none =
          .error .emptyStep) := by
  have hrun := StepRun.of_schedule h.inv hs
  obtain ⟨acc, rfl, hstep⟩ := hrun.stepInv h.inv
  have hconf : s'.config = s.config := hrun.config_eq h.inv
  have hbs : s'.blockManager.blockSize = s.config.blockSize :=
    hstep.inv.blockSize_eq.trans (by rw [hconf])
  refine ⟨hconf ▸ hstep.batchOk, fun hne => ?_, fun hnil => ?_⟩
  · refine buildAttnMetadata_validates _ s.config.one_le_blockSize hne ?_ ?_
    · intro item hitem
      have hok := hstep.entries item hitem
      obtain ⟨st, hst, -⟩ := hok.placed.holds hstep.inv
      rw [hok.context_eq, hok.table_eq, ← hbs]
      exact hst.covered
    · show acc.prefills.length + acc.decodes.length = (acc.prefills ++ acc.decodes).length
      rw [List.length_append]
  · simp [SchedulerOutput.buildAttnMetadata, hnil]

/-- The third step of the small run: two decodes with valid metadata. -/
theorem batch_well_formed_small :
    ∃ (s : Scheduler FreeDigest ℚ) (out : SchedulerOutput) (s' : Scheduler FreeDigest ℚ),
      s.schedule = .ok (out, s') ∧ out.scheduled.map (·.seq) = [0, 1] ∧
      BatchOk s.config out := by
  have h : observe FreeDigest smallConfig 8 smallOps
      (fun _ out _ => out.scheduled.map (·.seq)) = some [0, 1] := by decide
  obtain ⟨s, out, s', hs, hok, hseqs⟩ := observe_eq_some h
  exact ⟨s, out, s', hok, hseqs, (batch_well_formed hs hok).1⟩

/-- Blocks of two tokens, and a sequence that is preempted with a generated
token not yet computed; its first block stays cached. -/
def resumeConfig : SchedulerConfig ℚ :=
  { maxNumSeqs := 2, maxNumBatchedTokens := 8, blockSize := 2
    one_le_maxNumSeqs := Nat.two_pos, one_le_blockSize := Nat.two_pos }

def resumeOps : List Op :=
  [.addRequest { requestId := "a", promptTokenIds := [7, 8, 9] },
    .addRequest { requestId := "b", promptTokenIds := [1, 2] },
    .schedule, .appendToken 0 5 none, .appendToken 1 3 none,
    .schedule, .appendToken 0 5 none, .appendToken 1 4 none,
    .schedule, .abort "a"]

/-- A batch with all that has been said of batches: decodes of one token each,
and metadata that can be built and validates. -/
def BatchIdeal (s : Scheduler D W) (out : SchedulerOutput) : Prop :=
  BatchOk s.config out ∧
    (∀ item ∈ out.scheduled, item.isPrefill = false → item.numNewTokens = 1) ∧
    ∃ md, out.buildAttnMetadata (fun i => (s.seqs i).requestId) s.config.blockSize none =
      .ok md ∧ md.validate (some s.config.blockSize) = .ok ()

/-- Not every reachable batch is ideal: the first step of an idle scheduler is
empty, and the resumed sequence of `resumeOps` is a decode of two tokens. -/
theorem batch_not_ideal :
    (∃ (s : Scheduler FreeDigest ℚ) (out : SchedulerOutput)
        (s' : Scheduler FreeDigest ℚ), Reachable s ∧ s.schedule = .ok (out, s') ∧
        out.scheduled = [] ∧ ¬ BatchIdeal s' out) ∧
      ∃ (s : Scheduler FreeDigest ℚ) (out : SchedulerOutput)
        (s' : Scheduler FreeDigest ℚ), Reachable s ∧ s.schedule = .ok (out, s') ∧
        out.scheduled.map (fun item => (item.isPrefill, item.numNewTokens)) =
          [(false, 2)] ∧ ¬ BatchIdeal s' out := by
  constructor
  · have h : observe FreeDigest smallConfig 4 []
        (fun _ out _ => out.scheduled.length) = some 0 := by decide
    obtain ⟨s, out, s', hs, hok, hlen⟩ := observe_eq_some h
    have hnil := List.length_eq_zero_iff.mp hlen
    refine ⟨s, out, s', hs, hok, hnil, fun hideal => ?_⟩
    obtain ⟨md, hmd, -⟩ := hideal.2.2
    simp [SchedulerOutput.buildAttnMetadata, hnil] at hmd
  · have h : observe FreeDigest resumeConfig 4 resumeOps
        (fun _ out _ => out.scheduled.map fun item =>
          (item.isPrefill, item.numNewTokens)) = some [(false, 2)] := by decide +kernel
    obtain ⟨s, out, s', hs, hok, hitems⟩ := observe_eq_some h
    refine ⟨s, out, s', hs, hok, hitems, fun hideal => ?_⟩
    obtain ⟨item, hitem, hval⟩ := List.mem_map.mp
      (hitems ▸ List.mem_singleton.mpr rfl :
        (false, 2) ∈ out.scheduled.map fun item => (item.isPrefill, item.numNewTokens))
    obtain ⟨hprefill, hnum⟩ := Prod.mk.inj hval
    have := hideal.2.1 item hitem hprefill
    omega

end TurboServe.Core
