import TurboServe.Spec.Funding
import TurboServe.Invariants.Feedback

/-!
# Verification and rollback

What a speculative step leaves to its feedback: every widened sequence is back at the
text and the computed count the scheduler gave it, with the blocks of its draft still
in its table, and its cap and its tokens are those of the verdict on its draft.
-/

namespace TurboServe.Spec

open TurboServe.Core

variable {D W : Type} [VirtualTime W]

/-! ## §1  Taking one draft back -/

/-- A sequence once its extension is taken back. -/
def undone (seq : Sequence) (record : Verified) : Sequence :=
  { seq with
    outputTokenIds :=
      if record.numDrafted ≠ 0 then seq.outputTokenIds.take record.baseOutputs
      else seq.outputTokenIds
    numComputedTokens := record.baseComputed }

theorem rollback_eq (s : Scheduler D W) (record : Verified) : rollback s record =
    s.setSeq record.item.seq (undone (s.seqs record.item.seq) record) := rfl

theorem Widened.undone_eq {bs : ℕ} {seq seq' : Sequence} {item : ScheduledSeq}
    {drafts : List TokenId} {record : Verified}
    (h : Widened bs seq seq' item drafts record) :
    undone seq' record = { seq with blockTable := seq'.blockTable } := by
  have houtput : (if record.numDrafted ≠ 0 then
      (seq.outputTokenIds ++ drafts).take record.baseOutputs
      else seq.outputTokenIds ++ drafts) = seq.outputTokenIds := by
    rw [h.numDrafted_eq, h.baseOutputs_eq]
    by_cases hnil : drafts = []
    · simp [hnil]
    · have hne : drafts.length ≠ 0 := fun h0 => hnil (List.length_eq_zero_iff.mp h0)
      rw [if_pos hne, List.take_left']
      rfl
  rw [h.seq_eq, undone, houtput, h.baseComputed_eq]

/-- A sequence whose extension can be taken back to `seq`. -/
structure Extendable (s : Scheduler D W) (seq : Sequence) (record : Verified) : Prop where
  running : record.item.seq ∈ s.running
  widened : ∃ item kept, Widened s.blockManager.blockSize seq (s.seqs record.item.seq) item
    kept record
  computed_le : seq.numComputedTokens ≤ seq.numTokens
  published : ∀ st, s.blockManager.state record.item.seq = some st →
    st.numPublished * s.blockManager.blockSize ≤ seq.numComputedTokens

variable {s : Scheduler D W} {seq : Sequence} {record : Verified}

theorem rollback_inv [BlockDigest D] (h : Inv s) (hext : Extendable s seq record) :
    Inv (rollback s record) := by
  obtain ⟨item, kept, hw⟩ := hext.widened
  set i := record.item.seq with hi
  have hundone := hw.undone_eq
  have hvalue := hw.seq_eq
  have hid : (s.seqs i).seqId = seq.seqId := by rw [hvalue]
  rw [rollback_eq, ← hi, hundone]
  apply h.set_value
  · exact hid.symm
  · rw [hvalue]
  · rw [hvalue]
  · rw [hvalue]
  · intro hidle
    refine ⟨hidle.1, ?_⟩
    have hzero := hidle.2
    rw [hvalue] at hzero
    exact Nat.eq_zero_of_add_eq_zero_right hzero
  · intro hrun
    refine ManagerInv.take_back (s.seqs i).numComputedTokens kept ?_ ?_ hext.computed_le ?_
    · have hhead := h.manager_head hrun
      rw [hvalue] at hhead ⊢
      exact hhead
    · rw [hvalue]
      exact Nat.le_add_right _ _
    · intro st hst
      refine hext.published st ?_
      have hrunId := h.id_of_running hrun
      rw [← hi, ← hrunId, hid]
      exact hst

/-! ## §2  The loop over the verdicts -/

/-- The drafts a record offers to verification. -/
def offered (record : Verified) : List TokenId :=
  record.verifyItem.tokenIds.drop record.item.numNewTokens

/-- The verdict on a record. -/
def verdict (verify : Verifier) (s : Scheduler D W) (record : Verified) :
    Verification (offered record) :=
  verify (s.seqs record.item.seq) (offered record)

/-- The verifier sees one row more than there are drafts. -/
def RowsFit (record : Verified) : Prop :=
  record.verifyItem.numNewTokens = (offered record).length + 1

/-- What the loop leaves. -/
structure Judged [BlockDigest D] (verify : Verifier) (s : Scheduler D W) (caps : SeqId → Option ℕ)
    (pairs : List (SeqId × TokenId)) (records : List Verified) (v : Verdicts D W) :
    Prop where
  inv : Inv v.sched
  same : v.sched = { s with seqs := v.sched.seqs }
  undone_eq : ∀ record ∈ records,
    v.sched.seqs record.item.seq = undone (s.seqs record.item.seq) record
  others : ∀ i, i ∉ records.map (·.item.seq) → v.sched.seqs i = s.seqs i
  caps_eq : ∀ record ∈ records, v.caps record.item.seq =
    some (record.baseComputed + (verdict verify s record).numAccepted)
  uncapped : ∀ i, i ∉ records.map (·.item.seq) → v.caps i = caps i
  pairs_eq : v.pairs = pairs ++ records.flatMap fun record =>
    (verdict verify s record).tokens.map fun tok => (record.item.seq, tok)

/-- A verdict depends on the sequence it is about. -/
theorem verdict_congr {verify : Verifier} {s s' : Scheduler D W} {record : Verified}
    (h : s'.seqs record.item.seq = s.seqs record.item.seq) :
    verdict verify s' record = verdict verify s record := by
  unfold verdict
  rw [h]

theorem Extendable.congr {s' : Scheduler D W} (h : Extendable s seq record)
    (hrun : s'.running = s.running) (hbm : s'.blockManager = s.blockManager)
    (hseq : s'.seqs record.item.seq = s.seqs record.item.seq) :
    Extendable s' seq record where
  running := hrun ▸ h.running
  widened := by
    rw [hbm, hseq]
    exact h.widened
  computed_le := h.computed_le
  published := by
    rw [hbm]
    exact h.published

/-- By induction on the records: each rollback keeps the invariant, and the sequences
of the records left are still as they were widened. -/
theorem verifyDecodes_spec [BlockDigest D] (verify : Verifier) {orig : SeqId → Sequence} (h : Inv s)
    (caps : SeqId → Option ℕ) (pairs : List (SeqId × TokenId)) (records : List Verified)
    (hrows : ∀ record ∈ records, RowsFit record)
    (hext : ∀ record ∈ records, Extendable s (orig record.item.seq) record)
    (hnd : (records.map (·.item.seq)).Nodup) :
    ∃ v, verifyDecodes verify s caps pairs records = .ok v ∧
      Judged verify s caps pairs records v := by
  induction records generalizing s caps pairs with
  | nil =>
      refine ⟨⟨s, caps, pairs⟩, rfl, ?_⟩
      exact
        { inv := h, same := rfl, undone_eq := by simp, others := fun _ _ => rfl
          caps_eq := by simp, uncapped := fun _ _ => rfl, pairs_eq := by simp }
  | cons record rest ih =>
      rw [List.forall_mem_cons] at hrows hext
      rw [List.map_cons, List.nodup_cons] at hnd
      obtain ⟨hnot, hnd⟩ := hnd
      have hself : (rollback s record).seqs record.item.seq =
          undone (s.seqs record.item.seq) record := by
        rw [rollback_eq]
        exact Function.update_self _ _ _
      have hother : ∀ j, j ≠ record.item.seq → (rollback s record).seqs j = s.seqs j := by
        intro j hj
        rw [rollback_eq]
        exact Function.update_of_ne hj _ _
      have hrest : ∀ r ∈ rest, (rollback s record).seqs r.item.seq = s.seqs r.item.seq := by
        intro r hr
        apply hother
        rintro heq
        exact hnot (List.mem_map.mpr ⟨r, hr, heq⟩)
      obtain ⟨v, hok, hjudged⟩ := ih (rollback_inv h hext.1)
        (Function.update caps record.item.seq
          (some (record.baseComputed + (verdict verify s record).numAccepted)))
        (pairs ++ (verdict verify s record).tokens.map fun tok => (record.item.seq, tok))
        hrows.2 (fun r hr => (hext.2 r hr).congr rfl rfl (hrest r hr)) hnd
      refine ⟨v, ?_, ?_⟩
      · rw [verifyDecodes]
        have hfit : record.verifyItem.numNewTokens =
            (record.verifyItem.tokenIds.drop record.item.numNewTokens).length + 1 := hrows.1
        rw [if_neg (not_not.mpr hfit)]
        exact hok
      · refine
          { inv := hjudged.inv, same := hjudged.same, undone_eq := ?_, others := ?_
            caps_eq := ?_, uncapped := ?_, pairs_eq := ?_ }
        · rw [List.forall_mem_cons]
          constructor
          · rw [hjudged.others _ hnot, hself]
          · intro r hr
            rw [hjudged.undone_eq r hr, hrest r hr]
        · intro j hj
          rw [List.map_cons, List.mem_cons, not_or] at hj
          rw [hjudged.others j hj.2, hother j hj.1]
        · rw [List.forall_mem_cons]
          constructor
          · rw [hjudged.uncapped _ hnot, Function.update_self]
          · intro r hr
            rw [hjudged.caps_eq r hr, verdict_congr (hrest r hr)]
        · intro j hj
          rw [List.map_cons, List.mem_cons, not_or] at hj
          rw [hjudged.uncapped j hj.2, Function.update_of_ne hj.1]
        · rw [hjudged.pairs_eq, List.append_assoc, List.flatMap_cons]
          congr 2
          apply List.flatMap_congr
          intro r hr
          rw [verdict_congr (hrest r hr)]

/-- The loop gets through only when every record fits its rows. -/
theorem verifyDecodes_rows (verify : Verifier) (s : Scheduler D W)
    (caps : SeqId → Option ℕ) (pairs : List (SeqId × TokenId)) (records : List Verified)
    {v : Verdicts D W} (hok : verifyDecodes verify s caps pairs records = .ok v) :
    ∀ record ∈ records, RowsFit record := by
  induction records generalizing s caps pairs with
  | nil => simp
  | cons record rest ih =>
      rw [verifyDecodes] at hok
      split at hok
      · cases hok
      · next hfit =>
          rw [List.forall_mem_cons]
          exact ⟨not_not.mp hfit, ih _ _ _ hok⟩

end TurboServe.Spec
