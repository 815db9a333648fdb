import TurboServe.Spec.Engine
import TurboServe.Invariants.Feedback
import TurboServe.System.Content

/-!
# Feeding verified tokens back

`_process` appends the tokens of a step one at a time, and a capped sequence's computed
count follows them. The memory it runs over does not change; what it has to hold is
fixed when the feedback starts: up to its cap, every sequence's own text with all the
tokens that are still to come.
-/

namespace TurboServe.Spec

open TurboServe.Core

variable {D W : Type} [BlockDigest D] [DecidableEq D] [VirtualTime W]

/-! ## §1  The stop rule of the engine -/

/-- Stop token ids and the token limit first, then the checkpoint's end tokens, then
the stop strings. -/
def engineRule (stops : EngineStops) : StopRule := fun p out =>
  match stopRule none p out with
  | some reason => some reason
  | none =>
      match out.getLast? with
      | none => none
      | some tok =>
          if tok ∈ stops.eosTokenIds ∧ p.ignoreEos = false then some .stop
          else if stops.stopString p out then some .stop
          else none

theorem engineRule_append (stops : EngineStops) (p : SamplingParams)
    (out : List TokenId) (tok : TokenId) : engineRule stops p (out ++ [tok]) =
      match stopRule none p (out ++ [tok]) with
      | some reason => some reason
      | none =>
          if tok ∈ stops.eosTokenIds ∧ p.ignoreEos = false then some .stop
          else if stops.stopString p (out ++ [tok]) then some .stop
          else none := by
  unfold engineRule
  rw [List.getLast?_concat]

/-- A token goes through the engine as its rule says. -/
theorem engineToken_feeds (stops : EngineStops) :
    FeedsOne (engineRule stops) (engineToken (D := D) (W := W) stops) := by
  intro s i tok h hi
  have hfly : i ∈ s.inFlight := mem_inFlight.mpr (Or.inl hi)
  obtain ⟨s₁, hok, hinv, hnone, hsome⟩ := appendToken_spec h hfly tok none
  have hgoing := h.not_finished hfly
  rw [stopRule_append] at hok hnone hsome
  have hrule := engineRule_append stops (s.seqs i).sampling (s.seqs i).outputTokenIds tok
  cases hcore : stopRule none (s.seqs i).sampling
      ((s.seqs i).outputTokenIds ++ [tok]) with
  | some reason =>
      rw [hcore] at hok hrule
      refine ⟨s₁, ?_, hinv, .retired reason _ hrule (hsome reason hcore)⟩
      simp [engineToken, hgoing, hok, bind, Except.bind]
  | none =>
      rw [hcore] at hok hrule
      obtain rfl := hnone hcore
      set s₁ := s.setSeq i (appended (s.seqs i) tok) with hs₁
      have hself : s₁.seqs i = appended (s.seqs i) tok := Function.update_self _ _ _
      have hretire : ∀ reason stopTok, engineRule stops (s.seqs i).sampling
          ((s.seqs i).outputTokenIds ++ [tok]) = some reason →
          ∃ s', s₁.finish i reason stopTok = .ok s' ∧ Inv s' ∧
            Fed (engineRule stops) s i tok s' := by
        intro reason stopTok hstop
        obtain ⟨s', hok', hinv', hret⟩ := finish_spec hinv hfly reason stopTok
        rw [hself] at hret
        exact ⟨s', hok', hinv', .retired reason stopTok hstop hret⟩
      by_cases heos : tok ∈ stops.eosTokenIds ∧ (s.seqs i).sampling.ignoreEos = false
      · simp only [if_pos heos] at hrule
        obtain ⟨s', hok', hinv', hfed⟩ := hretire .stop (some tok) hrule
        refine ⟨s', ?_, hinv', hfed⟩
        simp [engineToken, hgoing, hok, hself, heos, hok', bind, Except.bind]
      · simp only [if_neg heos] at hrule
        by_cases hstring : stops.stopString (s.seqs i).sampling
            ((s.seqs i).outputTokenIds ++ [tok]) = true
        · rw [if_pos hstring] at hrule
          obtain ⟨s', hok', hinv', hfed⟩ := hretire .stop none hrule
          refine ⟨s', ?_, hinv', hfed⟩
          simp [engineToken, hgoing, hok, hself, heos, hstring, hok', bind, Except.bind]
        · rw [if_neg hstring] at hrule
          refine ⟨s₁, ?_, hinv, .kept hrule⟩
          simp [engineToken, hgoing, hok, hself, heos, hstring, bind, Except.bind]

theorem engineToken_skips (stops : EngineStops) (s : Scheduler D W) (i : SeqId)
    (tok : TokenId) (h : (s.seqs i).status = .finished) :
    engineToken stops s i tok = .ok s := by
  have hfin : (s.seqs i).isFinished = true := by simp [Sequence.isFinished, h]
  rw [engineToken, if_pos hfin]

/-! ## §2  What the memory holds for the tokens to come -/

/-- A sequence with the tokens it is still to be fed. -/
def fullText (seq : Sequence) (toks : List TokenId) : Sequence :=
  { seq with outputTokenIds := seq.outputTokenIds ++ toks }

theorem kvAt_fullText {seq : Sequence} {toks : List TokenId} {p : ℕ}
    (hp : p < seq.numTokens) : kvAt (fullText seq toks) p = kvAt seq p := by
  refine kvAt_prefix hp ⟨toks, ?_⟩ rfl
  simp [fullText, Sequence.tokenIds]

/-- How far a sequence's computed count can get. -/
def reach (caps : SeqId → Option ℕ) (i : SeqId) (seq : Sequence) : ℕ :=
  max seq.numComputedTokens ((caps i).getD 0)

/-- In the middle of a feedback: every running sequence reads its full text as far as
its count can get, and the index is sound. -/
structure Credited (mem : Slot → Option Kv) (tables : SeqId → List BlockId)
    (caps : SeqId → Option ℕ) (s : Scheduler D W) (rest : List (SeqId × TokenId)) :
    Prop where
  table_eq : ∀ i ∈ s.running, (s.seqs i).blockTable = tables i
  own : ∀ i ∈ s.running, Reads mem s.blockManager.blockSize (tables i)
    (fullText (s.seqs i) (tokensFor rest i)) (reach caps i (s.seqs i))
  index : IndexSound mem s.blockManager

variable {mem : Slot → Option Kv} {tables : SeqId → List BlockId}
variable {caps : SeqId → Option ℕ} {s s₁ : Scheduler D W} {stop : StopRule}
variable {i : SeqId} {tok : TokenId} {rest : List (SeqId × TokenId)}

omit [DecidableEq D] in
/-- A sequence the pair is not for reads what it did. -/
theorem Credited.other (h : Credited mem tables caps s ((i, tok) :: rest)) {j : SeqId}
    (hji : j ≠ i) (hj : j ∈ s.running) {s' : Scheduler D W} (hseq : s'.seqs j = s.seqs j)
    (hbs : s'.blockManager.blockSize = s.blockManager.blockSize) :
    (s'.seqs j).blockTable = tables j ∧ Reads mem s'.blockManager.blockSize (tables j)
      (fullText (s'.seqs j) (tokensFor rest j)) (reach caps j (s'.seqs j)) := by
  have hown := h.own j hj
  rw [tokensFor_cons_of_ne hji] at hown
  rw [hseq, hbs]
  exact ⟨h.table_eq j hj, hown⟩

/-- What credit makes of the computed count stays within reach. -/
theorem reach_credited (caps : SeqId → Option ℕ) (i : SeqId) (seq seq' : Sequence)
    (hcomp : seq'.numComputedTokens = seq.numComputedTokens) :
    reach caps i { seq' with numComputedTokens := creditedCount caps i seq' } ≤
      reach caps i seq := by
  unfold reach creditedCount
  cases caps i with
  | none => simp [hcomp]
  | some cap => simp

omit [DecidableEq D] in
theorem Credited.fed (h : Credited mem tables caps s ((i, tok) :: rest)) (hs : Inv s)
    (hi : i ∈ s.running) (hfed : Fed stop s i tok s₁) :
    Credited mem tables caps (s₁.credit caps i) rest := by
  obtain ⟨hrun, -, -, -, hbm, -, -⟩ := credit_frame s₁ caps i
  cases hfed with
  | kept hgo =>
      set s₁ := s.setSeq i (appended (s.seqs i) tok) with hs₁
      have hself : s₁.seqs i = appended (s.seqs i) tok := Function.update_self _ _ _
      have hother : ∀ j, j ≠ i → (s₁.credit caps i).seqs j = s.seqs j := fun j hj =>
        (credit_seqs_of_ne _ _ hj).trans (Function.update_of_ne hj _ _)
      have hcredit := credit_seqs_self s₁ caps i
      rw [hself] at hcredit
      have hboth : ∀ j ∈ s.running, ((s₁.credit caps i).seqs j).blockTable = tables j ∧
          Reads mem s.blockManager.blockSize (tables j)
            (fullText ((s₁.credit caps i).seqs j) (tokensFor rest j))
            (reach caps j ((s₁.credit caps i).seqs j)) := by
        intro j hj
        by_cases hji : j = i
        · subst hji
          rw [hcredit]
          refine ⟨h.table_eq j hj, ?_⟩
          have hown := h.own j hj
          rw [tokensFor_cons_self] at hown
          have hle := reach_credited caps j (s.seqs j) (appended (s.seqs j) tok) rfl
          intro p hp
          obtain ⟨b, hb, hmem⟩ := hown p (hp.trans_le hle)
          refine ⟨b, hb, ?_⟩
          rw [hmem]
          simp [kvAt, fullText, Sequence.tokenIds]
        · have hsame := h.other hji hj (hother j hji) (by rw [hbm]; rfl)
          rw [hbm] at hsame
          exact hsame
      refine { table_eq := ?_, own := ?_, index := ?_ }
      · intro j hj
        rw [hrun] at hj
        exact (hboth j hj).1
      · intro j hj
        rw [hrun] at hj
        rw [hbm]
        exact (hboth j hj).2
      · rw [hbm]
        exact h.index
  | retired reason stopTok hstop hr =>
      have hboth : ∀ j ∈ (s₁.credit caps i).running,
          ((s₁.credit caps i).seqs j).blockTable = tables j ∧
          Reads mem (s₁.credit caps i).blockManager.blockSize (tables j)
            (fullText ((s₁.credit caps i).seqs j) (tokensFor rest j))
            (reach caps j ((s₁.credit caps i).seqs j)) := by
        intro j hj
        rw [hrun, hr.running_eq] at hj
        obtain ⟨hji, hj⟩ := hs.running_nodup.mem_erase_iff.mp hj
        apply h.other hji hj
        · rw [credit_seqs_of_ne _ _ hji, hr.seqs_eq, Function.update_of_ne hji]
          exact Function.update_of_ne hji _ _
        · rw [hbm]
          exact hr.frame.blockSize_eq
      refine
        { table_eq := fun j hj => (hboth j hj).1, own := fun j hj => (hboth j hj).2
          index := ?_ }
      rw [hbm]
      have hself : (s.setSeq i (appended (s.seqs i) tok)).seqs i =
          appended (s.seqs i) tok := Function.update_self _ _ _
      refine h.index.publish hs.manager.blockSize_pos hr.frame.blockSize_eq
        (P := fun seq => seq = appended (s.seqs i) tok) ?_ ?_
      · rintro seq rfl
        have hle := hs.computed_le hi
        have hnum : (appended (s.seqs i) tok).numTokens = (s.seqs i).numTokens + 1 := by
          simp [Sequence.numTokens, Nat.add_assoc]
        refine ⟨?_, ?_⟩
        · rw [hnum]
          exact Nat.le_succ_of_le hle
        · have hown := h.own i hi
          rw [tokensFor_cons_self, ← h.table_eq i hi] at hown
          intro p hp
          obtain ⟨b, hb, hmem⟩ := hown p (lt_max_of_lt_left hp)
          refine ⟨b, hb, ?_⟩
          have happ : kvAt (appended (s.seqs i) tok) p = kvAt (s.seqs i) p :=
            kvAt_fullText (hp.trans_le hle)
          rw [hmem, happ, kvAt_fullText (hp.trans_le hle)]
      · intro x d hx
        refine (hr.indexed_of x d hx).imp_right ?_
        rintro ⟨-, hpub⟩
        rw [hself] at hpub
        exact ⟨_, rfl, hpub⟩

omit [DecidableEq D] in
theorem Credited.skip (h : Credited mem tables caps s ((i, tok) :: rest))
    (hi : i ∉ s.inFlight) : Credited mem tables caps (s.credit caps i) rest := by
  obtain ⟨hrun, -, -, -, hbm, -, -⟩ := credit_frame s caps i
  have hboth : ∀ j ∈ (s.credit caps i).running,
      ((s.credit caps i).seqs j).blockTable = tables j ∧
      Reads mem (s.credit caps i).blockManager.blockSize (tables j)
        (fullText ((s.credit caps i).seqs j) (tokensFor rest j))
        (reach caps j ((s.credit caps i).seqs j)) := by
    intro j hj
    rw [hrun] at hj
    have hji : j ≠ i := by
      rintro rfl
      exact hi (mem_inFlight.mpr (Or.inl hj))
    apply h.other hji hj
    · exact credit_seqs_of_ne _ _ hji
    · rw [hbm]
  refine
    { table_eq := fun j hj => (hboth j hj).1, own := fun j hj => (hboth j hj).2
      index := ?_ }
  rw [hbm]
  exact h.index

/-- The whole feedback. -/
theorem process_credited {stops : EngineStops} {e : Executed D W} (hs : Inv e.sched)
    (hcaps : CapsOk e.caps e.sched) (hpairs : ∀ p ∈ e.pairs, p.1 ∈ e.sched.running)
    (h : Credited mem tables e.caps e.sched e.pairs) :
    ∃ s', process stops e = .ok s' ∧ Inv s' ∧ Credited mem tables e.caps s' [] := by
  refine feedAll_induct (engineToken_feeds stops)
    (fun t i tok => engineToken_skips stops t i tok) ?_ ?_ e.pairs hs hcaps
    (fun p hp => Or.inl (hpairs p hp)) h
  · intro s i tok rest s₁ hs _ hi _ hfed h
    exact h.fed hs hi hfed
  · intro s i tok rest _ hi h
    exact h.skip hi

omit [DecidableEq D] in
/-- At the end the memory owes the scheduler nothing. -/
theorem Credited.contents (h : Credited mem tables caps s []) : Contents s mem where
  running i hi := by
    have hown := h.own i hi
    rw [h.table_eq i hi]
    intro p hp
    obtain ⟨b, hb, hmem⟩ := hown p (lt_max_of_lt_left hp)
    refine ⟨b, hb, ?_⟩
    rw [hmem]
    simp [kvAt, fullText, tokensFor, Sequence.tokenIds]
  index := h.index

end TurboServe.Spec
