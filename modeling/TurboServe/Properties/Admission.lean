import TurboServe.System.Pool

/-!
# The admission test is exact

Whatever was allocated, shared, published, retained or given back before, `can_allocate`
answers whether adopting a sequence's cached prefix and then taking slots for all of its
uncomputed tokens succeeds. Hits on retained blocks are counted as blocks the pool can
no longer serve, hits on blocks in use are free, and the blocks taken afterwards may
evict any block that is still retained, of the sequence's own prefix chain too.
-/

namespace TurboServe.Core

variable {D : Type} [BlockDigest D] [DecidableEq D]

/-- **The admission test is exact.** -/
theorem canAllocate_exact [CollisionFree D] {m : BlockManager D} {L : List Sequence}
    (h : PoolReachable m L) {seq : Sequence} (hempty : seq.blockTable = []) :
    m.canAllocate seq = true ↔ ∃ n m₁ seq₁, m.allocate seq = .ok (n, m₁, seq₁) ∧
      ∃ out, m₁.appendSlots seq₁ seq₁.numUncomputedTokens = .ok out :=
  h.managerInv.canAllocate_iff hempty

/-! ## A shared pool -/

/-- One operation, for the sequence that was used last. -/
inductive PoolOp : Type where
  | allocate (seq : Sequence)
  | take
  | advance (n : ℕ)
  | free

def poolNext : BlockManager D × List Sequence → PoolOp →
    Option (BlockManager D × List Sequence)
  | (m, L), .allocate seq =>
      if seq.seqId ∉ L.map (·.seqId) ∧ seq.blockTable = [] then
        match m.allocate seq with
        | .ok (_, m', seq') => some (m', seq' :: L)
        | .error _ => none
      else none
  | (m, seq :: L), .take =>
      match m.allocator.allocate with
      | .ok (b, a) => some ({ m with allocator := a },
          { seq with blockTable := seq.blockTable ++ [b] } :: L)
      | .error _ => none
  | (m, seq :: L), .advance n =>
      if seq.numComputedTokens + n ≤ seq.numTokens ∧
          seq.numComputedTokens + n ≤ seq.blockTable.length * m.blockSize then
        some (m, advanced seq n :: L)
      else none
  | (m, seq :: L), .free =>
      match m.free seq with
      | .ok (m', _) => some (m', L)
      | .error _ => none
  | (_, []), _ => none

theorem poolStep_of_next {x y : BlockManager D × List Sequence} {op : PoolOp}
    (h : poolNext x op = some y) : PoolStep x y := by
  obtain ⟨m, L⟩ := x
  cases op with
  | allocate seq =>
      simp only [poolNext] at h
      split at h
      · rename_i hguard
        split at h
        · rename_i hok
          cases h
          exact .allocate hguard.1 hguard.2 hok
        · cases h
      · cases h
  | take =>
      cases L with
      | nil => cases h
      | cons seq L =>
          simp only [poolNext] at h
          split at h
          · rename_i hok
            cases h
            exact .take hok
          · cases h
  | advance n =>
      cases L with
      | nil => cases h
      | cons seq L =>
          simp only [poolNext] at h
          split at h
          · rename_i hguard
            cases h
            exact .advance n hguard.1 hguard.2
          · cases h
  | free =>
      cases L with
      | nil => cases h
      | cons seq L =>
          simp only [poolNext] at h
          split at h
          · rename_i hok
            cases h
            exact .free hok
          · cases h

/-- A sequence with the given prompt. -/
def prompted (seqId : SeqId) (first : TokenId) (rest : List TokenId) : Sequence :=
  { (default : Sequence) with
    seqId := seqId, promptTokenIds := first :: rest, prompt_ne_nil := List.cons_ne_nil _ _ }

/-- Admitted, given `n` blocks and computed by `n` tokens. -/
def served (seq : Sequence) (n : ℕ) : List PoolOp :=
  .allocate seq :: List.replicate n .take ++ [.advance n]

/-- Two prompts are computed and given back, so that blocks 0, 1 and 2 are retained; a third one
shares the first block of the first. -/
def sharing : List PoolOp :=
  served (prompted 0 1 [2]) 2 ++ [.free] ++ served (prompted 1 5 []) 1 ++ [.free] ++
    served (prompted 2 1 [7]) 1

/-- The blocks of a sequence that was admitted and took slots for all of its tokens. -/
def tableAfter (m : BlockManager D) (seq : Sequence) : Option (List BlockId) :=
  match m.allocate seq with
  | .error _ => none
  | .ok (_, m₁, seq₁) =>
      match m₁.appendSlots seq₁ seq₁.numUncomputedTokens with
      | .error _ => none
      | .ok (_, _, seq₂) => some seq₂.blockTable

/-- Block 0 is in use, 1 and 2 are retained, one is free. Four tokens fit: the first is a hit in
use, the second a retained hit, and the last takes block 2 away from the cache. Five do not. -/
def afterSharing (m : BlockManager FreeDigest) : Bool :=
  decide (m.allocator.refs 0 = 1 ∧ m.allocator.isRetained 1 = true ∧
    m.allocator.isRetained 2 = true ∧ m.allocator.free = [4] ∧
    tableAfter m (prompted 3 1 [2, 3, 4]) = some [0, 1, 4, 2] ∧
    m.canAllocate (prompted 3 1 [2, 3, 4]) = true ∧
    m.canAllocate (prompted 3 1 [2, 3, 4, 6]) = false)

theorem canAllocate_exact_shared : ∃ (m : BlockManager FreeDigest) (L : List Sequence),
    PoolReachable m L ∧ m.allocator.refs 0 = 1 ∧ m.allocator.isRetained 1 = true ∧
      m.allocator.isRetained 2 = true ∧ m.allocator.free = [4] ∧
      tableAfter m (prompted 3 1 [2, 3, 4]) = some [0, 1, 4, 2] ∧
      (∃ n m₁ seq₁, m.allocate (prompted 3 1 [2, 3, 4]) = .ok (n, m₁, seq₁) ∧
        ∃ out, m₁.appendSlots seq₁ seq₁.numUncomputedTokens = .ok out) ∧
      ¬∃ n m₁ seq₁, m.allocate (prompted 3 1 [2, 3, 4, 6]) = .ok (n, m₁, seq₁) ∧
        ∃ out, m₁.appendSlots seq₁ seq₁.numUncomputedTokens = .ok out := by
  have hrun : (sharing.foldlM poolNext (BlockManager.create FreeDigest 5 1 true, [])).map
      (fun x => afterSharing x.1) = some true := by
    decide +kernel
  obtain ⟨⟨m, L⟩, hx, hafter⟩ := Option.map_eq_some_iff.mp hrun
  obtain ⟨hrefs, hone, htwo, hfree, htable, hfits, hfull⟩ := of_decide_eq_true hafter
  have hreach : PoolReachable m L :=
    .foldlM poolStep_of_next (.init ⟨5, 1, true, Nat.one_pos, rfl⟩) hx
  refine ⟨m, L, hreach, hrefs, hone, htwo, hfree, htable, ?_, ?_⟩
  · exact (canAllocate_exact hreach rfl).mp hfits
  · intro hall
    exact Bool.false_ne_true (hfull.symm.trans ((canAllocate_exact hreach rfl).mpr hall))

end TurboServe.Core
