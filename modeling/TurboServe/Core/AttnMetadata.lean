import TurboServe.Core.Scheduler

/-!
# Attention metadata

`AttnMetadata` of `engine/core/types.py` with the two functions that build its
tensors, `SchedulerOutput.build_attn_metadata` and `validate`. Tensors are lists;
the checks of `validate` on dimensions, dtypes and signs are what the types here
already say, and are left out.
-/

namespace TurboServe.Core

structure AttnMetadata where
  slotMapping : List Slot
  blockTables : List (List ℤ)
  contextLens : List ℕ
  queryStartLoc : List ℕ
  maxQueryLen : ℕ
  maxContextLen : ℕ
  numPrefillSeqs : ℕ
  numDecodeSeqs : ℕ

/-- Cumulative offsets, starting from `offset`. -/
def cumulative (offset : ℕ) : List ℕ → List ℕ
  | [] => [offset]
  | q :: qs => offset :: cumulative (offset + q) qs

/-- `cu_seqlens_q`: sequence `i` owns the tokens from entry `i` to entry `i + 1`. -/
def buildQueryStartLoc (queryLens : List ℕ) : List ℕ := cumulative 0 queryLens

/-- `max(xs, default=0)`. -/
def maximum (xs : List ℕ) : ℕ := xs.foldr max 0

/-- Stack block tables into one tensor, padded to the widest row, or to
`maxBlocks` when that is given. -/
def padBlockTables (rows : List (List BlockId)) (maxBlocks : Option ℕ) :
    Except Fault (List (List ℤ)) :=
  let widest := maximum (rows.map List.length)
  let pad := fun width => rows.map fun row =>
    row.map Int.ofNat ++ List.replicate (width - row.length) padBlock
  match maxBlocks with
  | none => .ok (pad widest)
  | some width =>
      if width < widest then .error (.narrowTable width widest) else .ok (pad width)

/-- Turn a step into metadata. `requestIdOf` names the sequence in an error. -/
def SchedulerOutput.buildAttnMetadata (out : SchedulerOutput)
    (requestIdOf : SeqId → String) (blockSize : ℕ) (maxBlocks : Option ℕ) :
    Except Fault AttnMetadata :=
  if out.scheduled = [] then .error .emptyStep
  else if blockSize < 1 then .error (.badBlockSize blockSize)
  else
    match out.scheduled.find? fun item =>
        decide (item.blockTable.length * blockSize < item.contextLen) with
    | some item => .error (.shortBlockTable (requestIdOf item.seq) item.contextLen
        item.blockTable.length blockSize)
    | none => do
        let tables ← padBlockTables (out.scheduled.map (·.blockTable)) maxBlocks
        let queryLens := out.scheduled.map (·.numNewTokens)
        let contextLens := out.scheduled.map (·.contextLen)
        return { slotMapping := out.scheduled.flatMap (·.slotMapping),
                 blockTables := tables, contextLens := contextLens,
                 queryStartLoc := buildQueryStartLoc queryLens,
                 maxQueryLen := maximum queryLens,
                 maxContextLen := maximum contextLens,
                 numPrefillSeqs := out.numPrefillSeqs,
                 numDecodeSeqs := out.numDecodeSeqs }

namespace AttnMetadata

variable (m : AttnMetadata)

def numSeqs : ℕ := m.numPrefillSeqs + m.numDecodeSeqs

def numTokens : ℕ := m.slotMapping.length

/-- Whether the paged-decode kernel may be used. -/
def isDecodeOnly : Bool :=
  decide (m.numPrefillSeqs = 0 ∧ 0 < m.numDecodeSeqs ∧ m.maxQueryLen = 1)

/-- `[b - a for a, b in zip(locs[:-1], locs[1:])]`. -/
def queryLens : List ℕ :=
  List.zipWith (fun a b => b - a) m.queryStartLoc m.queryStartLoc.tail

/-- Whether some entry of `locs` is followed by a smaller one. -/
def decreases : List ℕ → Bool
  | a :: b :: locs => decide (b < a) || decreases (b :: locs)
  | _ => false

/-- The last loop of `validate`: one sequence's lengths and block row. -/
def validateSeq (blockSize : Option ℕ) (index contextLen queryLen : ℕ) :
    Except Fault Unit :=
  if contextLen < queryLen then
    .error (.contextShorter index contextLen queryLen)
  else
    match blockSize with
    | none => .ok ()
    | some bs =>
        let needed := contextLen ⌈/⌉ bs
        let row := m.blockTables[index]?.getD []
        let valid := (row.take needed).filter fun b => decide (b ≠ padBlock)
        if valid.length ≠ needed then
          .error (.missingBlocks index needed contextLen valid.length)
        else .ok ()

/-- Raise if a documented invariant is violated. -/
def validate (blockSize : Option ℕ) : Except Fault Unit :=
  if m.blockTables.length ≠ m.numSeqs then
    .error (.tableRows m.blockTables.length m.numSeqs)
  else if m.contextLens.length ≠ m.numSeqs then
    .error (.contextEntries m.contextLens.length m.numSeqs)
  else if m.queryStartLoc.length ≠ m.numSeqs + 1 then
    .error (.locEntries (m.numSeqs + 1) m.queryStartLoc.length)
  else if m.queryStartLoc.headD 0 ≠ 0 then
    .error (.locsStart (m.queryStartLoc.headD 0))
  else if decreases m.queryStartLoc then .error .locsDecreasing
  else if m.queryStartLoc.getLastD 0 ≠ m.numTokens then
    .error (.locsEnd (m.queryStartLoc.getLastD 0) m.numTokens)
  else if m.queryLens ≠ [] ∧ maximum m.queryLens ≠ m.maxQueryLen then
    .error (.maxQueryLenDisagrees m.maxQueryLen (maximum m.queryLens))
  else if m.contextLens ≠ [] ∧ maximum m.contextLens ≠ m.maxContextLen then
    .error (.maxContextLenDisagrees m.maxContextLen (maximum m.contextLens))
  else
    ((m.contextLens.zip m.queryLens).zipIdx).forM fun p =>
      m.validateSeq blockSize p.2 p.1.1 p.1.2

end AttnMetadata

end TurboServe.Core
