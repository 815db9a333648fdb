import TurboServe.Core.Scheduler

/-!
# The draft model's own pool

`ModelDrafter` of `engine/spec/drafter.py`: each target sequence is shadowed by a mirror with
blocks of the draft pool. A call rewinds the mirrors to what they share with their targets
(`_rewind`), feeds them what they have not seen (`_catch_up`), within the token budget of a
forward pass and the blocks of the pool, and only then drafts.
-/

namespace TurboServe.Spec

open TurboServe.Core

variable {D : Type} [BlockDigest D] [DecidableEq D]

/-! ## §1  Mirrors and rows -/

/-- `_Row`: a sequence's part in a call. `budget` is how many tokens it may still be drafted;
zero retires it. -/
structure Row where
  index : ℕ
  target : Sequence
  mirror : Sequence
  budget : ℕ
  tokens : List TokenId := []

/-- The scan of `_rewind`, from `length` down to `limit`. -/
def rewindScan (cached tokens : List TokenId) (limit : ℕ) : ℕ → ℕ
  | 0 => 0
  | length + 1 =>
      if limit < length + 1 ∧ cached[length]? ≠ tokens[length]? then
        rewindScan cached tokens limit length
      else length + 1

/-- `_rewind`: the mirror takes the target's tokens, and keeps what is computed up to the
last position at which they agree. -/
def rewind (mirror target : Sequence) (maxRollback : ℕ) : Sequence :=
  let tokens := target.tokenIds
  let cached := mirror.tokenIds
  let start := min mirror.numComputedTokens (min (tokens.length - 1) cached.length)
  let limit := start - maxRollback
  let length := rewindScan cached tokens limit start
  let length :=
    if 0 < length ∧ length = limit ∧ cached[length - 1]? ≠ tokens[length - 1]? then 0
    else length
  { mirror with
    numComputedTokens := length, outputTokenIds := tokens.drop mirror.numPromptTokens }

/-- The mirrors are behind their targets: one token is left to query with. -/
def Behind (mirror : Sequence) : Prop := mirror.numComputedTokens < mirror.numTokens

/-! ## §2  Catching up -/

/-- `_blocks_needed` -/
def mirrorBlocks (m : BlockManager D) (mirror : Sequence) (n : ℕ) : ℕ :=
  (mirror.numComputedTokens + n) ⌈/⌉ m.blockSize - mirror.blockTable.length

/-- The inner loop of `_catch_up`, from `want` down: what the free blocks can hold. -/
def fitWant (m : BlockManager D) (mirror : Sequence) (free : ℤ) : ℕ → ℕ
  | 0 => 0
  | want + 1 =>
      if (mirrorBlocks m mirror (want + 1) : ℤ) > free then fitWant m mirror free want
      else want + 1

/-- The tokens a mirror has not seen, but for the last. -/
def Row.backlog (row : Row) : ℕ := row.mirror.numTokens - 1 - row.mirror.numComputedTokens

def Row.pending (row : Row) : Bool :=
  decide (0 < row.budget ∧ row.mirror.numComputedTokens < row.mirror.numTokens - 1)

/-- The rows with the tokens each of them is fed in one pass, none for most: `budget` is what
is left of the token budget, `reserved` the blocks promised so far. A row whose blocks cannot
be served is retired. -/
def planPass (m : BlockManager D) : List Row → ℕ → ℕ → List (Row × ℕ)
  | [], _, _ => []
  | row :: rows, budget, reserved =>
      if row.pending = false ∨ budget = 0 then (row, 0) :: planPass m rows budget reserved
      else
        let want := fitWant m row.mirror (m.allocator.numAllocatable - reserved)
          (min budget row.backlog)
        if want = 0 then ({ row with budget := 0 }, 0) :: planPass m rows budget reserved
        else
          (row, want) ::
            planPass m rows (budget - want) (reserved + mirrorBlocks m row.mirror want)

/-- `_pack`: give each mirror its slots and advance it; the entries in the rows' order. -/
def packPass (m : BlockManager D) :
    List (Row × ℕ) → Except Fault (BlockManager D × List Row × List ScheduledSeq)
  | [] => .ok (m, [], [])
  | (row, 0) :: rest => do
      let out ← packPass m rest
      .ok (out.1, row :: out.2.1, out.2.2)
  | (row, n + 1) :: rest => do
      let start := row.mirror.numComputedTokens
      let stop := start + (n + 1)
      let grown ← m.appendSlots row.mirror (n + 1)
      let mirror ← grown.2.2.advanceComputed (n + 1)
      let isPrefill := decide (start < mirror.numPromptTokens)
      let toks ← mirror.tokensInRange start stop
      let item ← ScheduledSeq.create mirror.seqId (n + 1) stop toks grown.1 mirror.blockTable
        isPrefill (isPrefill && decide (stop < mirror.numPromptTokens)) 0
      let out ← packPass grown.2.1 rest
      .ok (out.1, { row with mirror := mirror } :: out.2.1, item :: out.2.2)

/-- The draft pool, the rows of a call, and the forward passes run for them, prefills first in
each. -/
structure Drafting (D : Type) where
  pool : BlockManager D
  rows : List Row
  forwards : List (List ScheduledSeq)

/-- One pass of `_catch_up`, and whether it goes on. -/
def catchUpPass (maxTokens : ℕ) (s : Drafting D) : Except Fault (Bool × Drafting D) :=
  if s.rows.all (fun row => !row.pending) then .ok (false, s)
  else
    let plan := planPass s.pool s.rows maxTokens 0
    if plan.all (fun p => p.2 == 0) then .ok (false, { s with rows := plan.map (·.1) })
    else do
      let out ← packPass s.pool plan
      let batch := out.2.2.filter (·.isPrefill) ++ out.2.2.filter (!·.isPrefill)
      .ok (true, { pool := out.1, rows := out.2.1, forwards := s.forwards ++ [batch] })

/-- `_catch_up` -/
def catchUp (maxTokens : ℕ) : ℕ → Drafting D → Except Fault (Drafting D)
  | 0, _ => .error .loopFuel
  | fuel + 1, s => do
      let r ← catchUpPass maxTokens s
      if r.1 then catchUp maxTokens fuel r.2 else .ok r.2

end TurboServe.Spec
