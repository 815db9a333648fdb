import TurboServe.Lib.Fallible
import TurboServe.Model.DecodeKernel

/-!
# The decode kernel is softmax attention

Over an ordered field with an exponential, the block-by-block loop of the decode kernel
gives every query head the softmax-weighted mean of the values its block table reaches,
which is what the reference computes for one query.
-/

namespace TurboServe.Model

open TurboServe.Core Lib

variable {K : Type} [Field K] [LinearOrder K]

/-! ## §1  Softmax attention -/

/-- The key or value of position `j` of a sequence, through its block table. -/
def reached (cache : View K) (tables : View ℤ) (blockSize seq kvHead j d : ℕ) : K :=
  cache.at4 (tables.at2 seq (j / blockSize : ℕ)) (j % blockSize : ℕ) kvHead d

/-- The scaled scores of a sequence's positions. -/
def score (q kCache : View K) (tables : View ℤ) (scale : K) (seq head kvHead j : ℕ) : K :=
  (∑ e ∈ Finset.range (q.size 2),
    q.at3 seq head e * reached kCache tables (kCache.size 1) seq kvHead j e) * scale

/-- `sum_j exp(s_j) v_j / sum_j exp(s_j)` over the positions of the context. -/
def softmaxAttention (E : Exponential K) (q kCache vCache : View K) (tables : View ℤ) (scale : K)
    (group ctx seq head d : ℕ) : K :=
  let s j := score q kCache tables scale seq head (head / group) j
  (∑ j ∈ Finset.range ctx,
      E.exp (s j) * reached vCache tables (kCache.size 1) seq (head / group) j d) /
    ∑ j ∈ Finset.range ctx, E.exp (s j)

variable {E : Exponential K}

theorem sum_exp_ne_zero [IsStrictOrderedRing K] {n : ℕ} (hn : 1 ≤ n) (s : ℕ → K) :
    ∑ j ∈ Finset.range n, E.exp (s j) ≠ 0 :=
  (Finset.sum_pos (fun j _ => E.exp_pos (s j)) ⟨0, Finset.mem_range.mpr hn⟩).ne'

/-! ## §2  One lane -/

section Lane

variable {k v : View K} {tables : View ℤ} {headDim block blockSize seq kvHead ctx : ℕ}
  {q : ℕ → K}

omit [LinearOrder K] in
/-- A lane inside the context reads the entry of its position. -/
theorem blockEntry_valid {cache : View K} {b i d : ℕ} (hi : i < blockSize) (hd : d < headDim)
    (hvalid : validLane blockSize ctx b i) :
    blockEntry cache tables headDim blockSize seq kvHead ctx b i d =
      reached cache tables blockSize seq kvHead (b * blockSize + i) d := by
  unfold blockEntry reached
  rw [load, if_pos ⟨hvalid, hd⟩, row_of_address hi, col_of_address hi]
  rfl

/-- A lane weighs as its position does, and nothing behind the context. -/
theorem exp_blockScore (E : Exponential K) (hdim : headDim ≤ block) {b i : ℕ}
    (hi : i < blockSize) :
    E.exp (blockScore k tables headDim block blockSize seq kvHead ctx q b i) =
      if validLane blockSize ctx b i then E.exp (∑ e ∈ Finset.range headDim,
        q e * reached k tables blockSize seq kvHead (b * blockSize + i) e : K) else 0 := by
  unfold blockScore
  by_cases hvalid : validLane blockSize ctx b i
  · rw [if_pos hvalid, if_pos hvalid, ← sum_lanes hdim]
    refine congrArg (fun x : K => E.exp x) (Finset.sum_congr rfl fun d _ => ?_)
    by_cases hd : d < headDim
    · rw [if_pos hd, blockEntry_valid hi hd hvalid]
    · unfold blockEntry
      rw [if_neg hd, load, if_neg fun h => hd h.2, mul_zero]
  · rw [if_neg hvalid, if_neg hvalid, E.exp_bot]

omit [LinearOrder K] in
/-- Sums over blocks whose last is masked are sums over the context. -/
theorem sum_blocks (hbs : 0 < blockSize) (f : ℕ → K) :
    ((List.range (ctx ⌈/⌉ blockSize)).map fun b => ∑ i ∈ Finset.range blockSize,
      if validLane blockSize ctx b i then f (b * blockSize + i) else 0).sum =
      ∑ j ∈ Finset.range ctx, f j := by
  have htiles := sum_tiles hbs ctx f
  unfold tiles at htiles
  rw [List.map_map] at htiles
  exact htiles

variable (k v tables seq kvHead q) in
/-- The loop ends with a state that stands for the softmax sums over the whole context. -/
theorem decodeLane_tracks (E : Exponential K) (hbs : 0 < blockSize) (hctx : 1 ≤ ctx)
    (hdim : headDim ≤ block) :
    let s j := ∑ e ∈ Finset.range headDim, q e * reached k tables blockSize seq kvHead j e
    ∃ r, decodeLane E k v tables headDim block blockSize seq kvHead ctx q = some r ∧
      r.max ≠ ⊥ ∧
      r.denominator * E.exp r.max = ∑ j ∈ Finset.range ctx, E.exp (s j) ∧
      ∀ d < headDim, r.accumulator d * E.exp r.max =
        ∑ j ∈ Finset.range ctx, E.exp (s j) * reached v tables blockSize seq kvHead j d := by
  intro s
  have hblocks : 1 ≤ ctx ⌈/⌉ blockSize := by
    by_contra hle
    have hzero : ctx ⌈/⌉ blockSize ≤ 0 := by omega
    rw [ceilDiv_le_iff_le_smul hbs, smul_zero] at hzero
    omega
  -- the first lane of every block is inside the context
  have hfirst : ∀ b < ctx ⌈/⌉ blockSize, validLane blockSize ctx b 0 := by
    intro b hb
    by_contra hle
    have hceil : ctx ⌈/⌉ blockSize ≤ b := by
      rw [ceilDiv_le_iff_le_smul hbs, smul_eq_mul, Nat.mul_comm]
      exact Nat.le_of_not_lt hle
    omega
  obtain ⟨r, hr, hmax, htracks⟩ := Running.tracks_blocks E blockSize
    (blockScore k tables headDim block blockSize seq kvHead ctx q)
    (blockEntry v tables headDim blockSize seq kvHead ctx) hblocks fun b hb =>
      ⟨0, hbs, by
        unfold blockScore
        rw [if_pos (hfirst b hb)]
        exact WithBot.coe_ne_bot⟩
  refine ⟨r, hr, hmax, ?_, fun d hd => ?_⟩
  · rw [htracks.denominator, ← sum_blocks hbs]
    refine congrArg List.sum (List.map_congr_left fun b _ => Finset.sum_congr rfl fun i hi => ?_)
    exact exp_blockScore E hdim (Finset.mem_range.mp hi)
  · rw [htracks.accumulator, ← sum_blocks hbs]
    refine congrArg List.sum (List.map_congr_left fun b _ => Finset.sum_congr rfl fun i hi => ?_)
    have hi := Finset.mem_range.mp hi
    rw [exp_blockScore E hdim hi]
    by_cases hvalid : validLane blockSize ctx b i
    · rw [if_pos hvalid, if_pos hvalid, blockEntry_valid hi hd hvalid]
    · rw [if_neg hvalid, if_neg hvalid, zero_mul]

end Lane

/-! ## §3  The launch -/

section Launch

variable {q kCache vCache : View K} {tables : View ℤ} {ctxs : ℕ → ℕ} {scale : K} {group : ℕ}

/-- What the program of a KV head stores for one of its query heads. -/
theorem program_lane [IsStrictOrderedRing K] (E : Exponential K) (hbs : 0 < kCache.size 1)
    {seq kvHead g d : ℕ} (hctx : 1 ≤ ctxs seq) (hg : g < group) (hd : d < q.size 2) :
    (decodeLane E kCache vCache tables (q.size 2) (nextPow2 (q.size 2)) (kCache.size 1) seq
      kvHead (ctxs seq) (fun e => load q.storage
        (seq * q.stride 0 + (kvHead * group + g : ℕ) * q.stride 1 + e * q.stride 2)
        (g < group ∧ e < q.size 2) 0 * scale)).bind (·.quotient d) =
      some (softmaxAttention E q kCache vCache tables scale group (ctxs seq) seq
        (kvHead * group + g) d) := by
  obtain ⟨r, hr, hmax, hden, hacc⟩ := decodeLane_tracks kCache vCache tables seq kvHead
    (fun e => load q.storage
      (seq * q.stride 0 + (kvHead * group + g : ℕ) * q.stride 1 + e * q.stride 2)
      (g < group ∧ e < q.size 2) 0 * scale) E hbs hctx (le_nextPow2 (q.size 2))
  have hhead : (kvHead * group + g) / group = kvHead := row_of_address hg
  -- the kernel scales the query, not the product
  have hscore : ∀ j, ∑ e ∈ Finset.range (q.size 2), (load q.storage
      (seq * q.stride 0 + (kvHead * group + g : ℕ) * q.stride 1 + e * q.stride 2)
      (g < group ∧ e < q.size 2) 0 * scale) *
        reached kCache tables (kCache.size 1) seq kvHead j e =
      score q kCache tables scale seq (kvHead * group + g) kvHead j := by
    intro j
    unfold score
    rw [Finset.sum_mul]
    refine Finset.sum_congr rfl fun e he => ?_
    rw [load, if_pos ⟨hg, Finset.mem_range.mp he⟩, mul_right_comm]
    rfl
  simp only [hscore] at hden hacc
  rw [hr, Option.bind_some]
  have htracks : Running.Tracks E r (r.denominator * E.exp r.max)
      fun d => r.accumulator d * E.exp r.max := ⟨rfl, fun _ => rfl⟩
  rw [htracks.quotient hmax (by rw [hden]; exact sum_exp_ne_zero hctx _) d, hden, hacc d hd]
  unfold softmaxAttention
  rw [hhead]

/-- The address of an entry of the result. -/
def outAddress (stride : ℕ → ℕ) (seq head d : ℕ) : ℤ :=
  (seq * stride 0 + head * stride 1 + d * stride 2 : ℕ)

theorem head_lt {kvHead g heads : ℕ} (hkv : kvHead < heads) (hg : g < group) :
    kvHead * group + g < heads * group := by
  have hle : (kvHead + 1) * group ≤ heads * group := Nat.mul_le_mul_right group hkv
  rw [Nat.succ_mul] at hle
  omega

variable {layout : Layout (q.size 0) (q.size 1) (q.size 2)}

/-- A query head's lane of the program of its KV head. -/
def lane (E : Exponential K) (q kCache vCache : View K) (tables : View ℤ) (ctxs : ℕ → ℕ)
    (scale : K) (group seq kvHead g : ℕ) : Option (Running K ℕ) :=
  decodeLane E kCache vCache tables (q.size 2) (nextPow2 (q.size 2)) (kCache.size 1) seq kvHead
    (ctxs seq) fun e => load q.storage
      (seq * q.stride 0 + (kvHead * group + g : ℕ) * q.stride 1 + e * q.stride 2)
      (g < group ∧ e < q.size 2) 0 * scale

variable (vCache tables ctxs scale layout) in
/-- One program writes the quotients of its lanes, whatever the memory holds. -/
theorem program_stores (E : Exponential K) (hheads : q.size 1 = kCache.size 2 * group)
    {seq kvHead g d : ℕ} (hseq : seq < q.size 0) (hkv : kvHead < kCache.size 2) (hg : g < group)
    (hd : d < q.size 2) (m : ℤ → Option K) :
    pagedDecodeKernel E q kCache vCache layout.stride tables ctxs scale group (nextPow2 group)
      (q.size 2) (nextPow2 (q.size 2)) (kCache.size 1) (seq, kvHead) m
      (outAddress layout.stride seq (kvHead * group + g) d) =
      (lane E q kCache vCache tables ctxs scale group seq kvHead g).bind (·.quotient d) := by
  have hmem : (g, d) ∈ List.range (nextPow2 group) ×ˢ List.range (nextPow2 (q.size 2)) :=
    List.mem_product.mpr ⟨List.mem_range.mpr (hg.trans_le (le_nextPow2 group)),
      List.mem_range.mpr (hd.trans_le (le_nextPow2 _))⟩
  refine store_of_mem
    (fun p : ℕ × ℕ => outAddress layout.stride seq (kvHead * group + p.1) p.2)
    (fun p => p.1 < group ∧ p.2 < q.size 2)
    (fun p => (lane E q kCache vCache tables ctxs scale group seq kvHead p.1).bind
      (·.quotient p.2)) _ m hmem ⟨hg, hd⟩ ?_
  rintro ⟨g', d'⟩ - ⟨hg', hd'⟩ heq
  obtain ⟨-, hhead, hdim⟩ := layout.inj seq hseq _ (hheads ▸ head_lt hkv hg') d' hd' seq hseq
    _ (hheads ▸ head_lt hkv hg) d hd (Int.ofNat.inj heq)
  exact Prod.ext (Nat.add_left_cancel hhead) hdim

/-- The entries one program writes. -/
def written (stride : ℕ → ℕ) (group headDim : ℕ) (p : ℕ × ℕ) : Set ℤ :=
  {a | ∃ g < group, ∃ d < headDim, a = outAddress stride p.1 (p.2 * group + g) d}

variable (vCache tables ctxs scale layout) in
theorem program_footprint (E : Exponential K) (hheads : q.size 1 = kCache.size 2 * group) :
    let kernel := pagedDecodeKernel E q kCache vCache layout.stride tables ctxs scale group
      (nextPow2 group) (q.size 2) (nextPow2 (q.size 2)) (kCache.size 1)
    Footprint (decodeGrid (q.size 0) (kCache.size 2)) kernel
      (written layout.stride group (q.size 2)) fun p a _ => kernel p (fun _ => none) a := by
  intro kernel
  constructor
  · rintro ⟨seq, kvHead⟩ hp m _ ⟨g, hg, d, hd, rfl⟩
    obtain ⟨hseq, hkv⟩ := List.mem_product.mp hp
    have hstores := program_stores vCache tables ctxs scale layout E hheads
      (List.mem_range.mp hseq)
      (List.mem_range.mp hkv) hg hd
    exact (hstores m).trans (hstores fun _ => none).symm
  · rintro ⟨seq, kvHead⟩ - m a ha
    exact store_of_not_mem _ _ _ _ _ fun p _ hmask heq => ha ⟨p.1, hmask.1, p.2, hmask.2, heq.symm⟩

variable (vCache tables ctxs scale layout) in
/-- The launched kernel leaves softmax attention in every query head's row. -/
theorem decode_launched [IsStrictOrderedRing K] (E : Exponential K) (hbs : 0 < kCache.size 1)
    (hheads : q.size 1 = kCache.size 2 * group)
    (s : Schedule (decodeGrid (q.size 0) (kCache.size 2))) (garbage : ℤ → Option K)
    {seq head d : ℕ} (hseq : seq < q.size 0) (hctx : 1 ≤ ctxs seq) (hhead : head < q.size 1)
    (hd : d < q.size 2) :
    launch (pagedDecodeKernel E q kCache vCache layout.stride tables ctxs scale group
      (nextPow2 group) (q.size 2) (nextPow2 (q.size 2)) (kCache.size 1)) s.order garbage
      (outAddress layout.stride seq head d) =
      some (softmaxAttention E q kCache vCache tables scale group (ctxs seq) seq head d) := by
  have hgroup : 0 < group := by
    rw [hheads] at hhead
    exact Nat.pos_of_mul_pos_left (Nat.zero_lt_of_lt hhead)
  have hkv : head / group < kCache.size 2 :=
    (Nat.div_lt_iff_lt_mul hgroup).mpr (hheads ▸ hhead)
  have hg : head % group < group := Nat.mod_lt head hgroup
  have hsplit : head / group * group + head % group = head := Nat.div_add_mod' head group
  have hnd : (decodeGrid (q.size 0) (kCache.size 2)).Nodup :=
    List.nodup_range.product List.nodup_range
  have hprogram : (seq, head / group) ∈ decodeGrid (q.size 0) (kCache.size 2) :=
    List.mem_product.mpr ⟨List.mem_range.mpr hseq, List.mem_range.mpr hkv⟩
  have hwritten : outAddress layout.stride seq head d ∈
      written layout.stride group (q.size 2) (seq, head / group) :=
    ⟨head % group, hg, d, hd, by rw [hsplit]⟩
  -- no other program's rows or heads
  have howner : ∀ p ∈ decodeGrid (q.size 0) (kCache.size 2), outAddress layout.stride seq head d ∈
      written layout.stride group (q.size 2) p → p = (seq, head / group) := by
    rintro ⟨seq', kvHead'⟩ hp ⟨g', hg', d', hd', heq⟩
    obtain ⟨hseq', hkv'⟩ := List.mem_product.mp hp
    obtain ⟨rfl, rfl, -⟩ := layout.inj seq hseq head hhead d hd seq' (List.mem_range.mp hseq') _
      (hheads ▸ head_lt (List.mem_range.mp hkv') hg') d' hd' (Int.ofNat.inj heq)
    rw [row_of_address hg']
  rw [(program_footprint vCache tables ctxs scale layout E hheads).writes_in_any_order hnd s
      garbage hprogram hwritten howner]
  have hstores := program_stores vCache tables ctxs scale layout E hheads hseq hkv hg hd
    fun _ => none
  rw [hsplit] at hstores
  refine hstores.trans ((program_lane E hbs hctx hg hd).trans ?_)
  rw [hsplit]

end Launch

/-! ## §4  The reference -/

section Reference

variable {q kCache vCache : View K} {m : AttnMetadata} {tables : View ℤ} {scale : K}
  {group : ℕ}

/-- The device's tensor holds the rows of the batch's block tables. -/
def Holds (tables : View ℤ) (rows : List (List ℤ)) : Prop :=
  ∀ i < rows.length, ∀ j < (rows.getD i []).length, tables.at2 i j = (rows.getD i []).getD j 0

theorem trimRow_ok {blockSize seq : ℕ} {row : List ℤ}
    (h : BatchPlan.trimRow m blockSize seq = .ok row) :
    row = (m.blockTables.getD seq []).take (m.contextLens.getD seq 0 ⌈/⌉ blockSize) ∧
      row.length = m.contextLens.getD seq 0 ⌈/⌉ blockSize := by
  unfold BatchPlan.trimRow at h
  by_cases hbad : ((m.blockTables.getD seq []).take
      (m.contextLens.getD seq 0 ⌈/⌉ blockSize)).length ≠ m.contextLens.getD seq 0 ⌈/⌉ blockSize ∨
      padBlock ∈ (m.blockTables.getD seq []).take (m.contextLens.getD seq 0 ⌈/⌉ blockSize)
  · simp only [if_pos hbad] at h
    cases h
  · simp only [if_neg hbad] at h
    rw [not_or, not_not] at hbad
    obtain rfl := Except.ok.inj h
    exact ⟨rfl, hbad.1⟩

/-- The plan's row of a sequence names the blocks the device reads. -/
theorem plan_row {blockSize : ℕ} {plan : BatchPlan}
    (h : BatchPlan.fromMetadata m blockSize = .ok plan) (hbs : 0 < blockSize)
    (htables : Holds tables m.blockTables) :
    plan.queryOffsets = m.queryStartLoc ∧ plan.contextLens = m.contextLens ∧
      m.queryStartLoc.length = m.contextLens.length + 1 ∧
      ∀ seq < m.contextLens.length, ∀ j < m.contextLens.getD seq 0,
        (plan.blockIds.getD seq []).getD (j / blockSize) 0 =
          tables.at2 seq (j / blockSize : ℕ) := by
  unfold BatchPlan.fromMetadata at h
  by_cases hoffsets : m.queryStartLoc.length ≠ m.contextLens.length + 1
  · rw [if_pos hoffsets] at h
    cases h
  by_cases hrows : m.blockTables.length ≠ m.contextLens.length
  · rw [if_neg hoffsets, if_pos hrows] at h
    cases h
  rw [if_neg hoffsets, if_neg hrows] at h
  cases hmap : (List.range m.contextLens.length).mapM (BatchPlan.trimRow m blockSize) with
  | error e =>
      rw [hmap] at h
      cases h
  | ok ids =>
      rw [hmap] at h
      obtain rfl := Except.ok.inj h
      refine ⟨rfl, rfl, not_not.mp hoffsets, fun seq hseq j hj => ?_⟩
      have hall := mapM_ok_iff.mp hmap
      have hlen : m.contextLens.length = ids.length := List.length_range.symm.trans hall.length_eq
      have hrow := hall.get (i := seq) (by rw [List.length_range]; exact hseq) (hlen ▸ hseq)
      rw [List.get_eq_getElem, List.getElem_range, List.get_eq_getElem] at hrow
      obtain ⟨htake, hneeded⟩ := trimRow_ok hrow
      have hblock : j / blockSize < m.contextLens.getD seq 0 ⌈/⌉ blockSize := by
        rw [Nat.div_lt_iff_lt_mul hbs]
        have hcover := le_smul_ceilDiv (b := m.contextLens.getD seq 0) hbs
        rw [smul_eq_mul, Nat.mul_comm] at hcover
        omega
      have hlong : m.contextLens.getD seq 0 ⌈/⌉ blockSize ≤ (m.blockTables.getD seq []).length := by
        rw [← hneeded, htake]
        exact List.length_take_le' ..
      dsimp only
      rw [htables seq (by omega) _ (by omega), List.getD_eq_getElem ids [] (hlen ▸ hseq), htake,
        List.getD_eq_getElem?_getD, List.getElem?_take_of_lt hblock, ← List.getD_eq_getElem?_getD]

omit [Field K] [LinearOrder K] in
theorem gather_ok {cache : View K} {ids : List ℤ} {keys : ℕ → ℕ → ℕ → K}
    (h : gatherSequenceKv cache ids = .ok keys) :
    keys = fun p (h d : ℕ) =>
      cache.at4 (ids.getD (p / cache.size 1) 0) (p % cache.size 1 : ℕ) h d := by
  unfold gatherSequenceKv at h
  split at h
  · cases h
  · exact (Except.ok.inj h).symm

/-- With nothing masked, a row of the attention product is a quotient of two sums. -/
theorem scaledDotProduct_eq (E : Exponential K) (scale : K) (headDim n : ℕ) (x : ℕ → K)
    (keys values : ℕ → ℕ → K) {mask : ℕ → Bool} (hmask : ∀ i < n, mask i = true) (d : ℕ) :
    scaledDotProduct E scale headDim n x keys values mask d =
      (∑ i ∈ Finset.range n,
        E.exp ((∑ e ∈ Finset.range headDim, x e * keys i e) * scale : K) * values i d) /
        ∑ i ∈ Finset.range n, E.exp ((∑ e ∈ Finset.range headDim, x e * keys i e) * scale : K) := by
  have hscore : ∀ i ∈ Finset.range n, E.exp (if mask i then
      ((∑ e ∈ Finset.range headDim, x e * keys i e) * scale : K) else ⊥) =
      E.exp ((∑ e ∈ Finset.range headDim, x e * keys i e) * scale : K) := by
    intro i hi
    rw [if_pos (hmask i (Finset.mem_range.mp hi))]
  unfold scaledDotProduct
  dsimp only
  rw [Finset.sum_congr rfl hscore, Finset.sum_div]
  refine Finset.sum_congr rfl fun i hi => ?_
  rw [hscore i hi, div_mul_eq_mul_div]

/-- One query of a sequence: its row is written, and the others are kept. -/
theorem attendSequence_one (E : Exponential K) {plan : BatchPlan}
    (hplan : BatchPlan.fromMetadata m (kCache.size 1) = .ok plan) (hbs : 0 < kCache.size 1)
    (hsame : vCache.size 1 = kCache.size 1) (htables : Holds tables m.blockTables)
    (hheads : q.size 1 = kCache.size 2 * group) {n : ℕ}
    (hone : m.queryStartLoc = List.range (n + 1))
    {seq : ℕ} (hseq : seq < n) (hctxs : seq < m.contextLens.length)
    {out out' : ℕ → ℕ → ℕ → Option K}
    (h : attendSequence E q kCache vCache plan scale out seq = .ok out') :
    (∀ t, t ≠ seq → out' t = out t) ∧
      ∀ head < q.size 1, ∀ d, out' seq head d = some (softmaxAttention E q kCache vCache tables
        scale group (m.contextLens.getD seq 0) seq head d) := by
  obtain ⟨hoffsets, hcontexts, -, hids⟩ := plan_row hplan hbs htables
  have hstart : plan.queryOffsets.getD seq 0 = seq := by
    rw [hoffsets, hone, List.getD_eq_getElem _ _ (by rw [List.length_range]; omega),
      List.getElem_range]
  have hstop : plan.queryOffsets.getD (seq + 1) 0 = seq + 1 := by
    rw [hoffsets, hone, List.getD_eq_getElem _ _ (by rw [List.length_range]; omega),
      List.getElem_range]
  unfold attendSequence at h
  simp only [hstart, hstop, Nat.add_sub_cancel_left, hcontexts] at h
  rw [if_neg Nat.one_ne_zero] at h
  by_cases hshort : m.contextLens.getD seq 0 < 1
  · rw [if_pos hshort] at h
    cases h
  rw [if_neg hshort] at h
  cases hkeys : gatherSequenceKv kCache (plan.blockIds.getD seq []) with
  | error e =>
      rw [hkeys] at h
      cases h
  | ok keys =>
      cases hvalues : gatherSequenceKv vCache (plan.blockIds.getD seq []) with
      | error e =>
          rw [hkeys, hvalues] at h
          cases h
      | ok values =>
          rw [hkeys, hvalues] at h
          obtain rfl := Except.ok.inj h
          constructor
          · intro t ht
            funext head d
            exact if_neg (by omega)
          · intro head hhead d
            have hgroup : q.size 1 / kCache.size 2 = group := by
              rw [hheads] at hhead ⊢
              exact Nat.mul_div_cancel_left _ (Nat.pos_of_mul_pos_right (Nat.zero_lt_of_lt hhead))
            -- the last query may attend to the whole context
            have hmask : ∀ i < m.contextLens.getD seq 0,
                causalBlockMask 1 (m.contextLens.getD seq 0) (seq - seq) i = true := fun i hi =>
              decide_eq_true (by omega)
            dsimp only
            rw [if_pos (by omega), scaledDotProduct_eq E _ _ _ _ _ _ hmask, hgroup]
            have hscore : ∀ j ∈ Finset.range (m.contextLens.getD seq 0),
                (∑ e ∈ Finset.range (q.size 2), q.at3 seq head e * keys j (head / group) e) *
                  scale = score q kCache tables scale seq head (head / group) j := by
              intro j hj
              rw [gather_ok hkeys]
              simp only [hids seq hctxs j (Finset.mem_range.mp hj)]
              rfl
            have hvalue : ∀ j ∈ Finset.range (m.contextLens.getD seq 0),
                values j (head / group) d =
                  reached vCache tables (kCache.size 1) seq (head / group) j d := by
              intro j hj
              rw [gather_ok hvalues, hsame]
              simp only [hids seq hctxs j (Finset.mem_range.mp hj)]
              rfl
            refine congrArg some (congrArg₂ (· / ·) (Finset.sum_congr rfl fun j hj => ?_)
              (Finset.sum_congr rfl fun j hj => ?_))
            · rw [hscore j hj, hvalue j hj]
            · rw [hscore j hj]

/-- The reference on a batch of single queries. -/
theorem reference_rows (E : Exponential K) (hbs : 0 < kCache.size 1)
    (hsame : vCache.size 1 = kCache.size 1) (htables : Holds tables m.blockTables)
    (hheads : q.size 1 = kCache.size 2 * group) {n : ℕ}
    (hone : m.queryStartLoc = List.range (n + 1)) {ref : ℕ → ℕ → ℕ → Option K}
    (h : pagedAttentionReference E q kCache vCache m scale none = .ok ref) :
    ∀ seq < n, ∀ head < q.size 1, ∀ d, ref seq head d = some (softmaxAttention E q kCache vCache
      tables scale group (m.contextLens.getD seq 0) seq head d) := by
  unfold pagedAttentionReference at h
  by_cases hmod : q.size 1 % kCache.size 2 ≠ 0
  · rw [if_pos hmod] at h
    cases h
  rw [if_neg hmod, Option.elim_none] at h
  cases hplan : BatchPlan.fromMetadata m (kCache.size 1) with
  | error e =>
      rw [hplan] at h
      cases h
  | ok plan =>
      rw [hplan] at h
      dsimp only at h
      obtain ⟨-, hcontexts, hlen, -⟩ := plan_row hplan hbs htables
      have hn : m.contextLens.length = n := by
        rw [hone, List.length_range] at hlen
        exact (Nat.succ.inj hlen).symm
      have hseqs : plan.numSeqs = n := by
        rw [BatchPlan.numSeqs, hcontexts, hn]
      rw [hseqs] at h
      -- the sequences attended so far have their rows
      have hrows : ∀ c ≤ n, ∀ out, (List.range c).foldlM
          (attendSequence E q kCache vCache plan scale) (fun _ _ _ => none) = .ok out →
          ∀ seq < c, ∀ head < q.size 1, ∀ d, out seq head d = some (softmaxAttention E q kCache
            vCache tables scale group (m.contextLens.getD seq 0) seq head d) := by
        intro c
        induction c with
        | zero => exact fun _ _ _ seq hseq => absurd hseq (Nat.not_lt_zero seq)
        | succ c ih =>
            intro hc out hout seq hseq head hhead d
            rw [List.range_succ, List.foldlM_append] at hout
            obtain ⟨mid, hmid, hlast⟩ := bind_ok_iff.mp hout
            rw [List.foldlM_cons] at hlast
            obtain ⟨out', hout', hpure⟩ := bind_ok_iff.mp hlast
            obtain rfl := Except.ok.inj hpure
            obtain ⟨hkept, hnew⟩ := attendSequence_one E hplan hbs hsame htables hheads hone
              (Nat.lt_of_succ_le hc) (by omega) hout'
            rcases Nat.lt_succ_iff_lt_or_eq.mp hseq with hlt | rfl
            · rw [hkept seq (by omega)]
              exact ih (by omega) mid hmid seq hlt head hhead d
            · exact hnew head hhead d
      exact hrows n (Nat.le_refl n) ref h

end Reference

/-! ## §5  The kernel and the reference -/

/-- The decode kernel, its programs run in any order, returns for every query head of every
sequence with a context the softmax-weighted mean of the values its block table reaches; on
a batch of single queries that is what the reference returns. -/
theorem decode_eq_softmax [IsStrictOrderedRing K] (E : Exponential K) (d : Device)
    (q kCache vCache : View K) (m : AttnMetadata) (tables : View ℤ) (scale : K) (group : ℕ)
    (layout : Layout (q.size 0) (q.size 1) (q.size 2)) (garbage : ℤ → Option K)
    (order : Schedule (decodeGrid (q.size 0) (kCache.size 2))) (hd : d.tritonAvailable = true)
    (hheads : q.size 1 = kCache.size 2 * group) (hseqs : m.numSeqs = q.size 0)
    (hbs : 0 < kCache.size 1) :
    ∃ out, pagedAttentionDecodeTriton E d q kCache vCache m tables scale group layout garbage
        order = .ok out ∧
      ∀ seq < q.size 0, 1 ≤ m.contextLens.getD seq 0 → ∀ head < q.size 1, ∀ i < q.size 2,
        out.at3 seq head i = some (softmaxAttention E q kCache vCache tables scale group
          (m.contextLens.getD seq 0) seq head i) ∧
        ∀ ref, Holds tables m.blockTables → vCache.size 1 = kCache.size 1 →
          m.queryStartLoc = List.range (q.size 0 + 1) →
          pagedAttentionReference E q kCache vCache m scale none = .ok ref →
          ref seq head i = out.at3 seq head i := by
  unfold pagedAttentionDecodeTriton
  rw [if_neg (by rw [hd]; exact Bool.false_ne_true), if_neg (not_not.mpr hheads),
    if_neg (not_not.mpr hseqs)]
  refine ⟨_, rfl, fun seq hseq hctx head hhead i hi => ?_⟩
  have hlaunched := decode_launched vCache tables (fun seq => m.contextLens.getD seq 0) scale
    layout E hbs hheads order garbage hseq hctx hhead hi
  unfold outAddress at hlaunched
  push_cast at hlaunched
  refine ⟨hlaunched, fun ref htables hsame hone href => ?_⟩
  exact (reference_rows E hbs hsame htables hheads hone href seq hseq head hhead i).trans
    hlaunched.symm

/-- One decoding sequence of three tokens in blocks of two. -/
def oneQuery : AttnMetadata :=
  { slotMapping := [0], blockTables := [[1, 0]], contextLens := [3], queryStartLoc := [0, 1],
    maxQueryLen := 1, maxContextLen := 3, numPrefillSeqs := 0, numDecodeSeqs := 1 }

/-- Two query heads of one dimension. -/
def twoHeads : View ℝ := ⟨([1, 2, 1].getD · 0), ([2, 1, 1].getD · 0), fun a => a⟩

/-- Two blocks of two slots, with one KV head. -/
def twoBlocks : View ℝ := ⟨([2, 2, 1, 1].getD · 0), ([2, 1, 1, 1].getD · 0), fun a => a⟩

/-- Its block table, on the device. -/
def oneTable : View ℤ := ⟨([1, 2].getD · 0), ([2, 1].getD · 0), fun a => 1 - a⟩

theorem decode_eq_softmax_one :
    ∃ out, pagedAttentionDecodeTriton .real ⟨true, true, true⟩ twoHeads twoBlocks
        twoBlocks oneQuery oneTable 1 2
        (.contiguous 1 2 1) (fun _ => none) .inOrder = .ok out ∧
      ∃ ref, pagedAttentionReference .real twoHeads twoBlocks twoBlocks oneQuery 1
        none = .ok ref ∧ ref 0 1 0 = out.at3 0 1 0 := by
  obtain ⟨out, hout, hrows⟩ := decode_eq_softmax .real ⟨true, true, true⟩ twoHeads
    twoBlocks twoBlocks oneQuery oneTable 1 2
    (.contiguous 1 2 1) (fun _ => none) .inOrder rfl rfl rfl (by decide)
  exact ⟨out, hout, _, rfl, (hrows 0 (by decide) (by decide) 1 (by decide) 0 (by decide)).2 _
    (by unfold Holds; decide) rfl rfl rfl⟩

end TurboServe.Model
