import Mathlib.Algebra.BigOperators.Ring.Finset
import TurboServe.Lib.Launch
import TurboServe.Lora.Layers

/-!
# The BGMV kernels

`engine/lora/triton_bgmv.py`: one program per token shrinks its input to the rank of its
slot, one program per token and output tile expands it again and adds it to the base
output. Tensors lie flat in memory; the programs of a launch run in any order. Sums over
the lanes of a tile are exact, and every conversion between dtypes is written out.
-/

namespace TurboServe.Lora

open Lib

/-! ## §1  Flat tensors -/

/-- Stacked matrices, one for each slot. -/
structure Stacked (α : Type) where
  slots : ℕ
  rows : ℕ
  cols : ℕ
  entry : ℕ → ℕ → ℕ → α

section Layout

variable {α : Type}

namespace Tensor

/-- The memory of a contiguous matrix. -/
def flat (t : Tensor α) (a : ℕ) : α := t.entry (a / t.cols) (a % t.cols)

/-- The contiguous matrix in a memory. -/
def ofFlat (rows cols : ℕ) (m : ℕ → α) : Tensor α := ⟨rows, cols, fun i j => m (i * cols + j)⟩

end Tensor

/-- The memory of contiguous stacked matrices. -/
def Stacked.flat (t : Stacked α) (a : ℕ) : α :=
  t.entry (a / (t.rows * t.cols)) (a / t.cols % t.rows) (a % t.cols)

theorem Tensor.flat_apply (t : Tensor α) (i : ℕ) {j : ℕ} (h : j < t.cols) :
    t.flat (i * t.cols + j) = t.entry i j := by
  rw [Tensor.flat, row_of_address h, col_of_address h]

theorem Stacked.flat_apply (t : Stacked α) (s : ℕ) {i j : ℕ} (hi : i < t.rows)
    (hj : j < t.cols) : t.flat (s * (t.rows * t.cols) + i * t.cols + j) = t.entry s i j := by
  have hrow : s * (t.rows * t.cols) + i * t.cols + j = (s * t.rows + i) * t.cols + j := by
    rw [Nat.add_mul, Nat.mul_assoc]
  unfold Stacked.flat
  rw [hrow, col_of_address hj, row_of_address hj, col_of_address hi, Nat.mul_comm t.rows,
    ← Nat.div_div_eq_div_mul, row_of_address hj, row_of_address hi]

end Layout

/-! ## §2  The kernels -/

/-- Largest rank the kernels tile in one pass. -/
def maxBgmvRank : ℕ := 128

/-- What `can_use_bgmv` asks of the installation and of its input, beside the sizes: the
input is contiguous and two-dimensional where it is called. -/
structure Device : Type where
  tritonAvailable : Bool
  cuda : Bool
  supportedDtype : Bool
deriving DecidableEq

def canUseBgmv (d : Device) (numTokens rank maxTokens : ℕ) : Bool :=
  d.tritonAvailable && d.cuda && d.supportedDtype && decide (1 ≤ rank ∧ rank ≤ maxBgmvRank) &&
    decide (numTokens ≤ maxTokens)

/-- What `bgmv_delta` raises. -/
inductive BgmvFault : Type where
  | noTriton
  | inFeatures (expected got : ℕ)
  | stackShape (b a : ℕ × ℕ × ℕ)
  | outputShape (y : ℕ × ℕ)
  | slotCount (entries numTokens : ℕ)
  | rankRange (rank maxRank : ℕ)
deriving DecidableEq

section Kernels

variable {δ α : Type} [NonUnitalNonAssocSemiring α] (T : Numerics δ α)

/-- `_bgmv_shrink_kernel`: `out[t, :rank] = A[slot_t - 1] @ x[t]`. -/
def shrinkKernel (x a : ℕ → α) (slots : ℕ → ℕ)
    (xStrideT aStrideSlot aStrideR outStrideT inFeatures rank blockR blockK : ℕ)
    (token : ℕ) (out : ℕ → α) : ℕ → α :=
  let slot := slots token
  if slot ≤ 0 then out
  else
    let row := slot - 1
    let acc := (tiles inFeatures blockK).foldl (fun acc kStart r =>
      acc r + ∑ i ∈ Finset.range blockK,
        T.cast T.float32 (load a (row * aStrideSlot + r * aStrideR + (kStart + i))
          (r < rank ∧ kStart + i < inFeatures) 0) *
        T.cast T.float32 (load x (token * xStrideT + (kStart + i))
          (kStart + i < inFeatures) 0)) fun _ => 0
    store (List.range blockR) (token * outStrideT + ·) (· < rank) acc out

/-- `_bgmv_expand_kernel`: `y[t, n] += scaling[slot] * B[slot - 1][n, :rank] @ tmp[t, :rank]`,
for one token and one tile of outputs. -/
def expandKernel (outDtype : δ) (tmp b : ℕ → α) (slots : ℕ → ℕ) (scaling : ℕ → α)
    (tmpStrideT bStrideSlot bStrideN yStrideT outFeatures rank blockR blockN : ℕ)
    (program : ℕ × ℕ) (y : ℕ → α) : ℕ → α :=
  let token := program.1
  let slot := slots token
  if slot ≤ 0 then y
  else
    let row := slot - 1
    let offsN i := program.2 * blockN + i
    let scale := scaling row
    let acc i := (∑ r ∈ Finset.range blockR,
      T.cast T.float32 (load b (row * bStrideSlot + offsN i * bStrideN + r)
        (offsN i < outFeatures ∧ r < rank) 0) *
      load tmp (token * tmpStrideT + r) (r < rank) 0) * scale
    let previous i := load y (token * yStrideT + offsN i) (offsN i < outFeatures) 0
    store (List.range blockN) (fun i => token * yStrideT + offsN i)
      (fun i => offsN i < outFeatures) (fun i => previous i + T.cast outDtype (acc i)) y

def blockK (inFeatures : ℕ) : ℕ := min (nextPowerOfTwo inFeatures) 256

def blockN (outFeatures : ℕ) : ℕ := min (nextPowerOfTwo outFeatures) 128

/-- One program per token. -/
def shrinkGrid (numTokens : ℕ) : List ℕ := List.range numTokens

/-- One program per token and output tile. -/
def expandGrid (numTokens outFeatures : ℕ) : List (ℕ × ℕ) :=
  List.range numTokens ×ˢ List.range (outFeatures ⌈/⌉ blockN outFeatures)

/-- Add every token's delta into `y`, gathering by `tokenSlot`. -/
def bgmvDelta (d : Device) (outDtype : δ) (x y : Tensor α) (loraA loraB : Stacked α)
    (scaling : ℕ → α) (tokenSlot : List ℕ) (rank : ℕ)
    (shrinkOrder : Schedule (shrinkGrid x.rows))
    (expandOrder : Schedule (expandGrid x.rows loraB.rows)) :
    Except BgmvFault (Tensor α) :=
  if ! d.tritonAvailable then .error .noTriton
  else if loraA.cols ≠ x.cols then .error (.inFeatures loraA.cols x.cols)
  else if loraB.slots ≠ loraA.slots ∨ loraB.cols ≠ loraA.rows then
    .error (.stackShape (loraB.slots, loraB.rows, loraB.cols)
      (loraA.slots, loraA.rows, loraA.cols))
  else if y.rows ≠ x.rows ∨ y.cols ≠ loraB.rows then .error (.outputShape (y.rows, y.cols))
  else if tokenSlot.length ≠ x.rows then .error (.slotCount tokenSlot.length x.rows)
  else if ¬ (1 ≤ rank ∧ rank ≤ loraA.rows) then .error (.rankRange rank loraA.rows)
  else
    let blockR := nextPowerOfTwo rank
    let slots := fun t => tokenSlot.getD t 0
    let tmp := launch
      (shrinkKernel T x.flat loraA.flat slots x.cols (loraA.rows * loraA.cols) loraA.cols
        blockR x.cols rank blockR (blockK x.cols))
      shrinkOrder.order fun _ => 0
    let out := launch
      (expandKernel T outDtype tmp loraB.flat slots scaling blockR (loraB.rows * loraB.cols)
        loraB.cols y.cols loraB.rows rank blockR (blockN loraB.rows))
      expandOrder.order y.flat
    .ok (.ofFlat y.rows y.cols out)

end Kernels

/-! ## §3  What they compute -/

namespace Numerics

variable {δ α : Type}

/-- Conversions that lose nothing. -/
def Exact (T : Numerics δ α) : Prop := ∀ dtype x, T.cast dtype x = x

/-- The numerics of exact arithmetic. -/
def exact (float32 : δ) : Numerics δ α := ⟨fun _ x => x, float32⟩

theorem exact_exact (float32 : δ) : (exact float32 : Numerics δ α).Exact := fun _ _ => rfl

end Numerics

section Spec

variable {δ α : Type} [CommSemiring α] {T : Numerics δ α}

/-- `A x`, one row. -/
def shrunk (a : ℕ → ℕ → α) (n : ℕ) (x : ℕ → α) (r : ℕ) : α := ∑ k ∈ Finset.range n, a r k * x k

/-- `scaling * B (A x)`, one output. -/
def lowRank (scaling : α) (b a : ℕ → ℕ → α) (rank n : ℕ) (x : ℕ → α) (o : ℕ) : α :=
  scaling * ∑ r ∈ Finset.range rank, b o r * shrunk a n x r

theorem blockK_pos (n : ℕ) : 0 < blockK n := lt_min (nextPowerOfTwo_pos n) (by norm_num)

theorem blockN_pos (n : ℕ) : 0 < blockN n := lt_min (nextPowerOfTwo_pos n) (by norm_num)

/-- The accumulator of the shrink kernel, once its tiles are done. -/
theorem shrink_acc (hT : T.Exact) (x : Tensor α) (a : Stacked α) (hcols : a.cols = x.cols)
    (row token : ℕ) {rank r : ℕ} (hr : r < rank) (hrank : rank ≤ a.rows) :
    (tiles x.cols (blockK x.cols)).foldl (fun acc kStart r =>
      acc r + ∑ i ∈ Finset.range (blockK x.cols),
        T.cast T.float32 (load a.flat (row * (a.rows * a.cols) + r * a.cols + (kStart + i))
          (r < rank ∧ kStart + i < x.cols) 0) *
        T.cast T.float32 (load x.flat (token * x.cols + (kStart + i))
          (kStart + i < x.cols) 0)) (fun _ => 0) r =
      shrunk (a.entry row) x.cols (x.entry token) r := by
  rw [foldl_add_eq_sum, zero_add]
  refine (congrArg List.sum (List.map_congr_left fun kStart _ =>
    Finset.sum_congr rfl fun i _ => ?_)).trans
    (sum_tiles (blockK_pos x.cols) x.cols fun k => a.entry row r k * x.entry token k)
  rw [hT, hT, load, load]
  by_cases hk : kStart + i < x.cols
  · rw [if_pos ⟨hr, hk⟩, if_pos hk, if_pos hk,
      a.flat_apply row (Nat.lt_of_lt_of_le hr hrank) (hcols ▸ hk), x.flat_apply token hk]
  · rw [if_neg fun h => hk h.2, if_neg hk, if_neg hk, zero_mul]

section Launched

variable {d : Device} {outDtype : δ} {x y : Tensor α} {a b : Stacked α} (scaling : ℕ → α)
  (slots : ℕ → ℕ) {rank block : ℕ}

/-- The rank lanes of one token's row, when it has an adapter. -/
theorem shrink_footprint (hT : T.Exact) (hcols : a.cols = x.cols) (hrank : rank ≤ a.rows)
    (hblock : rank ≤ block) :
    Footprint (shrinkGrid x.rows)
      (shrinkKernel T x.flat a.flat slots x.cols (a.rows * a.cols) a.cols block x.cols rank
        block (blockK x.cols))
      (fun t => {addr | slots t ≠ 0 ∧ ∃ r < rank, addr = t * block + r})
      fun t addr _ => shrunk (a.entry (slots t - 1)) x.cols (x.entry t) (addr - t * block) := by
  constructor
  · rintro t - m _ ⟨hslot, r, hr, rfl⟩
    unfold shrinkKernel
    simp only [if_neg (Nat.not_le_of_lt (Nat.pos_of_ne_zero hslot))]
    rw [store_of_mem (t * block + ·) _ _ _ _
      (List.mem_range.mpr (Nat.lt_of_lt_of_le hr hblock)) hr
      fun j _ _ hj => Nat.add_left_cancel hj, Nat.add_sub_cancel_left]
    exact shrink_acc hT x a hcols _ t hr hrank
  · intro t _ m addr haddr
    unfold shrinkKernel
    by_cases hslot : slots t ≤ 0
    · simp only [if_pos hslot]
    · simp only [if_neg hslot]
      refine store_of_not_mem _ _ _ _ _ fun r _ hr hra => haddr ⟨?_, r, hr, hra.symm⟩
      omega

/-- The rows of the launched shrink kernel. -/
theorem shrink_launched (hT : T.Exact) (hcols : a.cols = x.cols) (hrank : rank ≤ a.rows)
    (hblock : rank ≤ block) (s : Schedule (shrinkGrid x.rows)) {t r : ℕ} (ht : t < x.rows)
    (hslot : slots t ≠ 0) (hr : r < rank) :
    launch (shrinkKernel T x.flat a.flat slots x.cols (a.rows * a.cols) a.cols block x.cols
      rank block (blockK x.cols)) s.order (fun _ => 0) (t * block + r) =
      shrunk (a.entry (slots t - 1)) x.cols (x.entry t) r := by
  have hfoot := shrink_footprint slots hT hcols hrank hblock
  rw [hfoot.writes_in_any_order List.nodup_range s _ (List.mem_range.mpr ht)
    ⟨hslot, r, hr, rfl⟩, Nat.add_sub_cancel_left]
  rintro q - ⟨-, r', hr', heq⟩
  exact (address_inj (Nat.lt_of_lt_of_le hr hblock) (Nat.lt_of_lt_of_le hr' hblock) heq).1.symm

/-- One output lane of the expand kernel. -/
theorem expand_acc (hT : T.Exact) {tmp : ℕ → α} {z : ℕ → α} {row t o : ℕ}
    (htmp : ∀ r < rank, tmp (t * block + r) = z r) (hcols : rank ≤ b.cols)
    (hblock : rank ≤ block) (ho : o < b.rows) (s : α) :
    (∑ r ∈ Finset.range block,
      T.cast T.float32 (load b.flat (row * (b.rows * b.cols) + o * b.cols + r)
        (o < b.rows ∧ r < rank) 0) * load tmp (t * block + r) (r < rank) 0) * s =
      s * ∑ r ∈ Finset.range rank, b.entry row o r * z r := by
  rw [mul_comm, ← sum_lanes hblock]
  refine congrArg (s * ·) (Finset.sum_congr rfl fun r _ => ?_)
  rw [hT, load, load]
  by_cases hr : r < rank
  · rw [if_pos ⟨ho, hr⟩, if_pos hr, if_pos hr, htmp r hr,
      b.flat_apply row ho (Nat.lt_of_lt_of_le hr hcols)]
  · rw [if_neg fun h => hr h.2, if_neg hr, if_neg hr, zero_mul]

/-- The cells of one token's row that one output tile covers, when it has an adapter. -/
theorem expand_footprint (hT : T.Exact) (outDtype : δ) {tmp : ℕ → α} {z : ℕ → ℕ → α}
    {n : ℕ} (htmp : ∀ t < n, slots t ≠ 0 → ∀ r < rank, tmp (t * block + r) = z t r)
    (hcols : rank ≤ b.cols) (hblock : rank ≤ block) (stride : ℕ) :
    Footprint (expandGrid n b.rows)
      (expandKernel T outDtype tmp b.flat slots scaling block (b.rows * b.cols) b.cols stride
        b.rows rank block (blockN b.rows))
      (fun p => {addr | slots p.1 ≠ 0 ∧
        ∃ o < b.rows, o / blockN b.rows = p.2 ∧ addr = p.1 * stride + o})
      fun p addr old => old + scaling (slots p.1 - 1) * ∑ r ∈ Finset.range rank,
        b.entry (slots p.1 - 1) (addr - p.1 * stride) r * z p.1 r := by
  have hN := blockN_pos b.rows
  constructor
  · rintro ⟨t, tile⟩ hp m _ ⟨hslot, o, ho, htile, rfl⟩
    have ht : t < n := List.mem_range.mp (List.mem_product.mp hp).1
    -- the lane of the tile that holds the output
    have hlane : tile * blockN b.rows + o % blockN b.rows = o := by
      subst htile
      exact Nat.div_add_mod' o _
    have hstored := store_of_mem
      (fun i => t * stride + (tile * blockN b.rows + i))
      (fun i => tile * blockN b.rows + i < b.rows)
      (fun i => load m (t * stride + (tile * blockN b.rows + i))
          (tile * blockN b.rows + i < b.rows) 0 +
        T.cast outDtype ((∑ r ∈ Finset.range block,
          T.cast T.float32 (load b.flat ((slots t - 1) * (b.rows * b.cols) +
            (tile * blockN b.rows + i) * b.cols + r)
            (tile * blockN b.rows + i < b.rows ∧ r < rank) 0) *
          load tmp (t * block + r) (r < rank) 0) * scaling (slots t - 1)))
      (List.range (blockN b.rows)) m (List.mem_range.mpr (Nat.mod_lt o hN))
      (by rw [hlane]; exact ho) fun j _ _ hj => by omega
    unfold expandKernel
    simp only [if_neg (Nat.not_le_of_lt (Nat.pos_of_ne_zero hslot))]
    rw [hlane] at hstored
    rw [hstored, hT, expand_acc hT (htmp t ht hslot) hcols hblock ho, load, if_pos ho,
      Nat.add_sub_cancel_left]
  · intro p _ m addr haddr
    unfold expandKernel
    by_cases hslot : slots p.1 ≤ 0
    · simp only [if_pos hslot]
    · simp only [if_neg hslot]
      refine store_of_not_mem _ _ _ _ _ fun i hi hmask heq => haddr ⟨by omega, _, hmask, ?_, heq.symm⟩
      have hi : i < blockN b.rows := List.mem_range.mp hi
      exact row_of_address hi

/-- The rows of the launched expand kernel. -/
theorem expand_launched (hT : T.Exact) (outDtype : δ) {tmp : ℕ → α} {z : ℕ → ℕ → α} {n : ℕ}
    (htmp : ∀ t < n, slots t ≠ 0 → ∀ r < rank, tmp (t * block + r) = z t r)
    (hcols : rank ≤ b.cols) (hblock : rank ≤ block) (s : Schedule (expandGrid n b.rows))
    (m : ℕ → α) {t o : ℕ} (ht : t < n) (ho : o < b.rows) :
    launch (expandKernel T outDtype tmp b.flat slots scaling block (b.rows * b.cols) b.cols
      b.rows b.rows rank block (blockN b.rows)) s.order m (t * b.rows + o) =
      m (t * b.rows + o) + if slots t = 0 then 0 else
        scaling (slots t - 1) * ∑ r ∈ Finset.range rank,
          b.entry (slots t - 1) o r * z t r := by
  have hfoot := expand_footprint scaling slots hT outDtype htmp hcols hblock b.rows
  -- only the program of this token and this tile names the cell
  have howner : ∀ q ∈ expandGrid n b.rows, t * b.rows + o ∈ {addr | slots q.1 ≠ 0 ∧
      ∃ o' < b.rows, o' / blockN b.rows = q.2 ∧ addr = q.1 * b.rows + o'} →
      slots t ≠ 0 ∧ q = (t, o / blockN b.rows) := by
    rintro ⟨t', tile⟩ - ⟨hslot, o', ho', htile, heq⟩
    obtain ⟨rfl, rfl⟩ := address_inj ho ho' heq
    exact ⟨hslot, Prod.ext rfl htile.symm⟩
  by_cases hslot : slots t = 0
  · rw [hfoot.keeps_in_any_order s m fun q hq hmem => (howner q hq hmem).1 hslot, if_pos hslot,
      add_zero]
  · have hnd : (expandGrid n b.rows).Nodup := List.nodup_range.product List.nodup_range
    have htile : o / blockN b.rows < b.rows ⌈/⌉ blockN b.rows := by
      rw [Nat.ceilDiv_eq_add_pred_div, Nat.div_lt_iff_lt_mul (blockN_pos b.rows)]
      have hdiv := Nat.lt_div_mul_add (a := b.rows + blockN b.rows - 1) (blockN_pos b.rows)
      omega
    rw [hfoot.writes_in_any_order hnd s m (p := (t, o / blockN b.rows))
      (List.mem_product.mpr ⟨List.mem_range.mpr ht, List.mem_range.mpr htile⟩)
      ⟨hslot, o, ho, rfl, rfl⟩ fun q hq hmem => (howner q hq hmem).2, if_neg hslot,
      Nat.add_sub_cancel_left]

/-- The kernels add every token's delta for its own slot, whatever the order of their
programs. -/
theorem bgmvDelta_spec (hT : T.Exact) (outDtype : δ) {tokenSlot : List ℕ}
    (hd : d.tritonAvailable = true) (hx : a.cols = x.cols) (hslots : b.slots = a.slots)
    (hb : b.cols = a.rows) (hrows : y.rows = x.rows) (hcols : y.cols = b.rows)
    (hlen : tokenSlot.length = x.rows) (hrank : 1 ≤ rank ∧ rank ≤ a.rows)
    (s₁ : Schedule (shrinkGrid x.rows)) (s₂ : Schedule (expandGrid x.rows b.rows)) :
    ∃ out, bgmvDelta T d outDtype x y a b scaling tokenSlot rank s₁ s₂ = .ok out ∧
      out.rows = y.rows ∧ out.cols = y.cols ∧
      ∀ t < x.rows, ∀ o < b.rows, out.entry t o = y.entry t o +
        if tokenSlot.getD t 0 = 0 then 0 else
          lowRank (scaling (tokenSlot.getD t 0 - 1)) (b.entry (tokenSlot.getD t 0 - 1))
            (a.entry (tokenSlot.getD t 0 - 1)) rank x.cols (x.entry t) o := by
  have hblock := le_nextPowerOfTwo rank
  unfold bgmvDelta
  rw [if_neg (by simp [hd]), if_neg (not_not.mpr hx),
    if_neg (by rw [not_or, not_not, not_not]; exact ⟨hslots, hb⟩),
    if_neg (by rw [not_or, not_not, not_not]; exact ⟨hrows, hcols⟩), if_neg (not_not.mpr hlen),
    if_neg (not_not.mpr hrank)]
  refine ⟨_, rfl, rfl, rfl, fun t ht o ho => ?_⟩
  have hshrunk : ∀ t < x.rows, tokenSlot.getD t 0 ≠ 0 → ∀ r < rank, _ :=
    fun t ht hslot r hr => shrink_launched (fun t => tokenSlot.getD t 0) hT hx hrank.2
      hblock s₁ ht hslot hr
  have hexpanded := expand_launched scaling (fun t => tokenSlot.getD t 0)
    hT outDtype hshrunk (hb ▸ hrank.2) hblock s₂ y.flat ht ho
  have hold : y.flat (t * b.rows + o) = y.entry t o := hcols ▸ y.flat_apply t (hcols ▸ ho)
  rw [hold] at hexpanded
  unfold Tensor.ofFlat
  rw [hcols]
  exact hexpanded

end Launched

end Spec

end TurboServe.Lora
