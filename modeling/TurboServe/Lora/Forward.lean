import TurboServe.Lora.Bgmv
import TurboServe.Lora.Registry

/-!
# The forward pass of a stacked projection

`LoRALinear.forward` in `engine/lora/layers.py`: the base projection, then each token's
delta for its own slot, by the kernels or grouped by slot.
-/

namespace TurboServe.Lora

open Lib

/-! ## §1  Contexts -/

/-- A `LoRAContext`, or a `LoRABatch` that carries its grouping. -/
inductive Context : Type where
  | plain (tokenLoraSlot activeSlots : List ℕ)
  | batch (b : LoRABatch)
deriving DecidableEq

namespace Context

def tokenLoraSlot : Context → List ℕ
  | plain slots _ => slots
  | batch b => b.tokenLoraSlot

def activeSlots : Context → List ℕ
  | plain _ active => active
  | batch b => b.activeSlots

/-- `LoRAContext.from_slots`. -/
def fromSlots (slots : List ℕ) : Context :=
  .plain slots ((slots.filter (· ≠ 0)).dedup.insertionSort (· ≤ ·))

/-- The order and the segments, derived when the context does not carry them. -/
def loraSegments : Context → List ℕ × List (ℕ × ℕ × ℕ)
  | plain slots _ =>
      ((LoRABatch.fromTokenSlots slots).order, (LoRABatch.fromTokenSlots slots).segments)
  | batch b => (b.order, b.segments)

end Context

/-! ## §2  The layer -/

/-- `F.linear(x, weight, bias)`. -/
def fLinear {α : Type} [Zero α] [Add α] [Mul α] (inFeatures outFeatures : ℕ)
    (weight : ℕ → ℕ → α) (bias : Option (ℕ → α)) (x : Tensor α) : Tensor α :=
  ⟨x.rows, outFeatures, fun t o =>
    let y := LoRALinear.linear inFeatures (x.entry t) weight o
    match bias with
    | none => y
    | some b => y + b o⟩

/-- A dense projection. -/
structure LinearBase (δ α : Type) where
  name : String
  inFeatures : ℕ
  outFeatures : ℕ
  dtype : δ
  weight : ℕ → ℕ → α
  bias : Option (ℕ → α)

def LinearBase.forward {δ α : Type} [Zero α] [Add α] [Mul α] (base : LinearBase δ α)
    (x : Tensor α) : Tensor α :=
  fLinear base.inFeatures base.outFeatures base.weight base.bias x

/-- A wrapped projection: the base parameters it adopts, beside the stacked factors. -/
structure Projection (δ α : Type) extends LoRALinear δ α where
  weight : ℕ → ℕ → α
  bias : Option (ℕ → α)
  bgmvMaxTokens : ℕ
  preferTriton : Bool

/-- What `forward` raises; `F.linear` refuses an input of the wrong width. -/
inductive ForwardFault : Type where
  | inputWidth (got expected : ℕ)
  | contextTokens (layer : String) (described batch : ℕ)
  | slotBeyondPool (layer : String) (slot numSlots : ℕ)
  | kernel (e : BgmvFault)
deriving DecidableEq

/-- `out.index_add_(0, index, delta)`. -/
def indexAdd {α : Type} [Add α] (index : List ℕ) (delta out : ℕ → ℕ → α) : ℕ → ℕ → α :=
  index.zipIdx.foldl (fun out p => Function.update out p.1 fun o => out p.1 o + delta p.2 o) out

namespace LoRALinear

variable {δ α : Type} [Zero α] [Add α] [Mul α] (T : Numerics δ α) (l : LoRALinear δ α)

/-- One segment of the grouped path: gather its rows, two products, scatter back. -/
def segmentDelta (outDtype : δ) (order : List ℕ) (x : ℕ → ℕ → α) (out : ℕ → ℕ → α)
    (segment : ℕ × ℕ × ℕ) : ℕ → ℕ → α :=
  let (slot, start, stop) := segment
  if stop ≤ start then out
  else
    let row := slot - 1
    let rank := l.slotRank row
    if rank = 0 then out
    else
      let index := (order.drop start).take (stop - start)
      let rows := fun i => x (index.getD i 0)
      let shrunk := fun i => linear l.inFeatures (rows i) (l.loraA row)
      let delta := fun i => linear rank (shrunk i) (l.loraB row)
      indexAdd index (fun i o => T.cast outDtype (delta i o * l.slotScaling row)) out

def groupedDelta (outDtype : δ) (order : List ℕ) (segments : List (ℕ × ℕ × ℕ))
    (x out : ℕ → ℕ → α) : ℕ → ℕ → α :=
  segments.foldl (l.segmentDelta T outDtype order x) out

def stackA : Stacked α := ⟨l.numSlots, l.maxRank, l.inFeatures, l.loraA⟩

def stackB : Stacked α := ⟨l.numSlots, l.outFeatures, l.maxRank, l.loraB⟩

end LoRALinear

namespace Projection

section Forward

variable {δ α : Type}

/-- Wrap a projection: its parameters are adopted, and every slot is empty. -/
def wrap [Zero α] (base : LinearBase δ α) (numSlots maxRank : ℕ) (dtype : Option δ)
    (bgmvMaxTokens : ℕ) (preferTriton : Bool) : Projection δ α :=
  { LoRALinear.new base.name base.inFeatures base.outFeatures numSlots maxRank
      (dtype.getD base.dtype) with
    weight := base.weight, bias := base.bias
    bgmvMaxTokens := bgmvMaxTokens, preferTriton := preferTriton }

variable [NonUnitalNonAssocSemiring α] (T : Numerics δ α) (P : Projection δ α)

/-- Accumulate the deltas into `out`, by the kernels where they apply. -/
def addDelta (d : Device) (outDtype : δ) (x out : Tensor α) (ctx : Context)
    (shrinkOrder : Schedule (shrinkGrid x.rows))
    (expandOrder : Schedule (expandGrid x.rows P.outFeatures)) :
    Except ForwardFault (Tensor α) :=
  let maxSlot := ctx.activeSlots.foldl max 0
  if maxSlot > P.numSlots then .error (.slotBeyondPool P.name maxSlot P.numSlots)
  else if P.preferTriton && canUseBgmv d x.rows P.maxRank P.bgmvMaxTokens then
    (bgmvDelta T d outDtype x out P.stackA P.stackB P.loraScaling ctx.tokenLoraSlot P.maxRank
      shrinkOrder expandOrder).mapError .kernel
  else
    let (order, segments) := ctx.loraSegments
    .ok { out with entry := P.groupedDelta T outDtype order segments x.entry out.entry }

/-- Base projection plus the per-token deltas. -/
def forward (d : Device) (outDtype : δ) (x : Tensor α) (loraCtx : Option Context)
    (shrinkOrder : Schedule (shrinkGrid x.rows))
    (expandOrder : Schedule (expandGrid x.rows P.outFeatures)) :
    Except ForwardFault (Tensor α) :=
  if x.cols ≠ P.inFeatures then .error (.inputWidth x.cols P.inFeatures)
  else
    let out := fLinear P.inFeatures P.outFeatures P.weight P.bias x
    match loraCtx with
    | none => .ok out
    | some ctx =>
        if ctx.activeSlots = [] then .ok out
        else if ctx.tokenLoraSlot.length ≠ x.rows then
          .error (.contextTokens P.name ctx.tokenLoraSlot.length x.rows)
        else P.addDelta T d outDtype x out ctx shrinkOrder expandOrder

end Forward

end Projection

/-! ## §3  The grouped path -/

section Grouped

variable {δ α : Type}

theorem linear_eq_sum [NonUnitalNonAssocSemiring α] (n : ℕ) (x : ℕ → α) (w : ℕ → ℕ → α)
    (o : ℕ) : LoRALinear.linear n x w o = ∑ j ∈ Finset.range n, x j * w o j := rfl

/-- Scattering rows that depend on their position alone adds each once. -/
theorem indexAdd_apply [Add α] {index : List ℕ} (hnd : index.Nodup) (g : ℕ → ℕ → α)
    (out : ℕ → ℕ → α) (t : ℕ) :
    indexAdd index (fun i => g (index.getD i 0)) out t =
      if t ∈ index then fun o => out t o + g t o else out t := by
  have hrows : indexAdd index (fun i => g (index.getD i 0)) out =
      index.foldl (fun (out : ℕ → ℕ → α) t =>
        Function.update out t fun o => out t o + g t o) out := by
    have hmap : index = index.zipIdx.map (·.1) := by simp
    conv_rhs => rw [hmap, List.foldl_map]
    unfold indexAdd
    refine List.foldl_ext _ _ _ fun m p hp => ?_
    have hp' := List.mem_zipIdx_iff_getElem?.mp hp
    have hrow : index.getD p.2 0 = p.1 := by
      rw [List.getD_eq_getElem?_getD, hp', Option.getD_some]
    simp only [hrow]
  rw [hrows]
  clear hrows
  induction index generalizing out with
  | nil => rfl
  | cons s index ih =>
      obtain ⟨hs, hnd'⟩ := List.nodup_cons.mp hnd
      rw [List.foldl_cons, ih hnd']
      by_cases hts : t = s
      · subst hts
        rw [if_neg hs, if_pos List.mem_cons_self, Function.update_self]
      · rw [Function.update_of_ne hts]
        simp only [List.mem_cons, hts, false_or]

theorem mem_positions {slots : List ℕ} {slot t : ℕ} :
    t ∈ LoRABatch.positions slots slot ↔ t < slots.length ∧ slots.getD t 0 = slot := by
  unfold LoRABatch.positions
  rw [List.mem_filter, List.mem_range, decide_eq_true_iff]

theorem nodup_positions (slots : List ℕ) (slot : ℕ) : (LoRABatch.positions slots slot).Nodup :=
  List.nodup_range.filter _

variable [NonUnitalNonAssocSemiring α] {T : Numerics δ α} {l : LoRALinear δ α}
  {slots order : List ℕ}

/-- A segment adds each of its tokens its slot's delta. -/
theorem segmentDelta_apply (outDtype : δ) {segment : ℕ × ℕ × ℕ}
    (hseg : (order.drop segment.2.1).take (segment.2.2 - segment.2.1) =
      LoRABatch.positions slots segment.1) (x out : ℕ → ℕ → α) (t : ℕ) :
    l.segmentDelta T outDtype order x out segment t =
      if t ∈ LoRABatch.positions slots segment.1 then
        l.addDelta T segment.1 outDtype (x t) (out t) else out t := by
  obtain ⟨slot, start, stop⟩ := segment
  unfold LoRALinear.segmentDelta LoRALinear.addDelta
  simp only at hseg ⊢
  by_cases hempty : stop ≤ start
  · -- an empty segment has no tokens
    rw [Nat.sub_eq_zero_of_le hempty, List.take_zero] at hseg
    rw [if_pos hempty, ← hseg, if_neg List.not_mem_nil]
  · rw [if_neg hempty, hseg]
    by_cases hrank : l.slotRank (slot - 1) = 0
    · rw [if_pos hrank, if_pos hrank, ite_self]
    · rw [if_neg hrank, if_neg hrank]
      exact indexAdd_apply (nodup_positions slots slot)
        (fun t o => T.cast outDtype
          (LoRALinear.linear (l.slotRank (slot - 1))
            (LoRALinear.linear l.inFeatures (x t) (l.loraA (slot - 1))) (l.loraB (slot - 1)) o *
            l.slotScaling (slot - 1))) out t

/-- Segments of different slots add each token its own slot's delta, once. -/
theorem groupedDelta_apply (outDtype : δ) {segments : List (ℕ × ℕ × ℕ)}
    (hseg : ∀ p ∈ segments, (order.drop p.2.1).take (p.2.2 - p.2.1) =
      LoRABatch.positions slots p.1)
    (hnd : (segments.map (·.1)).Nodup) (x out : ℕ → ℕ → α) {t : ℕ} (ht : t < slots.length) :
    l.groupedDelta T outDtype order segments x out t =
      if slots.getD t 0 ∈ segments.map (·.1) then
        l.addDelta T (slots.getD t 0) outDtype (x t) (out t) else out t := by
  unfold LoRALinear.groupedDelta
  induction segments generalizing out with
  | nil => rfl
  | cons p segments ih =>
      obtain ⟨hp, hnd'⟩ := List.nodup_cons.mp hnd
      rw [List.foldl_cons, ih (fun q hq => hseg q (List.mem_cons_of_mem _ hq)) hnd',
        segmentDelta_apply outDtype (hseg p List.mem_cons_self)]
      by_cases hown : slots.getD t 0 = p.1
      · rw [if_neg (hown ▸ hp), if_pos (mem_positions.mpr ⟨ht, hown⟩), hown, List.map_cons,
          if_pos List.mem_cons_self]
      · rw [if_neg fun h => hown (mem_positions.mp h).2, List.map_cons]
        simp only [List.mem_cons, hown, false_or]

end Grouped

end TurboServe.Lora
