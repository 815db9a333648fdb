import TurboServe.Lora.Forward
import TurboServe.Lora.Residency

/-!
# Each token gets its own slot's delta

A wrapped projection after any calls of `load_slot` and `clear_slot`: in exact arithmetic
the grouped path, the kernels and so `forward` add to each token the low-rank product of
the factors its slot was last given, and nothing to a token of the base model.
-/

namespace TurboServe.Lora

open Lib

variable {δ α : Type}

/-! ## §1  What the slots were given -/

/-- A call that writes a slot. -/
inductive SlotCall (δ α : Type) : Type where
  | load (slot : ℕ) (w : LoRAWeights δ α)
  | clear (slot : ℕ)

/-- A projection beside the factors each slot was last given. -/
structure Loaded (δ α : Type) where
  layer : Projection δ α
  given : ℕ → Option (LoRAWeights δ α)

namespace Loaded

variable [Zero α] (T : Numerics δ α)

def wrap (base : LinearBase δ α) (numSlots maxRank : ℕ) (dtype : Option δ)
    (bgmvMaxTokens : ℕ) (preferTriton : Bool) : Loaded δ α :=
  ⟨.wrap base numSlots maxRank dtype bgmvMaxTokens preferTriton, fun _ => none⟩

/-- A call that raises changes nothing. -/
def call (s : Loaded δ α) : SlotCall δ α → Loaded δ α
  | .load slot w =>
      match s.layer.loadSlot T slot w with
      | .ok l => ⟨{ s.layer with toLoRALinear := l }, Function.update s.given slot (some w)⟩
      | .error _ => s
  | .clear slot =>
      match s.layer.clearSlot slot with
      | .ok l => ⟨{ s.layer with toLoRALinear := l }, Function.update s.given slot none⟩
      | .error _ => s

def run (s : Loaded δ α) (calls : List (SlotCall δ α)) : Loaded δ α := calls.foldl (call T) s

end Loaded

namespace LoRALinear

variable [Zero α] [DecidableEq δ] {T : Numerics δ α} {l : LoRALinear δ α}

/-- Every slot holds what it was given, and that fits the layer. -/
def Filled (T : Numerics δ α) (l : LoRALinear δ α) (given : ℕ → Option (LoRAWeights δ α)) :
    Prop :=
  ∀ slot, 1 ≤ slot → slot ≤ l.numSlots →
    l.Holds T slot (given slot) ∧ ∀ w, given slot = some w → l.Fits w

omit [DecidableEq δ] in
theorem loadSlot_range {slot : ℕ} {w : LoRAWeights δ α} {l' : LoRALinear δ α}
    (h : l.loadSlot T slot w = .ok l') : (1 ≤ slot ∧ slot ≤ l.numSlots) ∧ l.Fits w := by
  unfold loadSlot row at h
  by_cases hs : 1 ≤ slot ∧ slot ≤ l.numSlots
  · rw [if_pos hs] at h
    by_cases hshape : w.a.cols ≠ l.inFeatures ∨ w.b.rows ≠ l.outFeatures
    · simp only [if_pos hshape] at h
      cases h
    · by_cases hrank : w.rank > l.maxRank
      · simp only [if_neg hshape, if_pos hrank] at h
        cases h
      · rw [not_or, not_not, not_not] at hshape
        exact ⟨hs, hshape.1, hshape.2, Nat.le_of_not_lt hrank⟩
  · rw [if_neg hs] at h
    cases h

/-- In exact arithmetic the dtype of the factors does not matter. -/
theorem loadSlot_toDtype (hT : T.Exact) (slot : ℕ) (w : LoRAWeights δ α) (dtype : δ) :
    l.loadSlot T slot (w.toDtype T dtype) = l.loadSlot T slot w := by
  unfold LoRAWeights.toDtype
  split
  · rfl
  · simp only [hT _ _]
    rfl

/-- Writing one slot in place leaves the others filled. -/
theorem Filled.write {given : ℕ → Option (LoRAWeights δ α)} (h : l.Filled T given)
    {slot : ℕ} {l' : LoRALinear δ α} {w : Option (LoRAWeights δ α)}
    (hs : 1 ≤ slot) (hsame : SameElsewhere slot l l') (hw : l'.Holds T slot w)
    (hfit : ∀ v, w = some v → l.Fits v) : l'.Filled T (Function.update given slot w) := by
  intro s hs₁ hs₂
  have hfits : ∀ v, l.Fits v → l'.Fits v := fun v hv =>
    ⟨hv.1.trans hsame.inFeatures.symm, hv.2.1.trans hsame.outFeatures.symm,
      hsame.maxRank ▸ hv.2.2⟩
  rw [hsame.numSlots] at hs₂
  by_cases hss : s = slot
  · subst hss
    rw [Function.update_self]
    exact ⟨hw, fun v hv => hfits v (hfit v hv)⟩
  · rw [Function.update_of_ne hss]
    obtain ⟨hholds, hold⟩ := h s hs₁ hs₂
    exact ⟨hholds.elsewhere hsame (by omega), fun v hv => hfits v (hold v hv)⟩

end LoRALinear

namespace Loaded

variable [Zero α] [DecidableEq δ] {T : Numerics δ α}

/-- Shape of a wrapped projection. -/
structure Wraps (base : LinearBase δ α) (numSlots maxRank : ℕ) (P : Projection δ α) :
    Prop where
  inFeatures : P.inFeatures = base.inFeatures
  outFeatures : P.outFeatures = base.outFeatures
  numSlots : P.numSlots = numSlots
  maxRank : P.maxRank = maxRank
  weight : P.weight = base.weight
  bias : P.bias = base.bias

variable {base : LinearBase δ α} {numSlots maxRank : ℕ} {s : Loaded δ α}

omit [Zero α] [DecidableEq δ] in
theorem Wraps.elsewhere {P : Projection δ α} (h : Wraps base numSlots maxRank P) {slot : ℕ}
    {l : LoRALinear δ α} (hsame : LoRALinear.SameElsewhere slot P.toLoRALinear l) :
    Wraps base numSlots maxRank { P with toLoRALinear := l } :=
  ⟨hsame.inFeatures.trans h.inFeatures, hsame.outFeatures.trans h.outFeatures,
    hsame.numSlots.trans h.numSlots, hsame.maxRank.trans h.maxRank, h.weight, h.bias⟩

theorem call_filled (hT : T.Exact) (hwraps : Wraps base numSlots maxRank s.layer)
    (h : s.layer.Filled T s.given) (c : SlotCall δ α) :
    Wraps base numSlots maxRank (s.call T c).layer ∧
      (s.call T c).layer.Filled T (s.call T c).given := by
  cases c with
  | load slot w =>
      cases hload : s.layer.loadSlot T slot w with
      | error e =>
          simp only [call, hload]
          exact ⟨hwraps, h⟩
      | ok l =>
          simp only [call, hload]
          obtain ⟨hs, hfit⟩ := LoRALinear.loadSlot_range hload
          obtain ⟨l', hok, hsame, hholds⟩ := LoRALinear.loadSlot_holds (T := T) hs hfit
          rw [LoRALinear.loadSlot_toDtype hT, hload] at hok
          obtain rfl := Except.ok.inj hok
          exact ⟨hwraps.elsewhere hsame,
            h.write hs.1 hsame hholds fun v hv => Option.some_inj.mp hv ▸ hfit⟩
  | clear slot =>
      cases hclear : s.layer.clearSlot slot with
      | error e =>
          simp only [call, hclear]
          exact ⟨hwraps, h⟩
      | ok l =>
          simp only [call, hclear]
          have hs : 1 ≤ slot ∧ slot ≤ s.layer.numSlots := by
            by_contra hs
            unfold LoRALinear.clearSlot LoRALinear.row at hclear
            rw [if_neg hs] at hclear
            cases hclear
          obtain ⟨l', hok, hsame, hholds⟩ := LoRALinear.clearSlot_holds (T := T) hs
          rw [hclear] at hok
          obtain rfl := Except.ok.inj hok
          exact ⟨hwraps.elsewhere hsame, h.write hs.1 hsame hholds fun v hv => nomatch hv⟩

/-- After any calls the slots hold what they were last given. -/
theorem run_filled (hT : T.Exact) (base : LinearBase δ α) (numSlots maxRank : ℕ)
    (dtype : Option δ) (bgmvMaxTokens : ℕ) (preferTriton : Bool)
    (calls : List (SlotCall δ α)) :
    let s := (wrap base numSlots maxRank dtype bgmvMaxTokens preferTriton).run T calls
    Wraps base numSlots maxRank s.layer ∧ s.layer.Filled T s.given := by
  induction calls using List.reverseRecOn with
  | nil =>
      refine ⟨⟨rfl, rfl, rfl, rfl, rfl, rfl⟩, fun slot _ _ => ⟨?_, fun w hw => nomatch hw⟩⟩
      exact LoRALinear.new_holds ..
  | append_singleton calls c ih =>
      unfold run at ih ⊢
      rw [List.foldl_append]
      exact call_filled hT ih.1 ih.2 c

end Loaded

/-! ## §2  One token -/

section Token

variable [CommSemiring α]

/-- The delta a token's slot owes it: `scaling * B (A x)`, of the factors at their rank. -/
def givenDelta (n : ℕ) (given : Option (LoRAWeights δ α)) (x : ℕ → α) (o : ℕ) : α :=
  match given with
  | none => 0
  | some w => lowRank w.scaling w.b.entry w.a.entry w.rank n x o

/-- The definition of the projection: every token gets the base output, and one that has
an adapter its own slot's delta. -/
def PerToken (base : LinearBase δ α) (given : ℕ → Option (LoRAWeights δ α)) (slots : List ℕ)
    (x out : Tensor α) : Prop :=
  out.rows = x.rows ∧ out.cols = base.outFeatures ∧
    ∀ t < x.rows, ∀ o < base.outFeatures, out.entry t o = (base.forward x).entry t o +
      if slots.getD t 0 = 0 then 0
      else givenDelta base.inFeatures (given (slots.getD t 0)) (x.entry t) o

variable [DecidableEq δ] {T : Numerics δ α} {l : LoRALinear δ α}
  {given : ℕ → Option (LoRAWeights δ α)}

omit [CommSemiring α] in
theorem entry_toDtype (hT : T.Exact) (w : LoRAWeights δ α) (dtype : δ) :
    (w.toDtype T dtype).a.entry = w.a.entry ∧ (w.toDtype T dtype).b.entry = w.b.entry := by
  unfold LoRAWeights.toDtype
  split
  · exact ⟨rfl, rfl⟩
  · simp only [hT _ _, and_self]

/-- The rows past the rank add nothing. -/
theorem lowRank_given (hT : T.Exact) {slot : ℕ} {w : LoRAWeights δ α}
    (h : l.Holds T slot (some w)) (hfit : l.Fits w) (x : ℕ → α) {o : ℕ}
    (ho : o < l.outFeatures) :
    lowRank (l.loraScaling (slot - 1)) (l.loraB (slot - 1)) (l.loraA (slot - 1)) l.maxRank
      l.inFeatures x o = givenDelta l.inFeatures (some w) x o := by
  obtain ⟨ha, hb, hscaling, -, -⟩ := h
  obtain ⟨hea, heb⟩ := entry_toDtype hT w l.dtype
  unfold givenDelta lowRank
  dsimp only
  rw [hscaling, hT, ← sum_lanes hfit.2.2]
  refine congrArg (w.scaling * ·) (Finset.sum_congr rfl fun r hr => ?_)
  have hr := Finset.mem_range.mp hr
  rw [hb o ho r hr]
  by_cases hrank : r < w.rank
  · rw [if_pos hrank, if_pos hrank, heb]
    refine congrArg (w.b.entry o r * ·) (Finset.sum_congr rfl fun k hk => ?_)
    rw [ha r hr k (Finset.mem_range.mp hk), if_pos hrank, hea]
  · rw [if_neg hrank, if_neg hrank, zero_mul]

theorem lowRank_none {slot : ℕ} (h : l.Holds T slot none) (x : ℕ → α) (o : ℕ) :
    lowRank (l.loraScaling (slot - 1)) (l.loraB (slot - 1)) (l.loraA (slot - 1)) l.maxRank
      l.inFeatures x o = 0 := by
  unfold lowRank
  rw [h.2.2.1, zero_mul]

/-- What the kernels compute from the padded buffers of a slot. -/
theorem kernel_given (hT : T.Exact) (h : l.Filled T given) {slot : ℕ} (hs : 1 ≤ slot)
    (hs' : slot ≤ l.numSlots) (x : ℕ → α) {o : ℕ} (ho : o < l.outFeatures) :
    lowRank (l.loraScaling (slot - 1)) (l.loraB (slot - 1)) (l.loraA (slot - 1)) l.maxRank
      l.inFeatures x o = givenDelta l.inFeatures (given slot) x o := by
  obtain ⟨hholds, hfits⟩ := h slot hs hs'
  cases hw : given slot with
  | none => exact lowRank_none (hw ▸ hholds) x o
  | some w => exact lowRank_given hT (hw ▸ hholds) (hfits w hw) x ho

/-- What the grouped path adds to a token of a slot. -/
theorem grouped_given (hT : T.Exact) (h : l.Filled T given) {slot : ℕ} (hs : 1 ≤ slot)
    (hs' : slot ≤ l.numSlots) (outDtype : δ) (x out : ℕ → α) {o : ℕ}
    (ho : o < l.outFeatures) :
    l.addDelta T slot outDtype x out o = out o + givenDelta l.inFeatures (given slot) x o := by
  obtain ⟨hholds, hfits⟩ := h slot hs hs'
  cases hw : given slot with
  | none =>
      rw [(hw ▸ hholds : l.Holds T slot none).addDelta_eq]
      exact (add_zero _).symm
  | some w =>
      obtain ⟨ha, hb, -, hrank, hscaling⟩ := (hw ▸ hholds : l.Holds T slot (some w))
      have hfit := hfits w hw
      obtain ⟨hea, heb⟩ := entry_toDtype hT w l.dtype
      have hmax : ∀ r, r < w.rank → r < l.maxRank := fun r hr =>
        Nat.lt_of_lt_of_le hr hfit.2.2
      unfold LoRALinear.addDelta givenDelta lowRank
      simp only [hrank, hscaling, hT _ _]
      by_cases hzero : w.rank = 0
      · rw [if_pos hzero, hzero, Finset.sum_range_zero, mul_zero, add_zero]
      · rw [if_neg hzero, linear_eq_sum, mul_comm]
        refine congrArg (out o + w.scaling * ·) (Finset.sum_congr rfl fun r hr => ?_)
        have hr := Finset.mem_range.mp hr
        rw [hb o ho r (hmax r hr), if_pos hr, heb, mul_comm, linear_eq_sum]
        refine congrArg (w.b.entry o r * ·) (Finset.sum_congr rfl fun k hk => ?_)
        rw [ha r (hmax r hr) k (Finset.mem_range.mp hk), if_pos hr, hea, mul_comm]

end Token

/-! ## §3  A batch -/

section Batch

variable [CommSemiring α] [DecidableEq δ]

/-- The slots a context lists are those its tokens have. -/
def Describes (ctx : Context) (slots : List ℕ) : Prop :=
  ctx = .fromSlots slots ∨ ctx = .batch (.fromTokenSlots slots)

variable {ctx : Context} {slots : List ℕ}

theorem Describes.tokens (h : Describes ctx slots) : ctx.tokenLoraSlot = slots := by
  rcases h with rfl | rfl <;> rfl

theorem Describes.active (h : Describes ctx slots) :
    ctx.activeSlots = (slots.filter (· ≠ 0)).dedup.insertionSort (· ≤ ·) := by
  rcases h with rfl | rfl <;> rfl

theorem Describes.segments (h : Describes ctx slots) :
    ctx.loraSegments =
      ((LoRABatch.fromTokenSlots slots).order, (LoRABatch.fromTokenSlots slots).segments) := by
  rcases h with rfl | rfl <;> rfl

variable {T : Numerics δ α} {base : LinearBase δ α} {numSlots maxRank : ℕ}
  {P : Projection δ α} {given : ℕ → Option (LoRAWeights δ α)} {x : Tensor α}

/-- The grouped path. -/
theorem grouped_perToken (hT : T.Exact) (hwraps : Loaded.Wraps base numSlots maxRank P)
    (hfilled : P.Filled T given) (hlen : slots.length = x.rows)
    (hslots : ∀ s ∈ slots, s ≤ numSlots) (outDtype : δ) :
    PerToken base given slots x { base.forward x with
      entry := P.groupedDelta T outDtype (LoRABatch.fromTokenSlots slots).order
        (LoRABatch.fromTokenSlots slots).segments x.entry (base.forward x).entry } := by
  refine ⟨rfl, rfl, fun t ht o ho => ?_⟩
  obtain ⟨hkeys, hactive, hseg⟩ := LoRARegistry.fromTokenSlots_grouped slots
  change ∀ p ∈ (LoRABatch.fromTokenSlots slots).segments,
    _ = LoRABatch.positions slots p.1 at hseg
  have hnd : ((LoRABatch.fromTokenSlots slots).segments.map (·.1)).Nodup := by
    rw [hkeys]
    exact (List.perm_insertionSort _ _).nodup_iff.mpr (List.nodup_dedup _)
  have htlen : t < slots.length := hlen.symm ▸ ht
  have hmem : slots.getD t 0 ∈ slots := by
    rw [List.getD_eq_getElem _ _ htlen]
    exact List.getElem_mem htlen
  dsimp only
  rw [groupedDelta_apply outDtype hseg hnd x.entry _ htlen, hkeys]
  by_cases hzero : slots.getD t 0 = 0
  · rw [if_neg fun h => ((hactive _).mp h).1 hzero, if_pos hzero, add_zero]
  · rw [if_pos ((hactive _).mpr ⟨hzero, hmem⟩), if_neg hzero, ← hwraps.inFeatures]
    exact grouped_given hT hfilled (Nat.pos_of_ne_zero hzero)
      (hwraps.numSlots.symm ▸ hslots _ hmem) outDtype _ _ (hwraps.outFeatures.symm ▸ ho)

/-- The kernels. -/
theorem kernels_perToken (hT : T.Exact) (hwraps : Loaded.Wraps base numSlots maxRank P)
    (hfilled : P.Filled T given) (hx : x.cols = base.inFeatures)
    (hlen : slots.length = x.rows) (hslots : ∀ s ∈ slots, s ≤ numSlots) (outDtype : δ)
    {d : Device} (hd : d.tritonAvailable = true) (hrank : 1 ≤ P.maxRank)
    (s₁ : Schedule (shrinkGrid x.rows)) (s₂ : Schedule (expandGrid x.rows P.outFeatures)) :
    ∃ out, bgmvDelta T d outDtype x (base.forward x) P.stackA P.stackB P.loraScaling slots
      P.maxRank s₁ s₂ = .ok out ∧ PerToken base given slots x out := by
  obtain ⟨out, hok, hrows, hcols, hout⟩ := bgmvDelta_spec P.loraScaling (d := d)
    (a := P.stackA) (b := P.stackB) (y := base.forward x) hT outDtype hd
    (hwraps.inFeatures.trans hx.symm) rfl rfl rfl hwraps.outFeatures.symm hlen
    ⟨hrank, Nat.le_refl _⟩ s₁ s₂
  refine ⟨out, hok, hrows, hcols, fun t ht o ho => ?_⟩
  have htlen : t < slots.length := hlen.symm ▸ ht
  have hmem : slots.getD t 0 ∈ slots := by
    rw [List.getD_eq_getElem _ _ htlen]
    exact List.getElem_mem htlen
  have ho' : o < P.outFeatures := hwraps.outFeatures.symm ▸ ho
  rw [hout t ht o ho']
  by_cases hzero : slots.getD t 0 = 0
  · rw [if_pos hzero, if_pos hzero]
  · rw [if_neg hzero, if_neg hzero, hx, ← hwraps.inFeatures]
    exact congrArg (_ + ·) (kernel_given hT hfilled (Nat.pos_of_ne_zero hzero)
      (hwraps.numSlots.symm ▸ hslots _ hmem) _ ho')

theorem le_foldl_max {bound : ℕ} (xs : List ℕ) (h : ∀ y ∈ xs, y ≤ bound) {m : ℕ}
    (hm : m ≤ bound) : xs.foldl max m ≤ bound := by
  induction xs generalizing m with
  | nil => exact hm
  | cons y xs ih =>
      exact ih (fun z hz => h z (List.mem_cons_of_mem _ hz))
        (Nat.max_le.mpr ⟨hm, h y List.mem_cons_self⟩)

/-- In exact arithmetic, after any loads and clears, the grouped path, the kernels in any
order of their programs, and `forward` return for every token the base output plus the
delta of its own slot, and the base output for tokens of the base model. -/
theorem forward_per_token (float32 outDtype : δ) (base : LinearBase δ α)
    (numSlots maxRank bgmvMaxTokens : ℕ) (dtype : Option δ) (preferTriton : Bool)
    (calls : List (SlotCall δ α)) (d : Device) (x : Tensor α) (slots : List ℕ)
    (ctx : Context) (hctx : Describes ctx slots) (hx : x.cols = base.inFeatures)
    (hlen : slots.length = x.rows) (hslots : ∀ s ∈ slots, s ≤ numSlots) :
    let T : Numerics δ α := .exact float32
    let s := (Loaded.wrap base numSlots maxRank dtype bgmvMaxTokens preferTriton).run T calls
    ∀ (s₁ : Schedule (shrinkGrid x.rows)) (s₂ : Schedule (expandGrid x.rows s.layer.outFeatures)),
      (∃ out, s.layer.forward T d outDtype x (some ctx) s₁ s₂ = .ok out ∧
        PerToken base s.given slots x out) ∧
      PerToken base s.given slots x { base.forward x with
        entry := s.layer.groupedDelta T outDtype ctx.loraSegments.1 ctx.loraSegments.2 x.entry
          (base.forward x).entry } ∧
      (d.tritonAvailable = true → 1 ≤ maxRank →
        ∃ out, bgmvDelta T d outDtype x (base.forward x) s.layer.stackA s.layer.stackB
          s.layer.loraScaling ctx.tokenLoraSlot maxRank s₁ s₂ = .ok out ∧
          PerToken base s.given slots x out) := by
  intro T s s₁ s₂
  have hT : T.Exact := Numerics.exact_exact float32
  obtain ⟨hwraps, hfilled⟩ :=
    Loaded.run_filled hT base numSlots maxRank dtype bgmvMaxTokens preferTriton calls
  have hgrouped := grouped_perToken hT hwraps hfilled hlen hslots outDtype
  have hkernels := fun (hd : d.tritonAvailable = true) (hrank : 1 ≤ s.layer.maxRank) =>
    kernels_perToken hT hwraps hfilled hx hlen hslots outDtype hd hrank s₁ s₂
  have hbase : fLinear s.layer.inFeatures s.layer.outFeatures s.layer.weight s.layer.bias x =
      base.forward x := by
    rw [hwraps.inFeatures, hwraps.outFeatures, hwraps.weight, hwraps.bias]
    rfl
  refine ⟨?_, ?_, ?_⟩
  · unfold Projection.forward
    rw [if_neg (not_not.mpr (hx.trans hwraps.inFeatures.symm))]
    simp only [hbase]
    by_cases hnone : ctx.activeSlots = []
    · -- a context without adapters names the base model for every token
      rw [if_pos hnone]
      refine ⟨_, rfl, rfl, rfl, fun t ht o ho => ?_⟩
      have htlen : t < slots.length := hlen.symm ▸ ht
      have hzero : slots.getD t 0 = 0 := by
        by_contra hne
        have hmem : slots.getD t 0 ∈ ctx.activeSlots := by
          rw [hctx.active, List.mem_insertionSort, List.mem_dedup, List.mem_filter,
            List.getD_eq_getElem _ _ htlen]
          rw [List.getD_eq_getElem _ _ htlen] at hne
          exact ⟨List.getElem_mem htlen, decide_eq_true hne⟩
        rw [hnone] at hmem
        cases hmem
      rw [if_pos hzero, add_zero]
    · rw [if_neg hnone, hctx.tokens, if_neg (not_not.mpr hlen)]
      have hmax : ¬ ctx.activeSlots.foldl max 0 > s.layer.numSlots := by
        rw [hwraps.numSlots, not_lt]
        refine le_foldl_max _ (fun y hy => ?_) (Nat.zero_le _)
        rw [hctx.active, List.mem_insertionSort, List.mem_dedup] at hy
        exact hslots y (List.mem_of_mem_filter hy)
      unfold Projection.addDelta
      simp only [if_neg hmax]
      by_cases huse : (s.layer.preferTriton &&
          canUseBgmv d x.rows s.layer.maxRank s.layer.bgmvMaxTokens) = true
      · have hcan := huse
        simp only [canUseBgmv, Bool.and_eq_true, decide_eq_true_eq] at hcan
        obtain ⟨out, hok, hper⟩ := hkernels hcan.2.1.1.1.1 hcan.2.1.2.1
        rw [if_pos huse, hctx.tokens, hok]
        exact ⟨out, rfl, hper⟩
      · rw [if_neg huse, hctx.segments]
        exact ⟨_, rfl, hgrouped⟩
  · rw [hctx.segments]
    exact hgrouped
  · intro hd hrank
    rw [hctx.tokens, ← hwraps.maxRank]
    exact hkernels hd (hwraps.maxRank.symm ▸ hrank)

end Batch

/-- A projection of three inputs and two outputs. -/
def smallBase : LinearBase Unit ℤ :=
  ⟨"q_proj", 3, 2, (), fun o j => o - j, some fun o => 10 * o⟩

/-- Factors of rank 1. -/
def rankOne : LoRAWeights Unit ℤ :=
  ⟨(), ⟨1, 3, fun _ j => j + 1⟩, ⟨2, 1, fun o _ => o + 1⟩, 2, rfl⟩

theorem forward_per_token_mixed :
    let s := (Loaded.wrap smallBase 3 4 none 256 true).run (.exact ())
      [.load 2 rankOne, .load 1 rankOne, .clear 1]
    let x : Tensor ℤ := ⟨4, 3, fun t j => t + j⟩
    ∃ out, s.layer.forward (.exact ()) ⟨true, true, true⟩ () x (some (.fromSlots [2, 0, 1, 2]))
      .inOrder .inOrder = .ok out ∧ PerToken smallBase s.given [2, 0, 1, 2] x out :=
  (forward_per_token () () smallBase 3 4 256 none true
    [.load 2 rankOne, .load 1 rankOne, .clear 1] ⟨true, true, true⟩ ⟨4, 3, fun t j => t + j⟩
    [2, 0, 1, 2] _ (.inl rfl) rfl rfl (by decide) .inOrder .inOrder).1

end TurboServe.Lora
