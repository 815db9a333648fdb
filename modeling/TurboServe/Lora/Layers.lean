import Mathlib

/-!
# Adapters and stacked LoRA projections

`engine/lora/adapter.py` and `engine/lora/layers.py`: an adapter's factors, and a
projection with one row of stacked buffers for each slot. Scalars and dtypes are
arbitrary types; buffers are functions of their indices.
-/

namespace TurboServe.Lora

/-- What the calls raise. -/
inductive Fault : Type where
  | slotRange (layer : String) (slot numSlots : ℕ)
  | factorShape (layer : String) (aCols bRows inFeatures outFeatures : ℕ)
  | rankTooWide (layer : String) (rank maxRank : ℕ)
  | unknownModules (adapter : String) (modules : List String)
  | moduleShape (adapter module : String) (factors model : ℕ × ℕ)
  | alreadyRegistered (adapter : String)
  | adapterRank (adapter : String) (rank maxRank : ℕ)
  | untargeted (adapter : String) (modules : List String)
  | poolGeometry (layer : String) (layerPool registryPool : ℕ × ℕ)
  | unknownName (name : String)
  | unknownIds (ids : List ℤ)
  | tooManyAdapters (wanted numSlots : ℕ)
  | noSlotLeft (numSlots numPinned : ℕ)
  | pinned (adapter : ℤ)
  | missingKey (key : ℤ)
deriving DecidableEq

/-- `Tensor.to` on one entry, and the dtype the scalings are stored in. -/
structure Numerics (δ α : Type) where
  cast : δ → α → α
  float32 : δ

/-! ## §1  Adapters -/

/-- A matrix with its shape; entries outside it are never read. -/
structure Tensor (α : Type) where
  rows : ℕ
  cols : ℕ
  entry : ℕ → ℕ → α

/-- One projection's adapter: `a` is `[rank, in]`, `b` is `[out, rank]`. -/
structure LoRAWeights (δ α : Type) where
  dtype : δ
  a : Tensor α
  b : Tensor α
  scaling : α
  rank_eq : a.rows = b.cols

namespace LoRAWeights

variable {δ α : Type} [DecidableEq δ] (T : Numerics δ α) (w : LoRAWeights δ α)

def rank : ℕ := w.a.rows

def inFeatures : ℕ := w.a.cols

def outFeatures : ℕ := w.b.rows

def toDtype (dtype : δ) : LoRAWeights δ α :=
  if dtype = w.dtype then w
  else
    { w with
      dtype := dtype
      a := { w.a with entry := fun i j => T.cast dtype (w.a.entry i j) }
      b := { w.b with entry := fun i j => T.cast dtype (w.b.entry i j) } }

@[simp] theorem rank_toDtype (dtype : δ) : (w.toDtype T dtype).rank = w.rank := by
  unfold toDtype
  split <;> rfl

@[simp] theorem inFeatures_toDtype (dtype : δ) :
    (w.toDtype T dtype).inFeatures = w.inFeatures := by
  unfold toDtype
  split <;> rfl

@[simp] theorem outFeatures_toDtype (dtype : δ) :
    (w.toDtype T dtype).outFeatures = w.outFeatures := by
  unfold toDtype
  split <;> rfl

@[simp] theorem scaling_toDtype (dtype : δ) : (w.toDtype T dtype).scaling = w.scaling := by
  unfold toDtype
  split <;> rfl

end LoRAWeights

/-- A whole adapter: the factors of every projection it targets. -/
structure LoRAAdapter (δ α : Type) where
  name : String
  weights : List (String × LoRAWeights δ α)
  rank : ℕ
  name_ne : name ≠ ""
  weights_ne_nil : weights ≠ []
  keys_nodup : (weights.map (·.1)).Nodup

namespace LoRAAdapter

variable {δ α : Type} [DecidableEq δ] (T : Numerics δ α) (A : LoRAAdapter δ α)

/-- Module paths the adapter touches, sorted. -/
def modules : List String := (A.weights.map (·.1)).insertionSort (· ≤ ·)

def toDtype (dtype : δ) : LoRAAdapter δ α :=
  { A with
    weights := A.weights.map fun p => (p.1, p.2.toDtype T dtype)
    weights_ne_nil := by simpa using A.weights_ne_nil
    keys_nodup := by simpa [Function.comp_def] using A.keys_nodup }

/-- The factors against the model's projection shapes, strictly. -/
def validateAgainst (shapes : List (String × ℕ × ℕ)) : Except Fault Unit :=
  match A.modules.filter fun m => (shapes.lookup m).isNone with
  | [] => A.weights.forM fun (m, w) =>
      match shapes.lookup m with
      | none => .ok ()
      | some expected =>
          if (w.inFeatures, w.outFeatures) = expected then .ok ()
          else .error (.moduleShape A.name m (w.inFeatures, w.outFeatures) expected)
  | unknown => .error (.unknownModules A.name unknown)

end LoRAAdapter

/-! ## §2  Stacked projections -/

/-- A projection with `numSlots` stacked adapters; row `slot - 1` holds slot `slot`. -/
structure LoRALinear (δ α : Type) where
  name : String
  inFeatures : ℕ
  outFeatures : ℕ
  numSlots : ℕ
  maxRank : ℕ
  dtype : δ
  loraA : ℕ → ℕ → ℕ → α
  loraB : ℕ → ℕ → ℕ → α
  loraScaling : ℕ → α
  slotRank : ℕ → ℕ
  slotScaling : ℕ → α

namespace LoRALinear

variable {δ α : Type}

/-- The buffers a new layer allocates. -/
def new [Zero α] (name : String) (inFeatures outFeatures numSlots maxRank : ℕ)
    (dtype : δ) : LoRALinear δ α :=
  { name := name, inFeatures := inFeatures, outFeatures := outFeatures
    numSlots := numSlots, maxRank := maxRank, dtype := dtype
    loraA := fun _ _ _ => 0, loraB := fun _ _ _ => 0, loraScaling := fun _ => 0
    slotRank := fun _ => 0, slotScaling := fun _ => 0 }

variable (T : Numerics δ α) (l : LoRALinear δ α)

/-- Storage row of a 1-based slot. -/
def row (slot : ℕ) : Except Fault ℕ :=
  if 1 ≤ slot ∧ slot ≤ l.numSlots then .ok (slot - 1)
  else .error (.slotRange l.name slot l.numSlots)

/-- Overwrite the entries of one row of a stacked buffer that `p` selects. -/
def overwrite (buffer : ℕ → ℕ → ℕ → α) (row : ℕ) (p : ℕ → ℕ → Prop)
    [∀ i j, Decidable (p i j)] (value : ℕ → ℕ → α) : ℕ → ℕ → ℕ → α :=
  fun r i j => if r = row ∧ p i j then value i j else buffer r i j

variable [Zero α]

/-- Copy one adapter's factors into `slot`; what lies beyond its rank is zeroed. -/
def loadSlot (slot : ℕ) (w : LoRAWeights δ α) : Except Fault (LoRALinear δ α) :=
  match l.row slot with
  | .error e => .error e
  | .ok row =>
      if w.a.cols ≠ l.inFeatures ∨ w.b.rows ≠ l.outFeatures then
        .error (.factorShape l.name w.a.cols w.b.rows l.inFeatures l.outFeatures)
      else if w.rank > l.maxRank then .error (.rankTooWide l.name w.rank l.maxRank)
      else
        let a := overwrite l.loraA row (fun i _ => i < w.rank) w.a.entry
        let b := overwrite l.loraB row (fun _ i => i < w.rank) w.b.entry
        .ok { l with
          loraA := overwrite a row (fun i _ => w.rank ≤ i) fun _ _ => 0
          loraB := overwrite b row (fun _ i => w.rank ≤ i) fun _ _ => 0
          loraScaling := Function.update l.loraScaling row (T.cast T.float32 w.scaling)
          slotRank := Function.update l.slotRank row w.rank
          slotScaling := Function.update l.slotScaling row w.scaling }

/-- Zero a slot. -/
def clearSlot (slot : ℕ) : Except Fault (LoRALinear δ α) :=
  match l.row slot with
  | .error e => .error e
  | .ok row =>
      .ok { l with
        loraA := overwrite l.loraA row (fun _ _ => True) fun _ _ => 0
        loraB := overwrite l.loraB row (fun _ _ => True) fun _ _ => 0
        loraScaling := Function.update l.loraScaling row 0
        slotRank := Function.update l.slotRank row 0
        slotScaling := Function.update l.slotScaling row 0 }

section Delta

variable [Add α] [Mul α]

/-- One output of `F.linear` on `n` inputs. -/
def linear (n : ℕ) (x : ℕ → α) (weight : ℕ → ℕ → α) (o : ℕ) : α :=
  ((List.range n).map fun j => x j * weight o j).foldr (· + ·) 0

/-- The grouped path of `_add_delta` for one token of a slot's segment. -/
def addDelta (slot : ℕ) (outDtype : δ) (x out : ℕ → α) : ℕ → α :=
  let row := slot - 1
  let rank := l.slotRank row
  if rank = 0 then out
  else
    let shrunk := linear l.inFeatures x (l.loraA row)
    fun o => out o + T.cast outDtype (linear rank shrunk (l.loraB row) o * l.slotScaling row)

end Delta

/-! ## §3  What a slot holds -/

variable [DecidableEq δ]

/-- The factors `load_slot` accepts. -/
def Fits (w : LoRAWeights δ α) : Prop :=
  w.inFeatures = l.inFeatures ∧ w.outFeatures = l.outFeatures ∧ w.rank ≤ l.maxRank

/-- The slot holds exactly the zero-padded factors and the scaling of `w`, or zeros
when there are none. -/
def Holds (slot : ℕ) : Option (LoRAWeights δ α) → Prop
  | none =>
      (∀ i < l.maxRank, ∀ j < l.inFeatures, l.loraA (slot - 1) i j = 0) ∧
      (∀ o < l.outFeatures, ∀ i < l.maxRank, l.loraB (slot - 1) o i = 0) ∧
      l.loraScaling (slot - 1) = 0 ∧ l.slotRank (slot - 1) = 0 ∧
      l.slotScaling (slot - 1) = 0
  | some w =>
      (∀ i < l.maxRank, ∀ j < l.inFeatures, l.loraA (slot - 1) i j =
        if i < w.rank then (w.toDtype T l.dtype).a.entry i j else 0) ∧
      (∀ o < l.outFeatures, ∀ i < l.maxRank, l.loraB (slot - 1) o i =
        if i < w.rank then (w.toDtype T l.dtype).b.entry o i else 0) ∧
      l.loraScaling (slot - 1) = T.cast T.float32 w.scaling ∧
      l.slotRank (slot - 1) = w.rank ∧ l.slotScaling (slot - 1) = w.scaling

/-- The rows of other slots, and the shape of the layer. -/
structure SameElsewhere (slot : ℕ) (l l' : LoRALinear δ α) : Prop where
  name : l'.name = l.name
  inFeatures : l'.inFeatures = l.inFeatures
  outFeatures : l'.outFeatures = l.outFeatures
  numSlots : l'.numSlots = l.numSlots
  maxRank : l'.maxRank = l.maxRank
  dtype : l'.dtype = l.dtype
  loraA : ∀ r, r ≠ slot - 1 → l'.loraA r = l.loraA r
  loraB : ∀ r, r ≠ slot - 1 → l'.loraB r = l.loraB r
  loraScaling : ∀ r, r ≠ slot - 1 → l'.loraScaling r = l.loraScaling r
  slotRank : ∀ r, r ≠ slot - 1 → l'.slotRank r = l.slotRank r
  slotScaling : ∀ r, r ≠ slot - 1 → l'.slotScaling r = l.slotScaling r

variable {T l}

omit [Zero α] [DecidableEq δ] in
theorem row_of_mem {slot : ℕ} (h : 1 ≤ slot ∧ slot ≤ l.numSlots) :
    l.row slot = .ok (slot - 1) := if_pos h

omit [Zero α] in
theorem overwrite_of_ne {buffer : ℕ → ℕ → ℕ → α} {row r : ℕ} {p : ℕ → ℕ → Prop}
    [∀ i j, Decidable (p i j)] {value : ℕ → ℕ → α} (h : r ≠ row) :
    overwrite buffer row p value r = buffer r := by
  funext i j
  exact if_neg fun hr => h hr.1

omit [Zero α] in
theorem overwrite_self {buffer : ℕ → ℕ → ℕ → α} {row : ℕ} {p : ℕ → ℕ → Prop}
    [∀ i j, Decidable (p i j)] {value : ℕ → ℕ → α} (i j : ℕ) :
    overwrite buffer row p value row i j = if p i j then value i j else buffer row i j := by
  simp only [overwrite, true_and]

omit [Zero α] in
theorem overwrite_all (buffer : ℕ → ℕ → ℕ → α) (row : ℕ) (value : ℕ → ℕ → α) :
    overwrite buffer row (fun _ _ => True) value row = value := by
  funext i j
  rw [overwrite_self, if_pos trivial]

/-- Copying up to the rank and zeroing from it on pads with zeros. -/
theorem padded (buffer : ℕ → ℕ → ℕ → α) (row n : ℕ) (value : ℕ → ℕ → α)
    (key : ℕ → ℕ → ℕ) (i j : ℕ) :
    overwrite (overwrite buffer row (fun i j => key i j < n) value) row
      (fun i j => n ≤ key i j) (fun _ _ => 0) row i j =
      if key i j < n then value i j else 0 := by
  rw [overwrite_self, overwrite_self]
  by_cases h : key i j < n
  · rw [if_neg (Nat.not_le_of_lt h), if_pos h, if_pos h]
  · rw [if_pos (Nat.le_of_not_lt h), if_neg h]

omit [DecidableEq δ] in
theorem clearSlot_spec {slot : ℕ} (h : 1 ≤ slot ∧ slot ≤ l.numSlots) :
    ∃ l', l.clearSlot slot = .ok l' ∧ SameElsewhere slot l l' ∧
      l'.loraA (slot - 1) = (fun _ _ => 0) ∧ l'.loraB (slot - 1) = (fun _ _ => 0) ∧
      l'.loraScaling (slot - 1) = 0 ∧ l'.slotRank (slot - 1) = 0 ∧
      l'.slotScaling (slot - 1) = 0 := by
  unfold clearSlot
  rw [row_of_mem h]
  refine ⟨_, rfl, ⟨rfl, rfl, rfl, rfl, rfl, rfl, ?_, ?_, ?_, ?_, ?_⟩, ?_, ?_, ?_, ?_, ?_⟩
  · exact fun r hr => overwrite_of_ne hr
  · exact fun r hr => overwrite_of_ne hr
  · exact fun r hr => Function.update_of_ne hr _ _
  · exact fun r hr => Function.update_of_ne hr _ _
  · exact fun r hr => Function.update_of_ne hr _ _
  · exact overwrite_all ..
  · exact overwrite_all ..
  · exact Function.update_self ..
  · exact Function.update_self ..
  · exact Function.update_self ..

theorem clearSlot_holds {slot : ℕ} (h : 1 ≤ slot ∧ slot ≤ l.numSlots) :
    ∃ l', l.clearSlot slot = .ok l' ∧ SameElsewhere slot l l' ∧ l'.Holds T slot none := by
  obtain ⟨l', hok, hsame, ha, hb, hs, hr, hss⟩ := clearSlot_spec h
  refine ⟨l', hok, hsame, ?_, ?_, hs, hr, hss⟩
  · intro i _ j _
    rw [ha]
  · intro o _ i _
    rw [hb]

/-- What `_load` moves into a slot is what the slot then holds. -/
theorem loadSlot_holds {slot : ℕ} {w : LoRAWeights δ α}
    (h : 1 ≤ slot ∧ slot ≤ l.numSlots) (hfit : l.Fits w) :
    ∃ l', l.loadSlot T slot (w.toDtype T l.dtype) = .ok l' ∧ SameElsewhere slot l l' ∧
      l'.Holds T slot (some w) := by
  obtain ⟨hin, hout, hrank⟩ := hfit
  have hshape : ¬ ((w.toDtype T l.dtype).a.cols ≠ l.inFeatures ∨
      (w.toDtype T l.dtype).b.rows ≠ l.outFeatures) := by
    rw [not_or, not_not, not_not]
    exact ⟨(w.inFeatures_toDtype T l.dtype).trans hin,
      (w.outFeatures_toDtype T l.dtype).trans hout⟩
  have hr : ¬ (w.toDtype T l.dtype).rank > l.maxRank := by
    rw [w.rank_toDtype T l.dtype]
    exact Nat.not_lt_of_le hrank
  unfold loadSlot
  rw [row_of_mem h]
  simp only [if_neg hshape, if_neg hr]
  refine ⟨_, rfl, ⟨rfl, rfl, rfl, rfl, rfl, rfl, ?_, ?_, ?_, ?_, ?_⟩, ?_, ?_, ?_, ?_, ?_⟩
  · exact fun r hr => (overwrite_of_ne hr).trans (overwrite_of_ne hr)
  · exact fun r hr => (overwrite_of_ne hr).trans (overwrite_of_ne hr)
  · exact fun r hr => Function.update_of_ne hr _ _
  · exact fun r hr => Function.update_of_ne hr _ _
  · exact fun r hr => Function.update_of_ne hr _ _
  · intro i _ j _
    simpa using padded l.loraA (slot - 1) (w.toDtype T l.dtype).rank _ (fun i _ => i) i j
  · intro o _ i _
    simpa using padded l.loraB (slot - 1) (w.toDtype T l.dtype).rank _ (fun _ i => i) o i
  · simp
  · simp
  · simp

/-- Writing one slot leaves what another holds. -/
theorem Holds.elsewhere {slot s : ℕ} {l' : LoRALinear δ α} {w : Option (LoRAWeights δ α)}
    (h : l.Holds T s w) (hsame : SameElsewhere slot l l') (hs : s - 1 ≠ slot - 1) :
    l'.Holds T s w := by
  cases w with
  | none =>
      simpa only [Holds, hsame.inFeatures, hsame.outFeatures, hsame.maxRank,
        hsame.loraA _ hs, hsame.loraB _ hs, hsame.loraScaling _ hs, hsame.slotRank _ hs,
        hsame.slotScaling _ hs] using h
  | some w =>
      simpa only [Holds, hsame.inFeatures, hsame.outFeatures, hsame.maxRank, hsame.dtype,
        hsame.loraA _ hs, hsame.loraB _ hs, hsame.loraScaling _ hs, hsame.slotRank _ hs,
        hsame.slotScaling _ hs] using h

/-- A slot without factors adds nothing to any output. -/
theorem Holds.addDelta_eq [Add α] [Mul α] {slot : ℕ} (h : l.Holds T slot none)
    (outDtype : δ) (x out : ℕ → α) : l.addDelta T slot outDtype x out = out := by
  unfold addDelta
  simp only [h.2.2.2.1, if_true]

/-- A new layer holds nothing in any slot. -/
theorem new_holds (name : String) (inFeatures outFeatures numSlots maxRank : ℕ)
    (dtype : δ) (slot : ℕ) :
    (new name inFeatures outFeatures numSlots maxRank dtype : LoRALinear δ α).Holds T slot
      none :=
  ⟨fun _ _ _ _ => rfl, fun _ _ _ _ => rfl, rfl, rfl, rfl⟩

end LoRALinear

end TurboServe.Lora
