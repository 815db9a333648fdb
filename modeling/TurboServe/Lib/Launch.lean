import Mathlib.Algebra.BigOperators.Group.Finset.Basic
import Mathlib.Algebra.BigOperators.Intervals
import Mathlib.Algebra.Order.Floor.Div
import Mathlib.Data.Nat.Size

/-!
# Programs of a grid

A launch runs one program for each index of a grid over one flat memory, in an order
nobody promises. Programs that write apart from each other, each cell from its own old
value only, leave the same memory in every order. Beside that: masked loads and stores,
and loops over tiles that may stick out of the range they cover.
-/

namespace TurboServe.Lib

/-! ## §1  Masked loads and stores -/

section Lanes

variable {α κ ι : Type*}

/-- One lane of a masked load. -/
def load (m : κ → α) (addr : κ) (mask : Prop) [Decidable mask] (other : α) : α :=
  if mask then m addr else other

/-- A masked store, lane after lane. -/
def store [DecidableEq κ] (lanes : List ι) (addr : ι → κ) (mask : ι → Prop)
    [DecidablePred mask] (value : ι → α) (m : κ → α) : κ → α :=
  lanes.foldl (fun m i => if mask i then Function.update m (addr i) (value i) else m) m

variable [DecidableEq κ] (addr : ι → κ) (mask : ι → Prop) [DecidablePred mask] (value : ι → α)

/-- A cell no unmasked lane names keeps its value. -/
theorem store_of_not_mem (lanes : List ι) (m : κ → α) {a : κ}
    (h : ∀ i ∈ lanes, mask i → addr i ≠ a) : store lanes addr mask value m a = m a := by
  induction lanes generalizing m with
  | nil => rfl
  | cons i lanes ih =>
      have hrest := ih (if mask i then Function.update m (addr i) (value i) else m)
        fun j hj => h j (List.mem_cons_of_mem _ hj)
      refine hrest.trans ?_
      by_cases hi : mask i
      · rw [if_pos hi, Function.update_of_ne (h i List.mem_cons_self hi).symm]
      · rw [if_neg hi]

/-- A cell one unmasked lane names gets that lane's value. -/
theorem store_of_mem (lanes : List ι) (m : κ → α) {i : ι} (hi : i ∈ lanes) (hmask : mask i)
    (hinj : ∀ j ∈ lanes, mask j → addr j = addr i → j = i) :
    store lanes addr mask value m (addr i) = value i := by
  induction lanes generalizing m with
  | nil => cases hi
  | cons j lanes ih =>
      by_cases hrest : i ∈ lanes
      · exact ih _ hrest fun k hk => hinj k (List.mem_cons_of_mem _ hk)
      · obtain rfl : i = j := (List.mem_cons.mp hi).resolve_right hrest
        have hlast := store_of_not_mem addr mask value lanes
          (if mask i then Function.update m (addr i) (value i) else m) (a := addr i) (by
            intro k hk hmk hka
            exact hrest (hinj k (List.mem_cons_of_mem _ hk) hmk hka ▸ hk))
        refine hlast.trans ?_
        rw [if_pos hmask, Function.update_self]

end Lanes

/-! ## §2  Launches -/

section Launches

variable {α κ ι : Type*}

/-- The order in which the programs of a grid happen to run. -/
structure Schedule (grid : List ι) where
  order : List ι
  perm : order.Perm grid

/-- The grid's own order. -/
def Schedule.inOrder {grid : List ι} : Schedule grid := ⟨grid, .refl _⟩

/-- Run the programs of a launch. -/
def launch (body : ι → (κ → α) → κ → α) (order : List ι) (m : κ → α) : κ → α :=
  order.foldl (fun m p => body p m) m

/-- Each program `p` of the grid writes the cells `W p`, each from its own old value, and
no others. -/
structure Footprint (grid : List ι) (body : ι → (κ → α) → κ → α) (W : ι → Set κ)
    (value : ι → κ → α → α) : Prop where
  writes : ∀ p ∈ grid, ∀ m, ∀ a ∈ W p, body p m a = value p a (m a)
  keeps : ∀ p ∈ grid, ∀ m, ∀ a ∉ W p, body p m a = m a

namespace Footprint

variable {grid : List ι} {body : ι → (κ → α) → κ → α} {W : ι → Set κ}
  {value : ι → κ → α → α}

theorem tail {p : ι} (h : Footprint (p :: grid) body W value) : Footprint grid body W value :=
  ⟨fun q hq => h.writes q (List.mem_cons_of_mem _ hq),
    fun q hq => h.keeps q (List.mem_cons_of_mem _ hq)⟩

/-- A cell outside every footprint keeps its value. -/
theorem launch_keeps (h : Footprint grid body W value) (m : κ → α) {a : κ}
    (ha : ∀ p ∈ grid, a ∉ W p) : launch body grid m a = m a := by
  induction grid generalizing m with
  | nil => rfl
  | cons p grid ih =>
      have hrest := ih h.tail (body p m) fun q hq => ha q (List.mem_cons_of_mem _ hq)
      exact hrest.trans (h.keeps p List.mem_cons_self m a (ha p List.mem_cons_self))

/-- A cell of one program's footprint alone is written once. -/
theorem launch_writes (h : Footprint grid body W value) (hnd : grid.Nodup) (m : κ → α) {p : ι}
    {a : κ} (hp : p ∈ grid) (ha : a ∈ W p) (hothers : ∀ q ∈ grid, a ∈ W q → q = p) :
    launch body grid m a = value p a (m a) := by
  induction grid generalizing m with
  | nil => cases hp
  | cons q grid ih =>
      obtain ⟨hq, hnd'⟩ := List.nodup_cons.mp hnd
      by_cases hrest : p ∈ grid
      · have hqp : a ∉ W q := fun haq => hq (hothers q List.mem_cons_self haq ▸ hrest)
        have hlater := ih h.tail hnd' (body q m) hrest
          fun r hr => hothers r (List.mem_cons_of_mem _ hr)
        refine hlater.trans ?_
        rw [h.keeps q List.mem_cons_self m a hqp]
      · obtain rfl : p = q := (List.mem_cons.mp hp).resolve_right hrest
        have hlater := h.tail.launch_keeps (body p m) (a := a) fun r hr har =>
          hrest (hothers r (List.mem_cons_of_mem _ hr) har ▸ hr)
        exact hlater.trans (h.writes p List.mem_cons_self m a ha)

theorem perm (h : Footprint grid body W value) {order : List ι} (hperm : order.Perm grid) :
    Footprint order body W value :=
  ⟨fun p hp => h.writes p (hperm.mem_iff.mp hp), fun p hp => h.keeps p (hperm.mem_iff.mp hp)⟩

/-- Whatever the order, a cell of one program's footprint alone is written once. -/
theorem writes_in_any_order (h : Footprint grid body W value) (hnd : grid.Nodup)
    (s : Schedule grid) (m : κ → α) {p : ι} {a : κ} (hp : p ∈ grid) (ha : a ∈ W p)
    (hothers : ∀ q ∈ grid, a ∈ W q → q = p) :
    launch body s.order m a = value p a (m a) :=
  (h.perm s.perm).launch_writes (s.perm.nodup_iff.mpr hnd) m (s.perm.mem_iff.mpr hp) ha
    fun q hq => hothers q (s.perm.mem_iff.mp hq)

/-- Whatever the order, a cell outside every footprint keeps its value. -/
theorem keeps_in_any_order (h : Footprint grid body W value) (s : Schedule grid) (m : κ → α)
    {a : κ} (ha : ∀ p ∈ grid, a ∉ W p) : launch body s.order m a = m a :=
  (h.perm s.perm).launch_keeps m fun p hp => ha p (s.perm.mem_iff.mp hp)

end Footprint

end Launches

/-! ## §3  Rows and tiles -/

theorem row_of_address {i j n : ℕ} (h : j < n) : (i * n + j) / n = i := by
  rw [Nat.mul_comm, Nat.mul_add_div (Nat.zero_lt_of_lt h), Nat.div_eq_of_lt h, Nat.add_zero]

theorem col_of_address {i j n : ℕ} (h : j < n) : (i * n + j) % n = j := by
  rw [Nat.mul_comm, Nat.mul_add_mod, Nat.mod_eq_of_lt h]

theorem address_inj {i j i' j' n : ℕ} (h : j < n) (h' : j' < n)
    (heq : i * n + j = i' * n + j') : i = i' ∧ j = j' := by
  constructor
  · rw [← row_of_address (i := i) h, heq, row_of_address h']
  · rw [← col_of_address (i := i) h, heq, col_of_address h']

/-- `range(0, n, block)`. -/
def tiles (n block : ℕ) : List ℕ := (List.range (n ⌈/⌉ block)).map (· * block)

/-- The smallest power of two at least `value`, and `1` for none. -/
def nextPowerOfTwo (value : ℕ) : ℕ := if value ≤ 1 then 1 else 1 <<< (value - 1).size

theorem le_nextPowerOfTwo (value : ℕ) : value ≤ nextPowerOfTwo value := by
  unfold nextPowerOfTwo
  split
  · assumption
  · have h := Nat.lt_size_self (value - 1)
    rw [Nat.one_shiftLeft]
    omega

theorem nextPowerOfTwo_pos (value : ℕ) : 0 < nextPowerOfTwo value := by
  unfold nextPowerOfTwo
  split
  · exact Nat.one_pos
  · rw [Nat.one_shiftLeft]
    exact Nat.two_pow_pos _

section Sums

variable {α : Type*} [AddCommMonoid α]

/-- Lanes past the range contribute nothing. -/
theorem sum_lanes {n block : ℕ} (h : n ≤ block) (f : ℕ → α) :
    ∑ i ∈ Finset.range block, (if i < n then f i else 0) = ∑ i ∈ Finset.range n, f i := by
  rw [← Finset.sum_filter]
  congr 1
  ext i
  rw [Finset.mem_filter, Finset.mem_range, Finset.mem_range]
  omega

/-- The first `c` tiles cover the range up to `c * block`. -/
theorem sum_first_tiles (n block c : ℕ) (f : ℕ → α) :
    ((List.range c).map fun t => ∑ i ∈ Finset.range block,
      if t * block + i < n then f (t * block + i) else 0).sum =
      ∑ k ∈ Finset.range (c * block), if k < n then f k else 0 := by
  induction c with
  | zero => simp
  | succ c ih =>
      rw [List.range_succ, List.map_append, List.sum_append, ih, List.map_singleton,
        List.sum_singleton, Nat.succ_mul, Finset.sum_range_add]

/-- The tiles of a range cover each index once, the last one masked. -/
theorem sum_tiles {block : ℕ} (hblock : 0 < block) (n : ℕ) (f : ℕ → α) :
    ((tiles n block).map fun start => ∑ i ∈ Finset.range block,
      if start + i < n then f (start + i) else 0).sum = ∑ k ∈ Finset.range n, f k := by
  have hcover : n ≤ n ⌈/⌉ block * block := by
    rw [Nat.mul_comm]
    exact le_smul_ceilDiv hblock
  unfold tiles
  rw [List.map_map]
  exact (sum_first_tiles n block _ f).trans (sum_lanes hcover f)

/-- A running sum over a list. -/
theorem foldl_add_eq_sum {ι : Type*} (xs : List ι) (f : ι → ℕ → α) (r : ℕ) (acc : ℕ → α) :
    xs.foldl (fun acc x r => acc r + f x r) acc r = acc r + (xs.map fun x => f x r).sum := by
  induction xs generalizing acc with
  | nil => exact (add_zero _).symm
  | cons x xs ih => rw [List.foldl_cons, ih, List.map_cons, List.sum_cons, add_assoc]

end Sums

end TurboServe.Lib
