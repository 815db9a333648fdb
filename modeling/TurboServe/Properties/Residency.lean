import TurboServe.Lora.Residency

/-!
# LoRA residency

In every run whose calls do not attach a layer behind a resident adapter's back and
do not move factors a layer refuses, the slots, the layers and the contexts of the
registry are sound. Both conditions are needed.
-/

namespace TurboServe.Lora

open LoRARegistry

variable {δ α : Type} [DecidableEq δ] [Zero α] [Add α] [Mul α]

/-- The registry between two calls. -/
structure Sound (T : Numerics δ α) (r : LoRARegistry δ α) : Prop where
  inverse : ∀ a s, r.slotOf a = some s ↔ r.adapterOf s = some a
  mem_lru : ∀ a, a ∈ r.lru ↔ r.slotOf a ≠ none
  lru_nodup : r.lru.Nodup
  mem_free : ∀ s, s ∈ r.freeSlots ↔ (1 ≤ s ∧ s ≤ r.numSlots) ∧ r.adapterOf s = none
  free_nodup : r.freeSlots.Nodup
  pinned : ∀ a ∈ r.pinned, r.slotOf a ≠ none
  range : ∀ s a, r.adapterOf s = some a → 1 ≤ s ∧ s ≤ r.numSlots
  known : ∀ a, r.slotOf a ≠ none → ∃ A, r.adapters.lookup a = some A
  holds : ∀ a s A, r.slotOf a = some s → r.adapters.lookup a = some A →
    ∀ p ∈ r.layers, p.2.Holds T s (A.weights.lookup p.1)
  silent : ∀ a s A, r.slotOf a = some s → r.adapters.lookup a = some A →
    ∀ p ∈ r.layers, A.weights.lookup p.1 = none →
      ∀ outDtype x out, p.2.addDelta T s outDtype x out = out

theorem Sound.of_kept {T : Numerics δ α} {r : LoRARegistry δ α} (h : Kept T r) :
    Sound T r := by
  refine ⟨h.books.inverse, h.books.mem_lru, h.books.lru_nodup, fun s => ?_,
    h.books.free_nodup, h.books.pinned, h.books.range, h.books.known, h.contents, ?_⟩
  · rw [h.books.mem_free]
    simp
  · intro a s A ha hA p hp hnone outDtype x out
    have hheld := h.contents a s A ha hA p hp
    rw [hnone] at hheld
    exact hheld.addDelta_eq outDtype x out

/-- Every state of such a run is sound, and so is the context any step builds in it. -/
theorem residency_sound (T : Numerics δ α) (numSlots maxRank : ℕ) (dtype : Option δ)
    (hn : 1 ≤ numSlots) (hr : 1 ≤ maxRank) (ops : List (Op δ α))
    (hops : AllowedRun T (.new numSlots maxRank dtype hn hr) ops) :
    let r := run T (.new numSlots maxRank dtype hn hr) ops
    Sound T r ∧
    ∀ items, r.Loadable (tokenLoraIds items) →
      Sound T (r.buildContext T items).2 ∧
      ∀ ctx, (r.buildContext T items).1 = .ok ctx →
        ContextOf (r.buildContext T items).2 (tokenLoraIds items) ctx := by
  intro r
  have hk : Kept T r := (Kept.new numSlots maxRank dtype hn hr).run hops
  refine ⟨.of_kept hk, fun items hload => ?_⟩
  obtain ⟨hk', hctx⟩ := buildContext_spec hk hload
  exact ⟨.of_kept hk', hctx⟩

/-! ## Two adapters in one slot -/

/-- Integers for scalars and one dtype. -/
def integers : Numerics Unit ℤ := ⟨fun _ x => x, ()⟩

/-- An adapter of rank 1 on one projection, every factor `x`. -/
def uniform (name projection : String) (cols rows : ℕ) (x : ℤ) (h : name ≠ "") :
    LoRAAdapter Unit ℤ :=
  { name := name, rank := 1
    weights := [(projection, ⟨(), ⟨1, cols, fun _ _ => x⟩, ⟨rows, 1, fun _ _ => x⟩, 1, rfl⟩)]
    name_ne := h, weights_ne_nil := nofun, keys_nodup := List.nodup_singleton _ }

def oneSlot : LoRARegistry Unit ℤ := .new 1 1 none Nat.one_pos Nat.one_pos

def queryLayer : LoRALinear Unit ℤ := .new "q" 1 1 1 1 ()

/-- Two adapters take turns in the only slot. -/
def takeTurns : List (Op Unit ℤ) :=
  [.attach "q" queryLayer, .registerAdapter (uniform "a" "q" 1 1 2 (by decide)),
    .registerAdapter (uniform "b" "q" 1 1 3 (by decide)), .activate [1],
    .buildContext [(2, 3), (0, 1)]]

theorem fitsAll_of_shapes {r : LoRARegistry Unit ℤ}
    (hl : ∀ p ∈ r.layers, p.2.inFeatures = 1 ∧ p.2.outFeatures = 1 ∧ p.2.maxRank = 1)
    (hA : ∀ q ∈ r.adapters, ∀ p ∈ q.2.weights,
      p.2.inFeatures = 1 ∧ p.2.outFeatures = 1 ∧ p.2.rank = 1) (a : ℤ) : r.FitsAll a := by
  intro A hlook p hp w hw
  obtain ⟨hi, ho, hr⟩ := hA (a, A) (Lib.mem_of_lookup hlook) (p.1, w) (Lib.mem_of_lookup hw)
  obtain ⟨hi', ho', hr'⟩ := hl p hp
  exact ⟨hi.trans hi'.symm, ho.trans ho'.symm, (hr.trans hr'.symm).le⟩

/-- `residency_sound` at a run that evicts one adapter for the other. -/
theorem residency_sound_takeTurns :
    let r := run integers oneSlot takeTurns
    Sound integers r ∧ r.slotOf 2 = some 1 ∧ r.slotOf 1 = none ∧
      ∀ items, r.Loadable (tokenLoraIds items) →
        Sound integers (r.buildContext integers items).2 ∧
        ∀ ctx, (r.buildContext integers items).1 = .ok ctx →
          ContextOf (r.buildContext integers items).2 (tokenLoraIds items) ctx := by
  have hallowed : AllowedRun integers oneSlot takeTurns :=
    ⟨fun _ _ a s A ha => (nomatch ha), trivial, trivial,
      fun _ _ a _ => fitsAll_of_shapes (by decide +kernel) (by decide +kernel) a,
      fun _ _ a _ => fitsAll_of_shapes (by decide +kernel) (by decide +kernel) a, trivial⟩
  have h := residency_sound integers 1 1 none (by decide) (by decide) takeTurns hallowed
  exact ⟨h.1, by decide +kernel, by decide +kernel, h.2⟩

/-! ## The two ways to go wrong -/

/-- A layer attached after an adapter it is targeted by became resident. -/
def lateLayer : List (Op Unit ℤ) :=
  [.registerAdapter (uniform "a" "q" 1 1 2 (by decide)), .activate [1],
    .attach "q" queryLayer]

/-- An adapter whose factors the layer refuses, registered before any model is bound. -/
def wideAdapter : List (Op Unit ℤ) :=
  [.attach "q" queryLayer, .registerAdapter (uniform "a" "q" 2 1 2 (by decide)),
    .activate [1]]

/-- The late layer holds zeros for the resident adapter, and the slot of the load that
raised is neither free nor occupied. -/
theorem residency_unsound :
    ¬ Sound integers (run integers oneSlot lateLayer) ∧
    ¬ Sound integers (run integers oneSlot wideAdapter) := by
  constructor
  · intro h
    have hzero := (h.holds 1 1 (uniform "a" "q" 1 1 2 (by decide)) rfl rfl
      ("q", queryLayer) (List.mem_singleton_self _)).1 0 (by decide) 0 (by decide)
    exact absurd hzero (by decide)
  · intro h
    have hfree := (h.mem_free 1).mpr ⟨by decide, by decide +kernel⟩
    exact absurd hfree (by decide +kernel)

end TurboServe.Lora
