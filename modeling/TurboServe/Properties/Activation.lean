import TurboServe.Properties.Residency

/-!
# Activation: all or nothing

When making a working set resident succeeds exactly if it can, and leaves the residency
alone if it cannot.
-/

namespace TurboServe.Lora.LoRARegistry

variable {δ α : Type} [DecidableEq δ] [Zero α] {T : Numerics δ α}

/-! ## §1  What activation promises -/

/-- Slot maps, LRU order, free list, pins and slot contents are the same. -/
structure SameResidency (r r' : LoRARegistry δ α) : Prop where
  slotOf : r'.slotOf = r.slotOf
  adapterOf : r'.adapterOf = r.adapterOf
  lru : r'.lru = r.lru
  freeSlots : r'.freeSlots = r.freeSlots
  pinned : r'.pinned = r.pinned
  layers : r'.layers = r.layers

/-- The adapters a call needs in slots: the requested ones (but for the base model's id)
and the pinned ones. -/
def needed (r : LoRARegistry δ α) (ids : List ℤ) : Finset ℤ :=
  (wanted ids).toFinset ∪ r.pinned

/-- `activate` succeeds exactly if what it needs fits the pool, answers with the slots,
evicts nothing it needs, and changes no residency when it raises. -/
structure Activates (T : Numerics δ α) (r : LoRARegistry δ α) (ids : List ℤ) : Prop where
  succeeds : (∃ m, (r.activate T ids).1 = .ok m) ↔ (r.needed ids).card ≤ r.numSlots
  answers : ∀ m, (r.activate T ids).1 = .ok m → (∀ p ∈ m, p.1 ∈ ids) ∧
    ∀ a ∈ ids, a ≠ noLora → ∃ s, m.lookup a = some s ∧ (r.activate T ids).2.slotOf a = some s
  keeps : ∀ m, (r.activate T ids).1 = .ok m → ∀ a ∈ r.needed ids, ∀ s,
    r.slotOf a = some s → (r.activate T ids).2.slotOf a = some s
  atomic : ∀ e, (r.activate T ids).1 = .error e → SameResidency r (r.activate T ids).2

/-- Either there is a slot for every miss, and its factors fit; or the call is turned away
at its first check, or it finds no slot for its first miss and its hits are the last ones
used already, in the order of their ids. -/
def Decided (r : LoRARegistry δ α) (ids : List ℤ) : Prop :=
  ((r.misses (wanted ids)).length ≤ r.available (wanted ids) ∧
      ∀ a ∈ r.misses (wanted ids), r.FitsAll a) ∨
    r.numSlots < (r.needed ids).card ∧
      (r.numSlots < (wanted ids).length ∨
        r.available (wanted ids) = 0 ∧
          ((r.hits (wanted ids)).map (·.1)).foldl moveToEnd r.lru = r.lru)

/-! ## §2  The three ends of a call -/

variable {r : LoRARegistry δ α} {ids : List ℤ}

omit [DecidableEq δ] [Zero α] in
theorem length_wanted_le (r : LoRARegistry δ α) (ids : List ℤ) :
    (wanted ids).length ≤ (r.needed ids).card := by
  rw [← List.toFinset_card_of_nodup (nodup_wanted ids)]
  exact Finset.card_le_card Finset.subset_union_left

/-- More adapters than slots: turned away. -/
theorem activates_tooMany (hknown : ∀ a ∈ wanted ids, r.adapters.lookup a ≠ none)
    (hlen : r.numSlots < (wanted ids).length) : Activates T r ids := by
  have hact : r.activate T ids =
      (.error (.tooManyAdapters (wanted ids).length r.numSlots), r) := by
    have hne : wanted ids ≠ [] := by
      intro hnil
      rw [hnil] at hlen
      exact absurd hlen (Nat.not_lt_zero _)
    have hnil : ((wanted ids).filter fun a => (r.adapters.lookup a).isNone) = [] := by
      refine List.filter_eq_nil_iff.mpr fun a ha hn => ?_
      exact hknown a ha (Option.isNone_iff_eq_none.mp hn)
    unfold activate
    simp only [hnil, if_neg hne, if_pos hlen]
  have hcard := length_wanted_le r ids
  constructor
  · rw [hact]
    refine iff_of_false ?_ (by omega)
    rintro ⟨m, hm⟩
    cases hm
  · rw [hact]
    intro m hm
    cases hm
  · rw [hact]
    intro m hm
    cases hm
  · rw [hact]
    exact fun e _ => ⟨rfl, rfl, rfl, rfl, rfl, rfl⟩

/-- What the loop over the misses does after the hits are touched. -/
theorem loadAll_touched (T : Numerics δ α) (h : Ledger r)
    (hknown : ∀ a ∈ wanted ids, r.adapters.lookup a ≠ none)
    (hlen : (wanted ids).length ≤ r.numSlots) (hne : wanted ids ≠ []) :
    let touched := { r with lru := ((r.hits (wanted ids)).map (·.1)).foldl moveToEnd r.lru }
    Keeps (wanted ids) touched (r.activate T ids).2 ∧
      ((∃ m, (r.activate T ids).1 = .ok m) ↔
        (r.misses (wanted ids)).length ≤ r.available (wanted ids) ∧
          ∀ a ∈ r.misses (wanted ids), r.FitsAll a) ∧
      ∀ m, (r.activate T ids).1 = .ok m → ∃ loaded,
        m = r.hits (wanted ids) ++ loaded ∧ loaded.map (·.1) = r.misses (wanted ids) ∧
          ∀ p ∈ loaded, (r.activate T ids).2.slotOf p.1 = some p.2 := by
  intro touched
  rw [activate_eq T hknown hlen, if_neg hne]
  have hperm := h.perm_hits (wanted ids)
  obtain ⟨hk, hok, hm⟩ := (h.touch hperm).loadAll T (r.hits (wanted ids))
    ((nodup_wanted ids).filter _) (misses_todo hknown)
  rw [available_touch hperm] at hok
  exact ⟨hk, hok, hm⟩

/-- Room and fitting factors: the call succeeds. -/
theorem activates_room (h : Ledger r)
    (hknown : ∀ a ∈ wanted ids, r.adapters.lookup a ≠ none)
    (hlen : (wanted ids).length ≤ r.numSlots)
    (hroom : (r.misses (wanted ids)).length ≤ r.available (wanted ids))
    (hfit : ∀ a ∈ r.misses (wanted ids), r.FitsAll a) : Activates T r ids := by
  have hcard : (r.needed ids).card ≤ r.numSlots := by
    have := h.room (wanted ids)
    unfold needed
    omega
  by_cases hne : wanted ids = []
  · have hact : r.activate T ids = (.ok [], r) := by
      rw [activate_eq T hknown hlen, if_pos hne]
    constructor
    · rw [hact]
      exact iff_of_true ⟨[], rfl⟩ hcard
    · rw [hact]
      rintro m ⟨⟩
      refine ⟨(fun p hp => nomatch hp), fun a ha hbase => ?_⟩
      have hw := mem_wanted.mpr ⟨ha, hbase⟩
      rw [hne] at hw
      cases hw
    · rw [hact]
      exact fun m _ a _ s hs => hs
    · rw [hact]
      exact fun e he => nomatch he
  · obtain ⟨hk, hok, hm⟩ := loadAll_touched T h hknown hlen hne
    have hsome := hok.mpr ⟨hroom, hfit⟩
    constructor
    · exact iff_of_true hsome hcard
    · intro m hmok
      obtain ⟨loaded, rfl, hkeys, hslots⟩ := hm m hmok
      have hall : ∀ p ∈ r.hits (wanted ids) ++ loaded, p.1 ∈ wanted ids ∧
          (r.activate T ids).2.slotOf p.1 = some p.2 := by
        intro p hp
        rcases List.mem_append.mp hp with hp | hp
        · obtain ⟨hw, hs⟩ := mem_hits.mp hp
          exact ⟨hw, hk.kept p.1 p.2 (.inl hw) hs⟩
        · have hmiss : p.1 ∈ r.misses (wanted ids) := by
            rw [← hkeys]
            exact List.mem_map_of_mem hp
          exact ⟨(mem_misses.mp hmiss).1, hslots p hp⟩
      refine ⟨fun p hp => (mem_wanted.mp (hall p hp).1).1, fun a ha hbase => ?_⟩
      -- a hit or a miss, it has an entry
      have hentry : ∃ s, (a, s) ∈ r.hits (wanted ids) ++ loaded := by
        have hw := mem_wanted.mpr ⟨ha, hbase⟩
        cases hs : r.slotOf a with
        | some s => exact ⟨s, List.mem_append_left _ (mem_hits.mpr ⟨hw, hs⟩)⟩
        | none =>
            have hmiss := mem_misses.mpr ⟨hw, hs⟩
            rw [← hkeys] at hmiss
            obtain ⟨p, hp, rfl⟩ := List.mem_map.mp hmiss
            exact ⟨p.2, List.mem_append_right _ hp⟩
      obtain ⟨s, hs⟩ := hentry
      cases hl : (r.hits (wanted ids) ++ loaded).lookup a with
      | none =>
          rw [List.lookup_eq_none_iff] at hl
          exact absurd (hl _ hs) (by simp)
      | some t => exact ⟨t, rfl, (hall _ (Lib.mem_of_lookup hl)).2⟩
    · intro m _ a ha s hs
      refine hk.kept a s ?_ hs
      rw [needed, Finset.mem_union, List.mem_toFinset] at ha
      exact ha
    · intro e he
      obtain ⟨m, hmok⟩ := hsome
      rw [he] at hmok
      cases hmok

/-- No room, or factors that do not fit: the call raises, and what it leaves is what was
there exactly if no slot was left at all and the hits need no touching. -/
theorem activates_fails (h : Ledger r)
    (hknown : ∀ a ∈ wanted ids, r.adapters.lookup a ≠ none)
    (hlen : (wanted ids).length ≤ r.numSlots)
    (hfull : ¬ ((r.misses (wanted ids)).length ≤ r.available (wanted ids) ∧
      ∀ a ∈ r.misses (wanted ids), r.FitsAll a)) :
    Activates T r ids ↔ r.numSlots < (r.needed ids).card ∧
      r.available (wanted ids) = 0 ∧
        ((r.hits (wanted ids)).map (·.1)).foldl moveToEnd r.lru = r.lru := by
  have hne : wanted ids ≠ [] := by
    intro hnil
    refine hfull ⟨?_, ?_⟩
    · rw [hnil]
      exact Nat.zero_le _
    · rw [hnil]
      exact fun a ha => nomatch ha
  obtain ⟨hk, hok, -⟩ := loadAll_touched T h hknown hlen hne
  have hnone : ¬ ∃ m, (r.activate T ids).1 = .ok m := fun hm => hfull (hok.mp hm)
  obtain ⟨e, he⟩ : ∃ e, (r.activate T ids).1 = .error e := by
    cases hres : (r.activate T ids).1 with
    | error e => exact ⟨e, rfl⟩
    | ok m => exact absurd ⟨m, hres⟩ hnone
  have hsame : Activates T r ids ↔ r.numSlots < (r.needed ids).card ∧
      SameResidency r (r.activate T ids).2 := by
    constructor
    · intro hact
      refine ⟨Nat.lt_of_not_le fun hle => hnone (hact.succeeds.mpr hle), hact.atomic e he⟩
    · rintro ⟨hlt, hres⟩
      exact ⟨iff_of_false hnone (by omega), fun m hm => absurd ⟨m, hm⟩ hnone,
        fun m hm => absurd ⟨m, hm⟩ hnone, fun _ _ => hres⟩
  rw [hsame]
  refine and_congr_right fun _ => ?_
  -- there is a first miss, and it finds a slot or not
  have hperm := h.perm_hits (wanted ids)
  have htodo := misses_todo hknown
  have hnd : (r.misses (wanted ids)).Nodup := (nodup_wanted ids).filter _
  rw [activate_eq T hknown hlen, if_neg hne]
  cases hmiss : r.misses (wanted ids) with
  | nil =>
      rw [hmiss] at hfull
      exact absurd ⟨Nat.zero_le _, fun a ha => nomatch ha⟩ hfull
  | cons a rest =>
      rw [hmiss] at htodo hnd
      by_cases hzero : r.available (wanted ids) = 0
      · obtain ⟨ha, hnone', A, hA⟩ := htodo a List.mem_cons_self
        have hact : ∃ e, loadAll T (wanted ids) (a :: rest) (r.hits (wanted ids))
            { r with lru := ((r.hits (wanted ids)).map (·.1)).foldl moveToEnd r.lru } =
            (.error e,
              { r with lru := ((r.hits (wanted ids)).map (·.1)).foldl moveToEnd r.lru }) := by
          rcases (h.touch hperm).miss T ha hnone' hA with ⟨-, e, htake⟩ | ⟨hpos, -⟩
          · refine ⟨e, ?_⟩
            rw [loadAll, htake]
          · rw [available_touch hperm] at hpos
            omega
        obtain ⟨e, hact⟩ := hact
        rw [hact]
        constructor
        · intro hres
          exact ⟨hzero, hres.lru⟩
        · rintro ⟨-, hlru⟩
          exact ⟨rfl, rfl, hlru, rfl, rfl, rfl⟩
      · have hmoved := (h.touch hperm).loadAll_moved T (r.hits (wanted ids)) hnd
          htodo (by rw [available_touch hperm]; omega)
        refine iff_of_false (fun hres => ?_) fun hz => hzero hz.1
        rcases hmoved with hs | hf
        · exact hs hres.slotOf
        · exact hf hres.freeSlots

/-! ## §3  When it keeps its promise -/

/-- Activation of registered adapters succeeds exactly if it can and is atomic when it
cannot, exactly in the states of `Decided`. -/
theorem activates_iff (h : Ledger r)
    (hids : ∀ a ∈ ids, a ≠ noLora → r.adapters.lookup a ≠ none) :
    Activates T r ids ↔ Decided r ids := by
  have hknown : ∀ a ∈ wanted ids, r.adapters.lookup a ≠ none := by
    intro a ha
    obtain ⟨hmem, hne⟩ := mem_wanted.mp ha
    exact hids a hmem hne
  have hcard := length_wanted_le r ids
  unfold Decided
  by_cases hlen : (wanted ids).length ≤ r.numSlots
  · by_cases hroom : (r.misses (wanted ids)).length ≤ r.available (wanted ids) ∧
        ∀ a ∈ r.misses (wanted ids), r.FitsAll a
    · exact iff_of_true (activates_room h hknown hlen hroom.1 hroom.2) (.inl hroom)
    · rw [activates_fails h hknown hlen hroom, or_iff_right hroom,
        or_iff_right (Nat.not_lt_of_le hlen)]
  · have hlt := Nat.lt_of_not_le hlen
    exact iff_of_true (activates_tooMany hknown hlt)
      (.inr ⟨Nat.lt_of_lt_of_le hlt hcard, .inl hlt⟩)

/-! ## §4  A pinned adapter in the way -/

/-- Four adapters, two slots: the first is pinned, the second resident. -/
def crowdedCalls : List (Op Unit ℤ) :=
  [.attach "q" (.new "q" 1 1 2 1 ()),
    .registerAdapter (uniform "a" "q" 1 1 2 (not_eq_of_beq_eq_false rfl)),
    .registerAdapter (uniform "b" "q" 1 1 3 (not_eq_of_beq_eq_false rfl)),
    .registerAdapter (uniform "c" "q" 1 1 4 (not_eq_of_beq_eq_false rfl)),
    .registerAdapter (uniform "d" "q" 1 1 5 (not_eq_of_beq_eq_false rfl)), .pin (.id 1),
    .activate [2]]

def crowded : LoRARegistry Unit ℤ :=
  LoRARegistry.run integers (.new 2 1 none Nat.two_pos Nat.one_pos) crowdedCalls

theorem activates_iff_crowded : Activates integers crowded [3] ∧ crowded.slotOf 2 = some 2 := by
  have hledger : Ledger crowded := (Ledger.new 2 1 none _ _).run crowdedCalls
  refine ⟨(activates_iff hledger (by decide +kernel)).mpr (.inl ⟨by decide +kernel, ?_⟩),
    by decide +kernel⟩
  exact fun a _ => fitsAll_of_shapes (by decide +kernel) (by decide +kernel) a

/-- Two adapters do not fit beside the pinned one: the call raises, but the resident one
has been evicted. -/
theorem crowded_not_atomic : ¬ Activates integers crowded [3, 4] := by
  intro h
  have hraise : (crowded.activate integers [3, 4]).1 = .error (.noSlotLeft 2 1) := by
    decide +kernel
  have hslots := congrFun (h.atomic _ hraise).slotOf 2
  revert hslots
  decide +kernel

end TurboServe.Lora.LoRARegistry
