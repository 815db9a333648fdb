import TurboServe.Lib.Association
import TurboServe.Lora.Registry

/-!
# The slot ledger

What a registry keeps of its slots in every state, also one in which a load has raised
and its slot is lost, neither free nor occupied.
-/

namespace TurboServe.Lora.LoRARegistry

variable {δ α : Type}

/-- The two slot maps are inverse, the LRU lists the residents, free slots are free. -/
structure Ledger (r : LoRARegistry δ α) : Prop where
  inverse : ∀ a s, r.slotOf a = some s ↔ r.adapterOf s = some a
  range : ∀ s a, r.adapterOf s = some a → 1 ≤ s ∧ s ≤ r.numSlots
  mem_lru : ∀ a, a ∈ r.lru ↔ r.slotOf a ≠ none
  lru_nodup : r.lru.Nodup
  free : ∀ s ∈ r.freeSlots, (1 ≤ s ∧ s ≤ r.numSlots) ∧ r.adapterOf s = none
  free_nodup : r.freeSlots.Nodup
  pinned : ∀ a ∈ r.pinned, r.slotOf a ≠ none
  geometry : ∀ p ∈ r.layers, p.2.numSlots = r.numSlots ∧ p.2.maxRank = r.maxRank

/-- A slot that is neither free nor occupied: in hand, or lost for good. -/
def Lost (r : LoRARegistry δ α) (s : ℕ) : Prop :=
  (1 ≤ s ∧ s ≤ r.numSlots) ∧ r.adapterOf s = none ∧ s ∉ r.freeSlots

/-- Every layer an adapter targets accepts its factors. -/
def FitsAll (r : LoRARegistry δ α) (a : ℤ) : Prop :=
  ∀ A, r.adapters.lookup a = some A → ∀ p ∈ r.layers, ∀ w,
    A.weights.lookup p.1 = some w → p.2.Fits w

/-- What residency calls leave alone. -/
structure SameStore (r r' : LoRARegistry δ α) : Prop where
  numSlots : r'.numSlots = r.numSlots
  adapters : r'.adapters = r.adapters
  pinned : r'.pinned = r.pinned

theorem SameStore.refl (r : LoRARegistry δ α) : SameStore r r := ⟨rfl, rfl, rfl⟩

theorem SameStore.trans {r r' r'' : LoRARegistry δ α} (h : SameStore r r')
    (h' : SameStore r' r'') : SameStore r r'' :=
  ⟨h'.numSlots.trans h.numSlots, h'.adapters.trans h.adapters, h'.pinned.trans h.pinned⟩

/-- How many slots a step with this working set can still take. -/
def available (r : LoRARegistry δ α) (isProtected : List ℤ) : ℕ :=
  r.freeSlots.length + (r.evictable isProtected).length

/-- What a residency step keeps of who sits where: nobody moves, and the protected
stay. -/
structure Stays (isProtected : List ℤ) (r r' : LoRARegistry δ α) : Prop where
  old : ∀ b t, r'.slotOf b = some t → r.slotOf b = some t
  kept : ∀ b ∈ isProtected, r'.slotOf b = r.slotOf b

/-! ## §1  Slots -/

theorem Ledger.injective {r : LoRARegistry δ α} (h : Ledger r) {a b : ℤ} {s : ℕ}
    (ha : r.slotOf a = some s) (hb : r.slotOf b = some s) : a = b := by
  have h₁ := (h.inverse a s).mp ha
  rw [(h.inverse b s).mp hb] at h₁
  exact (Option.some_inj.mp h₁).symm

/-- Evicting a resident adapter that is not pinned frees its slot. -/
theorem Ledger.evict {r : LoRARegistry δ α} (h : Ledger r) {a : ℤ} {s : ℕ}
    (ha : r.slotOf a = some s) (hp : a ∉ r.pinned) :
    ∃ r', r.evictSlot s = .ok r' ∧ Ledger r' ∧ (∀ t, r'.Lost t ↔ r.Lost t) ∧
      SameStore r r' ∧ r'.layers = r.layers ∧
      r'.slotOf = Function.update r.slotOf a none ∧
      r'.freeSlots = r.freeSlots ++ [s] ∧ r'.lru = r.lru.erase a := by
  have has := (h.inverse a s).mp ha
  have hfree : s ∉ r.freeSlots := fun hs => by
    rw [(h.free s hs).2] at has
    cases has
  unfold evictSlot
  rw [has]
  refine ⟨_, rfl, ⟨?_, ?_, ?_, h.lru_nodup.erase a, ?_, ?_, ?_, h.geometry⟩, ?_,
    ⟨rfl, rfl, rfl⟩, rfl, rfl, rfl, rfl⟩
  · intro b t
    simp only [Function.update_apply]
    by_cases hba : b = a
    · subst hba
      by_cases hts : t = s
      · simp [hts]
      · simp only [if_true, if_neg hts, ← h.inverse, ha, Option.some_inj]
        constructor
        · intro hn
          cases hn
        · exact fun hst => absurd hst.symm hts
    · by_cases hts : t = s
      · subst hts
        simp only [if_neg hba, if_true]
        constructor
        · exact fun hb => absurd (h.injective hb ha) hba
        · intro hn
          cases hn
      · simp only [if_neg hba, if_neg hts]
        exact h.inverse b t
  · intro t b ht
    simp only [Function.update_apply] at ht
    split at ht
    · cases ht
    · exact h.range t b ht
  · intro b
    simp only [Function.update_apply, h.lru_nodup.mem_erase_iff, h.mem_lru]
    by_cases hba : b = a
    · simp [hba]
    · simp [hba]
  · intro t ht
    simp only [Function.update_apply]
    rcases List.mem_append.mp ht with ht | ht
    · refine ⟨(h.free t ht).1, ?_⟩
      split
      · rfl
      · exact (h.free t ht).2
    · rw [List.mem_singleton.mp ht, if_pos rfl]
      exact ⟨h.range s a has, rfl⟩
  · exact List.nodup_append.mpr ⟨h.free_nodup, List.nodup_singleton s, fun t ht u hu htu => by
      rw [List.mem_singleton.mp hu] at htu
      exact hfree (htu ▸ ht)⟩
  · intro b hb
    have hba : b ≠ a := fun hba => hp (hba ▸ hb)
    simpa only [Function.update_apply, if_neg hba] using h.pinned b hb
  · intro t
    simp only [Lost, Function.update_apply, List.mem_append, List.mem_singleton, not_or]
    by_cases hts : t = s
    · subst hts
      simp [has]
    · simp [hts]

/-- Taking the first free slot in hand. -/
theorem Ledger.take {r : LoRARegistry δ α} (h : Ledger r) {s : ℕ} {rest : List ℕ}
    (hf : r.freeSlots = s :: rest) :
    Ledger { r with freeSlots := rest } ∧
      ∀ t, Lost { r with freeSlots := rest } t ↔ r.Lost t ∨ t = s := by
  have hnd := h.free_nodup
  have hfree := h.free
  rw [hf] at hnd hfree
  refine ⟨⟨h.inverse, h.range, h.mem_lru, h.lru_nodup,
    fun t ht => hfree t (List.mem_cons_of_mem _ ht), (List.nodup_cons.mp hnd).2, h.pinned,
    h.geometry⟩, fun t => ?_⟩
  simp only [Lost, hf, List.mem_cons, not_or]
  by_cases hts : t = s
  · subst hts
    have ht := hfree t List.mem_cons_self
    simp [ht.1, ht.2, (List.nodup_cons.mp hnd).1]
  · simp [hts]

/-- A slot is taken exactly if there is one left, and then the free slots or the residents
are not what they were. -/
theorem Ledger.takeSlot {r : LoRARegistry δ α} (h : Ledger r) (isProtected : List ℤ) :
    (∃ e, r.takeSlot isProtected = (.error e, r) ∧ r.available isProtected = 0) ∨
    (∃ s r', r.takeSlot isProtected = (.ok s, r') ∧ Ledger r' ∧
      (∀ t, r'.Lost t ↔ r.Lost t ∨ t = s) ∧ SameStore r r' ∧ r'.layers = r.layers ∧
      Stays isProtected r r' ∧ (∀ b ∈ r.pinned, r'.slotOf b = r.slotOf b) ∧
      r.available isProtected = r'.available isProtected + 1 ∧
      (r'.slotOf ≠ r.slotOf ∨ r'.freeSlots ≠ r.freeSlots)) := by
  unfold LoRARegistry.takeSlot
  cases hf : r.freeSlots with
  | cons s rest =>
      refine Or.inr ⟨s, _, rfl, (h.take hf).1, (h.take hf).2, ⟨rfl, rfl, rfl⟩, rfl,
        ⟨fun _ _ hb => hb, fun _ _ => rfl⟩, fun _ _ => rfl, ?_, .inr ?_⟩
      · simp only [available, evictable, hf, List.length_cons]
        omega
      · exact fun heq => absurd (congrArg List.length heq) (by simp)
  | nil =>
      cases he : r.evictable isProtected with
      | nil => exact Or.inl ⟨_, rfl, by simp [available, hf, he]⟩
      | cons a victims =>
          have hmem : a ∈ r.evictable isProtected := by rw [he]; exact List.mem_cons_self
          simp only [evictable, List.mem_filter, decide_eq_true_eq] at hmem
          obtain ⟨hlru, hprot, hpin⟩ := hmem
          obtain ⟨s, hs⟩ := Option.ne_none_iff_exists'.mp ((h.mem_lru a).mp hlru)
          obtain ⟨r', hev, hledger, hlost, hsame, hlay, hslot, hfree, hlru'⟩ := h.evict hs hpin
          rw [hf, List.nil_append] at hfree
          simp only [hs, hev, hfree]
          have hother : ∀ b, b ≠ a → r'.slotOf b = r.slotOf b := by
            intro b hba
            rw [hslot, Function.update_of_ne hba]
          refine Or.inr ⟨s, _, rfl, (hledger.take hfree).1, fun t => ?_, ⟨hsame.numSlots,
            hsame.adapters, hsame.pinned⟩, hlay, ⟨fun b t hb => ?_, fun b hb => ?_⟩,
            fun b hb => hother b fun hba => hpin (hba ▸ hb), ?_, .inl fun heq => ?_⟩
          · rw [(hledger.take hfree).2 t, hlost t]
          · simp only [hslot, Function.update_apply] at hb
            split at hb
            · cases hb
            · exact hb
          · exact hother b fun hba => hprot (hba ▸ hb)
          · -- the victim leaves the evictable adapters, its slot goes in hand
            have hev' : List.filter (fun b => decide (b ∉ isProtected ∧ b ∉ r'.pinned)) r'.lru =
                victims := by
              rw [hlru', hsame.pinned, h.lru_nodup.erase_eq_filter, List.filter_filter]
              have hcons := he
              unfold evictable at hcons
              have hnd := (h.lru_nodup.filter
                (fun b => decide (b ∉ isProtected ∧ b ∉ r.pinned)))
              rw [hcons] at hnd
              have hcomm : (fun b => decide (b ∉ isProtected ∧ b ∉ r.pinned) && (b != a)) =
                  fun b => (b != a) && decide (b ∉ isProtected ∧ b ∉ r.pinned) := by
                funext b
                exact Bool.and_comm _ _
              rw [hcomm, ← List.filter_filter, hcons, List.filter_cons_of_neg (by simp)]
              refine List.filter_eq_self.mpr fun b hb => ?_
              rw [bne_iff_ne]
              exact fun hba => (List.nodup_cons.mp hnd).1 (hba ▸ hb)
            simp only [available, evictable, hf, hev', List.length_nil]
            unfold evictable at he
            rw [he, List.length_cons]
            omega
          · have hgone : r'.slotOf a = r.slotOf a := congrFun heq a
            rw [hslot, Function.update_self, hs] at hgone
            cases hgone

/-! ## §2  Loading -/

/-- A loop over the layers ends well exactly if every round does. -/
theorem forLayers_ok_iff (f : String → LoRALinear δ α → Except Fault (LoRALinear δ α))
    (layers : List (String × LoRALinear δ α)) :
    (forLayers f layers).1 = .ok () ↔ ∀ p ∈ layers, ∃ l', f p.1 p.2 = .ok l' := by
  induction layers with
  | nil => exact iff_of_true rfl fun p hp => nomatch hp
  | cons q layers ih =>
      rw [forLayers, List.forall_mem_cons]
      cases hq : f q.1 q.2 with
      | error e =>
          refine iff_of_false (fun h => nomatch h) ?_
          rintro ⟨⟨l', hl'⟩, -⟩
          cases hl'
      | ok l₁ =>
          dsimp only
          rw [ih]
          exact (and_iff_right ⟨l₁, rfl⟩).symm

/-- What a loop over the layers makes of each of them, if its rounds keep a relation. -/
theorem forLayers_forall₂ {f : String → LoRALinear δ α → Except Fault (LoRALinear δ α)}
    {R : LoRALinear δ α → LoRALinear δ α → Prop} (hrefl : ∀ l, R l l)
    (layers : List (String × LoRALinear δ α))
    (hR : ∀ p ∈ layers, ∀ l', f p.1 p.2 = .ok l' → R p.2 l') :
    List.Forall₂ (fun p p' => p'.1 = p.1 ∧ R p.2 p'.2) layers (forLayers f layers).2 := by
  induction layers with
  | nil => exact .nil
  | cons q layers ih =>
      rw [forLayers]
      cases hq : f q.1 q.2 with
      | error e =>
          exact .cons ⟨rfl, hrefl _⟩ (List.forall₂_same.mpr fun p _ => ⟨rfl, hrefl _⟩)
      | ok l₁ =>
          exact .cons ⟨rfl, hR q List.mem_cons_self l₁ hq⟩
            (ih fun p hp => hR p (List.mem_cons_of_mem _ hp))

/-- The shape of a layer. -/
def SameShape (l l' : LoRALinear δ α) : Prop :=
  l'.numSlots = l.numSlots ∧ l'.maxRank = l.maxRank ∧ l'.inFeatures = l.inFeatures ∧
    l'.outFeatures = l.outFeatures

/-- The same layers, name by name, but for their buffers. -/
def SameLayers (layers layers' : List (String × LoRALinear δ α)) : Prop :=
  List.Forall₂ (fun p p' => p'.1 = p.1 ∧ SameShape p.2 p'.2) layers layers'

variable {T : Numerics δ α}

/-- A layer takes the factors of an adapter exactly if they fit. -/
theorem loadLayer_ok_iff [Zero α] [DecidableEq δ] {A : LoRAAdapter δ α} {s : ℕ} {name : String}
    {l : LoRALinear δ α} (hs : 1 ≤ s ∧ s ≤ l.numSlots) :
    (∃ l', loadLayer T A s name l = .ok l') ↔
      ∀ w, A.weights.lookup name = some w → l.Fits w := by
  unfold loadLayer
  cases hw : A.weights.lookup name with
  | none =>
      obtain ⟨l', hok, -⟩ := LoRALinear.clearSlot_spec hs
      exact iff_of_true ⟨l', hok⟩ fun w hn => nomatch hn
  | some w =>
      constructor
      · rintro ⟨l', hok⟩ w' hw'
        obtain rfl := Option.some_inj.mp hw'
        unfold LoRALinear.loadSlot at hok
        rw [LoRALinear.row_of_mem hs] at hok
        dsimp only at hok
        split at hok
        · cases hok
        · rename_i hshape
          split at hok
          · cases hok
          · rename_i hrank
            rw [not_or, not_not, not_not] at hshape
            refine ⟨?_, ?_, ?_⟩
            · rw [← w.inFeatures_toDtype T l.dtype]
              exact hshape.1
            · rw [← w.outFeatures_toDtype T l.dtype]
              exact hshape.2
            · rw [← w.rank_toDtype T l.dtype]
              exact Nat.le_of_not_lt hrank
      · intro h
        obtain ⟨l', hok, -⟩ := LoRALinear.loadSlot_holds (T := T) hs (h w rfl)
        exact ⟨l', hok⟩

theorem loadLayer_shape [Zero α] [DecidableEq δ] {A : LoRAAdapter δ α} {s : ℕ} {name : String}
    {l l' : LoRALinear δ α} (hs : 1 ≤ s ∧ s ≤ l.numSlots)
    (hok : loadLayer T A s name l = .ok l') : SameShape l l' := by
  have hfits := (loadLayer_ok_iff hs).mp ⟨l', hok⟩
  unfold loadLayer at hok
  cases hw : A.weights.lookup name with
  | none =>
      obtain ⟨l₁, hl₁, hsame, -⟩ := LoRALinear.clearSlot_spec hs
      rw [hw] at hok
      dsimp only at hok
      obtain rfl := Except.ok.inj (hl₁.symm.trans hok)
      exact ⟨hsame.numSlots, hsame.maxRank, hsame.inFeatures, hsame.outFeatures⟩
  | some w =>
      obtain ⟨l₁, hl₁, hsame, -⟩ := LoRALinear.loadSlot_holds (T := T) hs (hfits w hw)
      rw [hw] at hok
      dsimp only at hok
      obtain rfl := Except.ok.inj (hl₁.symm.trans hok)
      exact ⟨hsame.numSlots, hsame.maxRank, hsame.inFeatures, hsame.outFeatures⟩

theorem mem_moveToEnd {lru : List ℤ} {a b : ℤ} :
    b ∈ moveToEnd lru a ↔ b = a ∨ b ∈ lru := by
  rw [moveToEnd, List.mem_append, List.mem_singleton]
  by_cases hba : b = a
  · simp [hba]
  · simp [hba, List.mem_erase_of_ne hba]

theorem nodup_moveToEnd {lru : List ℤ} (h : lru.Nodup) (a : ℤ) : (moveToEnd lru a).Nodup :=
  List.nodup_append.mpr ⟨h.erase a, List.nodup_singleton a, fun b hb c hc hbc => by
    rw [List.mem_singleton.mp hc] at hbc
    exact (h.mem_erase_iff.mp hb).1 hbc⟩

/-- The slot in hand goes to an adapter that has none. -/
theorem Ledger.give {r : LoRARegistry δ α} (h : Ledger r) {s : ℕ} (hs : r.Lost s) {a : ℤ}
    (ha : r.slotOf a = none) {layers : List (String × LoRALinear δ α)}
    (hgeo : ∀ p ∈ layers, p.2.numSlots = r.numSlots ∧ p.2.maxRank = r.maxRank) :
    let r' := { r with
      layers := layers
      slotOf := Function.update r.slotOf a (some s)
      adapterOf := Function.update r.adapterOf s (some a)
      lru := moveToEnd r.lru a }
    Ledger r' ∧ ∀ t, r'.Lost t ↔ r.Lost t ∧ t ≠ s := by
  obtain ⟨hrange, hnone, hfree⟩ := hs
  refine ⟨⟨?_, ?_, ?_, nodup_moveToEnd h.lru_nodup a, ?_, h.free_nodup, ?_, hgeo⟩, ?_⟩
  · intro b t
    simp only [Function.update_apply]
    by_cases hba : b = a
    · subst hba
      by_cases hts : t = s
      · simp [hts]
      · simp only [if_true, if_neg hts, ← h.inverse, ha, Option.some_inj]
        constructor
        · exact fun hst => absurd hst.symm hts
        · intro hn
          cases hn
    · by_cases hts : t = s
      · subst hts
        simp only [if_neg hba, if_true, h.inverse, hnone, Option.some_inj]
        constructor
        · intro hn
          cases hn
        · exact fun hab => absurd hab.symm hba
      · simp only [if_neg hba, if_neg hts]
        exact h.inverse b t
  · intro t b ht
    simp only [Function.update_apply] at ht
    split at ht
    · rename_i hts
      exact hts ▸ hrange
    · exact h.range t b ht
  · intro b
    simp only [Function.update_apply, mem_moveToEnd, h.mem_lru]
    by_cases hba : b = a
    · simp [hba]
    · simp [hba]
  · intro t ht
    have hts : t ≠ s := fun hts => hfree (hts ▸ ht)
    simpa only [Function.update_apply, if_neg hts] using h.free t ht
  · intro b hb
    simp only [Function.update_apply]
    split
    · exact nofun
    · exact h.pinned b hb
  · intro t
    simp only [Lost, Function.update_apply]
    by_cases hts : t = s
    · simp [hts]
    · simp [hts]

theorem SameLayers.geometry {numSlots maxRank : ℕ}
    {layers layers' : List (String × LoRALinear δ α)} (hsame : SameLayers layers layers')
    (hgeo : ∀ p ∈ layers, p.2.numSlots = numSlots ∧ p.2.maxRank = maxRank) :
    ∀ p ∈ layers', p.2.numSlots = numSlots ∧ p.2.maxRank = maxRank := by
  unfold SameLayers at hsame
  induction hsame with
  | nil => exact fun p hp => nomatch hp
  | cons hq hrest ih =>
      rw [List.forall_mem_cons] at hgeo ⊢
      exact ⟨⟨hq.2.1.trans hgeo.1.1, hq.2.2.1.trans hgeo.1.2⟩, ih hgeo.2⟩

theorem SameLayers.fits_iff {A : LoRAAdapter δ α}
    {layers layers' : List (String × LoRALinear δ α)} (hsame : SameLayers layers layers') :
    (∀ p ∈ layers', ∀ w, A.weights.lookup p.1 = some w → p.2.Fits w) ↔
      ∀ p ∈ layers, ∀ w, A.weights.lookup p.1 = some w → p.2.Fits w := by
  unfold SameLayers at hsame
  induction hsame with
  | nil => rfl
  | cons hq hrest ih =>
      obtain ⟨hname, -, hrank, hin, hout⟩ := hq
      rw [List.forall_mem_cons, List.forall_mem_cons, ih, hname]
      refine and_congr_left' (forall₂_congr fun w _ => ?_)
      unfold LoRALinear.Fits
      rw [hrank, hin, hout]

/-- One load: the slot in hand is given exactly if the factors fit every layer. -/
theorem Ledger.load [Zero α] [DecidableEq δ] {r : LoRARegistry δ α} (h : Ledger r) {s : ℕ}
    (hs : r.Lost s) {a : ℤ}
    {A : LoRAAdapter δ α} (hA : r.adapters.lookup a = some A) :
    ∃ layers, SameLayers r.layers layers ∧
      (r.FitsAll a ∧ r.load T a s = (.ok (), { r with
          layers := layers
          slotOf := Function.update r.slotOf a (some s)
          adapterOf := Function.update r.adapterOf s (some a)
          lru := moveToEnd r.lru a }) ∨
        ¬ r.FitsAll a ∧ ∃ e, r.load T a s = (.error e, { r with layers := layers })) := by
  have hrange : ∀ p ∈ r.layers, 1 ≤ s ∧ s ≤ p.2.numSlots := by
    intro p hp
    rw [(h.geometry p hp).1]
    exact hs.1
  have hsame : SameLayers r.layers (forLayers (loadLayer T A s) r.layers).2 :=
    forLayers_forall₂ (fun l => ⟨rfl, rfl, rfl, rfl⟩) r.layers fun p hp l' hok =>
      loadLayer_shape (hrange p hp) hok
  have hfits : (forLayers (loadLayer T A s) r.layers).1 = .ok () ↔ r.FitsAll a := by
    rw [forLayers_ok_iff]
    constructor
    · intro hok B hB p hp
      obtain rfl := Option.some_inj.mp (hA.symm.trans hB)
      exact (loadLayer_ok_iff (hrange p hp)).mp (hok p hp)
    · intro hfit p hp
      exact (loadLayer_ok_iff (hrange p hp)).mpr (hfit A hA p hp)
  refine ⟨_, hsame, ?_⟩
  unfold LoRARegistry.load
  simp only [hA]
  cases hres : (forLayers (loadLayer T A s) r.layers).1 with
  | ok u => exact .inl ⟨hfits.mp hres, rfl⟩
  | error e =>
      refine .inr ⟨fun hfit => ?_, e, rfl⟩
      rw [hfits.mpr hfit] at hres
      cases hres

/-! ## §3  The misses of a call -/

theorem perm_moveToEnd {lru : List ℤ} {a : ℤ} (h : a ∈ lru) :
    (moveToEnd lru a).Perm lru :=
  (List.perm_append_singleton a _).trans (List.perm_cons_erase h).symm

theorem perm_foldl_moveToEnd {keys lru : List ℤ} (h : ∀ a ∈ keys, a ∈ lru) :
    (keys.foldl moveToEnd lru).Perm lru := by
  induction keys generalizing lru with
  | nil => exact .refl _
  | cons a keys ih =>
      have hperm := perm_moveToEnd (h a List.mem_cons_self)
      exact (ih fun b hb =>
        hperm.mem_iff.mpr (h b (List.mem_cons_of_mem _ hb))).trans hperm

/-- Loading a protected adapter changes nothing for the next ones. -/
theorem available_moveToEnd {r r' : LoRARegistry δ α} {isProtected : List ℤ} {a : ℤ}
    (ha : a ∈ isProtected) (hl : r'.lru = moveToEnd r.lru a)
    (hf : r'.freeSlots = r.freeSlots) (hp : r'.pinned = r.pinned) :
    r'.available isProtected = r.available isProtected := by
  simp only [available, evictable, hl, hf, hp, moveToEnd, List.filter_append,
    List.length_append, Nat.add_left_cancel_iff]
  have hdrop : List.filter (fun b => decide (b ∉ isProtected ∧ b ∉ r.pinned)) [a] = [] := by
    rw [List.filter_cons_of_neg (by simp [ha]), List.filter_nil]
  rw [hdrop, List.length_nil, Nat.add_zero]
  by_cases hmem : a ∈ r.lru
  · have hperm := List.perm_cons_erase hmem
    have hlen := (hperm.filter fun b => decide (b ∉ isProtected ∧ b ∉ r.pinned)).length_eq
    rw [List.filter_cons_of_neg (by simp [ha])] at hlen
    exact hlen.symm
  · rw [List.erase_of_not_mem hmem]

theorem available_touch {r : LoRARegistry δ α} {lru : List ℤ} (hp : lru.Perm r.lru)
    (isProtected : List ℤ) :
    available { r with lru := lru } isProtected = r.available isProtected := by
  simp only [available, evictable]
  rw [(hp.filter _).length_eq]

/-- Reordering the LRU. -/
theorem Ledger.touch {r : LoRARegistry δ α} (h : Ledger r) {lru : List ℤ}
    (hp : lru.Perm r.lru) : Ledger { r with lru := lru } :=
  { h with
    mem_lru := fun a => hp.mem_iff.trans (h.mem_lru a)
    lru_nodup := hp.nodup_iff.mpr h.lru_nodup }

/-- What a step keeps, whether it returns or raises: the ledger, and the slots of the
protected and of the pinned. -/
structure Keeps (isProtected : List ℤ) (r r' : LoRARegistry δ α) : Prop where
  ledger : Ledger r'
  store : SameStore r r'
  kept : ∀ b t, b ∈ isProtected ∨ b ∈ r.pinned → r.slotOf b = some t → r'.slotOf b = some t

theorem Keeps.refl {isProtected : List ℤ} {r : LoRARegistry δ α} (h : Ledger r) :
    Keeps isProtected r r := ⟨h, .refl r, fun _ _ _ hb => hb⟩

theorem Keeps.trans {isProtected : List ℤ} {r r' r'' : LoRARegistry δ α}
    (h : Keeps isProtected r r') (h' : Keeps isProtected r' r'') :
    Keeps isProtected r r'' :=
  ⟨h'.ledger, h.store.trans h'.store, fun b t hb ht =>
    h'.kept b t (hb.imp_right fun hp => by rwa [h.store.pinned]) (h.kept b t hb ht)⟩

/-- The free slots or the residents are not what they were. -/
def Moved (r r' : LoRARegistry δ α) : Prop :=
  r'.slotOf ≠ r.slotOf ∨ r'.freeSlots ≠ r.freeSlots

/-- One miss finds no slot and leaves all as it was, or takes one for factors that do not
fit, or is loaded. -/
theorem Ledger.miss [Zero α] [DecidableEq δ] (T : Numerics δ α) {r : LoRARegistry δ α}
    (h : Ledger r)
    {isProtected : List ℤ} {a : ℤ} (ha : a ∈ isProtected) (hnone : r.slotOf a = none)
    {A : LoRAAdapter δ α} (hA : r.adapters.lookup a = some A) :
    (r.available isProtected = 0 ∧ ∃ e, r.takeSlot isProtected = (.error e, r)) ∨
    0 < r.available isProtected ∧ ∃ s r', r.takeSlot isProtected = (.ok s, r') ∧
      ((¬ r.FitsAll a ∧ ∃ e r'', r'.load T a s = (.error e, r'') ∧ Keeps isProtected r r'' ∧
          Moved r r'') ∨
        (r.FitsAll a ∧ ∃ r'', r'.load T a s = (.ok (), r'') ∧ Keeps isProtected r r'' ∧
          r''.slotOf a = some s ∧ (∀ b ∈ isProtected, b ≠ a → r''.slotOf b = r.slotOf b) ∧
          r.available isProtected = r''.available isProtected + 1 ∧
          ∀ b, r''.FitsAll b ↔ r.FitsAll b)) := by
  rcases h.takeSlot isProtected with ⟨e, htake, hzero⟩ |
    ⟨s, r', htake, hledger, hlost, hsame, hlay, hstay, hpinned, havail, hmoved⟩
  · exact .inl ⟨hzero, e, htake⟩
  · refine .inr ⟨by omega, s, r', htake, ?_⟩
    have hs : r'.Lost s := (hlost s).mpr (.inr rfl)
    have hkept : ∀ b, b ∈ isProtected ∨ b ∈ r.pinned → r'.slotOf b = r.slotOf b :=
      fun b hb => hb.elim (hstay.kept b) (hpinned b)
    have hfits : ∀ b, r'.FitsAll b ↔ r.FitsAll b := by
      intro b
      unfold FitsAll
      rw [hsame.adapters, hlay]
    obtain ⟨layers, hlayers, ⟨hfit, hload⟩ | ⟨hfit, e, hload⟩⟩ :=
      hledger.load (T := T) hs (hsame.adapters ▸ hA)
    · have hgive := hledger.give hs ((hstay.kept a ha).trans hnone)
        (hlayers.geometry hledger.geometry)
      refine .inr ⟨(hfits a).mp hfit, _, hload, ⟨hgive.1, ⟨hsame.numSlots, hsame.adapters,
        hsame.pinned⟩, fun b t hb ht => ?_⟩, Function.update_self .., fun b hb hba => ?_,
        ?_, fun b => ?_⟩
      · have hba : b ≠ a := by
          rintro rfl
          rw [hnone] at ht
          cases ht
        exact (Function.update_of_ne hba _ _).trans ((hkept b hb).trans ht)
      · exact (Function.update_of_ne hba _ _).trans (hstay.kept b hb)
      · rw [havail]
        let r'' : LoRARegistry δ α := { r' with
          layers := layers
          slotOf := Function.update r'.slotOf a (some s)
          adapterOf := Function.update r'.adapterOf s (some a)
          lru := moveToEnd r'.lru a }
        have hlast : r''.available isProtected = r'.available isProtected :=
          available_moveToEnd ha rfl rfl rfl
        exact congrArg (· + 1) hlast.symm
      · rw [← hfits b]
        exact forall₂_congr fun B _ => hlayers.fits_iff
    · exact .inl ⟨fun hr => hfit ((hfits a).mpr hr), e, _, hload,
        ⟨{ hledger with geometry := hlayers.geometry hledger.geometry },
          ⟨hsame.numSlots, hsame.adapters, hsame.pinned⟩,
          fun b t hb ht => (hkept b hb).trans ht⟩, hmoved⟩

/-- All misses: they are loaded exactly if there is a slot for each and the factors of
each fit. -/
theorem Ledger.loadAll [Zero α] [DecidableEq δ] (T : Numerics δ α) {isProtected todo : List ℤ}
    (mapping : List (ℤ × ℕ)) {r : LoRARegistry δ α} (h : Ledger r) (hnd : todo.Nodup)
    (htodo : ∀ a ∈ todo, a ∈ isProtected ∧ r.slotOf a = none ∧
      ∃ A, r.adapters.lookup a = some A) :
    let q := LoRARegistry.loadAll T isProtected todo mapping r
    Keeps isProtected r q.2 ∧
      ((∃ m, q.1 = .ok m) ↔
        todo.length ≤ r.available isProtected ∧ ∀ a ∈ todo, r.FitsAll a) ∧
      ∀ m, q.1 = .ok m → ∃ loaded, m = mapping ++ loaded ∧ loaded.map (·.1) = todo ∧
        ∀ p ∈ loaded, q.2.slotOf p.1 = some p.2 := by
  induction todo generalizing mapping r with
  | nil =>
      refine ⟨.refl h, iff_of_true ⟨mapping, rfl⟩ ⟨Nat.zero_le _, fun a ha => nomatch ha⟩,
        fun m hm => ⟨[], ?_, rfl, fun p hp => nomatch hp⟩⟩
      rw [List.append_nil]
      exact (Except.ok.inj hm).symm
  | cons a rest ih =>
      obtain ⟨ha, hnone, A, hA⟩ := htodo a List.mem_cons_self
      obtain ⟨hnot, hnd'⟩ := List.nodup_cons.mp hnd
      rw [LoRARegistry.loadAll]
      rcases h.miss T ha hnone hA with ⟨hzero, e, htake⟩ | ⟨hpos, s, r', htake, hcase⟩
      · rw [htake]
        refine ⟨.refl h, iff_of_false ?_ ?_, fun m hm => nomatch hm⟩
        · rintro ⟨m, hm⟩
          cases hm
        · rintro ⟨hlen, -⟩
          rw [hzero, List.length_cons] at hlen
          omega
      · rcases hcase with ⟨hfit, e, r'', hload, hkeeps, -⟩ |
          ⟨hfit, r'', hload, hkeeps, hself, hothers, havail, hfits⟩
        · simp only [htake, hload]
          refine ⟨hkeeps, iff_of_false ?_ ?_, fun m hm => nomatch hm⟩
          · rintro ⟨m, hm⟩
            cases hm
          · rintro ⟨-, hall⟩
            exact hfit (hall a List.mem_cons_self)
        · simp only [htake, hload]
          obtain ⟨hk, hok, hm⟩ := ih (mapping ++ [(a, s)]) hkeeps.ledger hnd'
            fun b hb => by
              obtain ⟨hbp, hbn, hbA⟩ := htodo b (List.mem_cons_of_mem _ hb)
              have hba : b ≠ a := fun hba => hnot (hba ▸ hb)
              exact ⟨hbp, (hothers b hbp hba).trans hbn, hkeeps.store.adapters ▸ hbA⟩
          refine ⟨hkeeps.trans hk, hok.trans ?_, fun m hmok => ?_⟩
          · rw [List.forall_mem_cons, havail, List.length_cons, Nat.add_le_add_iff_right]
            simp only [hfits]
            exact and_congr_right fun _ => (and_iff_right hfit).symm
          · obtain ⟨loaded, hml, hkeys, hslots⟩ := hm m hmok
            refine ⟨(a, s) :: loaded, ?_, by rw [List.map_cons, hkeys], ?_⟩
            · rw [hml, List.append_assoc]
              rfl
            · rw [List.forall_mem_cons]
              exact ⟨hk.kept a s (.inl ha) hself, hslots⟩

/-- Once a first miss has found a slot, the slots are not what they were. -/
theorem Ledger.loadAll_moved [Zero α] [DecidableEq δ] (T : Numerics δ α) {isProtected rest : List ℤ}
    {a : ℤ}
    (mapping : List (ℤ × ℕ)) {r : LoRARegistry δ α} (h : Ledger r) (hnd : (a :: rest).Nodup)
    (htodo : ∀ b ∈ a :: rest, b ∈ isProtected ∧ r.slotOf b = none ∧
      ∃ A, r.adapters.lookup b = some A)
    (hpos : 0 < r.available isProtected) :
    Moved r (LoRARegistry.loadAll T isProtected (a :: rest) mapping r).2 := by
  obtain ⟨ha, hnone, A, hA⟩ := htodo a List.mem_cons_self
  obtain ⟨hnot, hnd'⟩ := List.nodup_cons.mp hnd
  rw [LoRARegistry.loadAll]
  rcases h.miss T ha hnone hA with ⟨hzero, -⟩ | ⟨-, s, r', htake, hcase⟩
  · omega
  · rcases hcase with ⟨-, e, r'', hload, -, hmoved⟩ |
      ⟨-, r'', hload, hkeeps, hself, hothers, -, -⟩
    · simp only [htake, hload]
      exact hmoved
    · -- the first adapter keeps the slot it was given
      simp only [htake, hload]
      obtain ⟨hk, -, -⟩ := hkeeps.ledger.loadAll T (mapping ++ [(a, s)]) hnd'
        fun b hb => by
          obtain ⟨hbp, hbn, hbA⟩ := htodo b (List.mem_cons_of_mem _ hb)
          have hba : b ≠ a := fun hba => hnot (hba ▸ hb)
          exact ⟨hbp, (hothers b hbp hba).trans hbn, hkeeps.store.adapters ▸ hbA⟩
      refine .inl fun heq => ?_
      have hgot := hk.kept a s (.inl ha) hself
      rw [heq, hnone] at hgot
      cases hgot

/-! ## §4  Room -/

theorem mem_wanted {ids : List ℤ} {a : ℤ} : a ∈ wanted ids ↔ a ∈ ids ∧ a ≠ noLora := by
  simp [wanted, List.mem_insertionSort]

theorem nodup_wanted (ids : List ℤ) : (wanted ids).Nodup :=
  ((List.perm_insertionSort _ _).nodup_iff).mpr (List.nodup_dedup _)

/-- Free slots and residents are different slots. -/
theorem Ledger.seats {r : LoRARegistry δ α} (h : Ledger r) :
    r.freeSlots.length + r.lru.length ≤ r.numSlots := by
  have hslot : ∀ a ∈ r.lru, ∃ s, r.slotOf a = some s := fun a ha =>
    Option.ne_none_iff_exists'.mp ((h.mem_lru a).mp ha)
  have hnd : (r.freeSlots ++ r.lru.map fun a => (r.slotOf a).getD 0).Nodup := by
    refine List.nodup_append.mpr ⟨h.free_nodup, ?_, ?_⟩
    · refine h.lru_nodup.map_on fun a ha b hb hab => ?_
      obtain ⟨s, hs⟩ := hslot a ha
      obtain ⟨t, ht⟩ := hslot b hb
      rw [hs, ht] at hab
      obtain rfl : s = t := hab
      exact h.injective hs ht
    · intro s hs t ht hst
      obtain ⟨a, ha, rfl⟩ := List.mem_map.mp ht
      obtain ⟨u, hu⟩ := hslot a ha
      have hfree := (h.free s hs).2
      rw [hst, hu, Option.getD_some, (h.inverse a u).mp hu] at hfree
      cases hfree
  have hsub : r.freeSlots ++ (r.lru.map fun a => (r.slotOf a).getD 0) ⊆
      List.range' 1 r.numSlots := by
    intro s hs
    rw [List.mem_range'_1]
    rcases List.mem_append.mp hs with hs | hs
    · have hrange := (h.free s hs).1
      omega
    · obtain ⟨a, ha, rfl⟩ := List.mem_map.mp hs
      obtain ⟨u, hu⟩ := hslot a ha
      have hrange := h.range u a ((h.inverse a u).mp hu)
      rw [hu, Option.getD_some]
      omega
  have hlen := (List.subperm_of_subset hnd hsub).length_le
  rw [List.length_append, List.length_map, List.length_range'] at hlen
  exact hlen

/-- The working set and the pinned need no more seats than the misses and those who stay. -/
theorem Ledger.room {r : LoRARegistry δ α} (h : Ledger r) (want : List ℤ) :
    (want.toFinset ∪ r.pinned).card + r.available want ≤
      (r.misses want).length + r.numSlots := by
  have hsub : want.toFinset ∪ r.pinned ⊆ (r.misses want).toFinset ∪
      (r.lru.filter fun a => ! decide (a ∉ want ∧ a ∉ r.pinned)).toFinset := by
    intro a ha
    rw [Finset.mem_union, List.mem_toFinset] at ha
    rw [Finset.mem_union, List.mem_toFinset, List.mem_toFinset, misses, List.mem_filter,
      List.mem_filter, h.mem_lru]
    cases hs : r.slotOf a with
    | none =>
        refine .inl ⟨ha.resolve_right fun hp => h.pinned a hp hs, rfl⟩
    | some s =>
        refine .inr ⟨Option.some_ne_none s, ?_⟩
        rw [Bool.not_eq_true', decide_eq_false_iff_not, not_and_or, not_not, not_not]
        exact ha
  have hcard := (Finset.card_le_card hsub).trans ((Finset.card_union_le _ _).trans
    (Nat.add_le_add (List.toFinset_card_le _) (List.toFinset_card_le _)))
  have hlru := List.length_eq_length_filter_add (l := r.lru)
    fun a => decide (a ∉ want ∧ a ∉ r.pinned)
  have hseats := h.seats
  unfold available evictable
  omega

/-! ## §5  Calls -/

/-- The call behind its checks. -/
theorem activate_eq [Zero α] [DecidableEq δ] (T : Numerics δ α) {r : LoRARegistry δ α}
    {ids : List ℤ}
    (hknown : ∀ a ∈ wanted ids, r.adapters.lookup a ≠ none)
    (hlen : (wanted ids).length ≤ r.numSlots) :
    r.activate T ids =
      if wanted ids = [] then (.ok [], r)
      else loadAll T (wanted ids) (r.misses (wanted ids)) (r.hits (wanted ids))
        { r with lru := ((r.hits (wanted ids)).map (·.1)).foldl moveToEnd r.lru } := by
  have hnil : ((wanted ids).filter fun a => (r.adapters.lookup a).isNone) = [] := by
    refine List.filter_eq_nil_iff.mpr fun a ha hn => ?_
    exact hknown a ha (Option.isNone_iff_eq_none.mp hn)
  unfold activate
  simp only [hnil, if_neg (Nat.not_lt_of_le hlen)]

theorem mem_hits {r : LoRARegistry δ α} {want : List ℤ} {p : ℤ × ℕ} :
    p ∈ r.hits want ↔ p.1 ∈ want ∧ r.slotOf p.1 = some p.2 := by
  unfold hits
  rw [List.mem_filterMap]
  constructor
  · rintro ⟨a, ha, hp⟩
    obtain ⟨s, hs, rfl⟩ := Option.map_eq_some_iff.mp hp
    exact ⟨ha, hs⟩
  · rintro ⟨ha, hs⟩
    exact ⟨p.1, ha, by rw [hs]; rfl⟩

/-- Touching the hits only reorders the LRU. -/
theorem Ledger.perm_hits {r : LoRARegistry δ α} (h : Ledger r) (want : List ℤ) :
    (((r.hits want).map (·.1)).foldl moveToEnd r.lru).Perm r.lru := by
  refine perm_foldl_moveToEnd fun a ha => ?_
  obtain ⟨p, hp, rfl⟩ := List.mem_map.mp ha
  rw [h.mem_lru, (mem_hits.mp hp).2]
  exact Option.some_ne_none _

theorem mem_misses {r : LoRARegistry δ α} {want : List ℤ} {a : ℤ} :
    a ∈ r.misses want ↔ a ∈ want ∧ r.slotOf a = none := by
  unfold misses
  rw [List.mem_filter, Option.isNone_iff_eq_none]

/-- What the loop over the misses may rely on. -/
theorem misses_todo {r : LoRARegistry δ α} {ids : List ℤ}
    (hknown : ∀ a ∈ wanted ids, r.adapters.lookup a ≠ none) :
    ∀ a ∈ r.misses (wanted ids), a ∈ wanted ids ∧ r.slotOf a = none ∧
      ∃ A, r.adapters.lookup a = some A := by
  intro a ha
  obtain ⟨hw, hn⟩ := mem_misses.mp ha
  exact ⟨hw, hn, Option.ne_none_iff_exists'.mp (hknown a hw)⟩

/-! ## §6  Every registry has a ledger -/

theorem Ledger.new (numSlots maxRank : ℕ) (dtype : Option δ) (hn : 1 ≤ numSlots)
    (hr : 1 ≤ maxRank) :
    Ledger (LoRARegistry.new numSlots maxRank dtype hn hr : LoRARegistry δ α) := by
  refine ⟨fun a s => ⟨nofun, nofun⟩, nofun, fun a => ⟨nofun, fun ha => absurd rfl ha⟩, .nil,
    fun s hs => ⟨?_, rfl⟩, List.nodup_range', nofun, nofun⟩
  obtain ⟨hle, hlt⟩ := List.mem_range'_1.mp hs
  exact ⟨hle, Nat.le_of_lt_succ (by rwa [Nat.add_comm] at hlt)⟩

variable {r : LoRARegistry δ α}

/-- A call that passes its checks runs the loop over the misses; any other changes
nothing and maps nothing. -/
theorem activate_cases [Zero α] [DecidableEq δ] (T : Numerics δ α) (r : LoRARegistry δ α)
    (ids : List ℤ) :
    (∃ res, r.activate T ids = (res, r) ∧ ∀ m, res = .ok m → m = [] ∧ wanted ids = []) ∨
      (∀ a ∈ wanted ids, r.adapters.lookup a ≠ none) ∧
        (wanted ids).length ≤ r.numSlots ∧ r.activate T ids =
          LoRARegistry.loadAll T (wanted ids) (r.misses (wanted ids)) (r.hits (wanted ids))
            { r with lru := ((r.hits (wanted ids)).map (·.1)).foldl moveToEnd r.lru } := by
  unfold LoRARegistry.activate
  simp only
  by_cases hnil : wanted ids = []
  · rw [if_pos hnil]
    exact .inl ⟨_, rfl, fun m hm => ⟨(Except.ok.inj hm).symm, hnil⟩⟩
  · rw [if_neg hnil]
    cases hunknown : (wanted ids).filter fun a => (r.adapters.lookup a).isNone with
    | cons a rest => exact .inl ⟨_, rfl, fun m hm => nomatch hm⟩
    | nil =>
        by_cases hlen : (wanted ids).length > r.numSlots
        · rw [if_pos hlen]
          exact .inl ⟨_, rfl, fun m hm => nomatch hm⟩
        · rw [if_neg hlen]
          refine .inr ⟨fun a ha hn => ?_, Nat.le_of_not_lt hlen, rfl⟩
          refine (List.filter_eq_nil_iff.mp hunknown) a ha ?_
          rw [hn]
          rfl

/-- Whatever `activate` does, the ledger stays, and a mapping names residents only. -/
theorem Ledger.activate [Zero α] [DecidableEq δ] (h : Ledger r) (ids : List ℤ) :
    Keeps (wanted ids) r (r.activate T ids).2 ∧
      ∀ m, (r.activate T ids).1 = .ok m →
        ∀ p ∈ m, (r.activate T ids).2.slotOf p.1 = some p.2 := by
  rcases activate_cases T r ids with ⟨res, hact, hres⟩ | ⟨hknown, hlen, hact⟩
  · rw [hact]
    refine ⟨.refl h, fun m hm p hp => ?_⟩
    rw [(hres m hm).1] at hp
    cases hp
  · rw [hact]
    obtain ⟨hk, -, hmap⟩ := (h.touch (h.perm_hits (wanted ids))).loadAll T
      (r.hits (wanted ids)) ((nodup_wanted ids).filter _) (misses_todo hknown)
    refine ⟨⟨hk.ledger, ⟨hk.store.numSlots, hk.store.adapters, hk.store.pinned⟩, hk.kept⟩,
      fun m hm p hp => ?_⟩
    obtain ⟨loaded, rfl, -, hslots⟩ := hmap m hm
    rcases List.mem_append.mp hp with hp | hp
    · obtain ⟨hw, hs⟩ := mem_hits.mp hp
      exact hk.kept p.1 p.2 (.inl hw) hs
    · exact hslots p hp

theorem Ledger.pin [Zero α] [DecidableEq δ] (h : Ledger r) (key : Key) :
    Ledger (r.pin T key).2 := by
  unfold LoRARegistry.pin
  cases r.idFor key with
  | error e => exact h
  | ok a =>
      obtain ⟨hk, hmaps⟩ := h.activate (T := T) [a]
      dsimp only
      generalize r.activate T [a] = q at hk hmaps ⊢
      obtain ⟨res, r'⟩ := q
      cases res with
      | error e => exact hk.ledger
      | ok mapping =>
          dsimp only
          cases hslot : mapping.lookup a with
          | none => exact hk.ledger
          | some slot =>
              refine { hk.ledger with pinned := fun b hb => ?_ }
              rcases Finset.mem_insert.mp hb with rfl | hb
              · have hs : r'.slotOf b = some slot := hmaps mapping rfl _ (Lib.mem_of_lookup hslot)
                change r'.slotOf b ≠ none
                rw [hs]
                exact Option.some_ne_none _
              · exact hk.ledger.pinned b hb

theorem Ledger.unpin (h : Ledger r) (key : Key) : Ledger (r.unpin key).2 := by
  unfold LoRARegistry.unpin
  cases r.idFor key with
  | error e => exact h
  | ok a =>
      dsimp only
      split
      · exact { h with pinned := fun b hb => h.pinned b (Finset.mem_of_mem_erase hb) }
      · exact h

theorem Ledger.deactivate (h : Ledger r) (key : Key) : Ledger (r.deactivate key).2 := by
  unfold LoRARegistry.deactivate
  cases r.idFor key with
  | error e => exact h
  | ok a =>
      dsimp only
      split
      · exact h
      · rename_i hp
        cases hs : r.slotOf a with
        | none => exact h
        | some s =>
            obtain ⟨r', hev, hledger, -⟩ := h.evict hs hp
            dsimp only
            rw [hev]
            exact hledger

theorem mem_assign {K V : Type} [DecidableEq K] {k : K} {v : V} {l : List (K × V)}
    {p : K × V} (h : p ∈ assign k v l) : p = (k, v) ∨ p ∈ l := by
  induction l with
  | nil => exact Or.inl (List.mem_singleton.mp h)
  | cons q l ih =>
      rw [assign] at h
      split at h
      · rcases List.mem_cons.mp h with rfl | h
        · exact Or.inl rfl
        · exact Or.inr (List.mem_cons_of_mem _ h)
      · rcases List.mem_cons.mp h with rfl | h
        · exact Or.inr List.mem_cons_self
        · exact (ih h).imp_right (List.mem_cons_of_mem _)

theorem Ledger.attach (h : Ledger r) (name : String) (layer : LoRALinear δ α) :
    Ledger (r.attach name layer).2 := by
  unfold LoRARegistry.attach
  split
  · exact h
  · rename_i hgeo
    rw [not_or, not_not, not_not] at hgeo
    refine { h with geometry := fun p hp => ?_ }
    rcases mem_assign hp with rfl | hp
    · exact hgeo
    · exact h.geometry p hp

theorem clearSlots_shape [Zero α] [DecidableEq δ] {layer layer' : LoRALinear δ α} {slots : List ℕ}
    (hslots : ∀ s ∈ slots, 1 ≤ s ∧ s ≤ layer.numSlots)
    (hok : clearSlots layer slots = .ok layer') : SameShape layer layer' := by
  induction slots generalizing layer with
  | nil =>
      obtain rfl := Except.ok.inj hok
      exact ⟨rfl, rfl, rfl, rfl⟩
  | cons s slots ih =>
      obtain ⟨l₁, hl₁, hsame, -⟩ := LoRALinear.clearSlot_spec (hslots s List.mem_cons_self)
      simp only [clearSlots, List.foldlM_cons, hl₁] at hok
      obtain ⟨hn, hr, hin, hout⟩ := ih (fun t ht => by
        rw [hsame.numSlots]
        exact hslots t (List.mem_cons_of_mem _ ht)) hok
      exact ⟨hn.trans hsame.numSlots, hr.trans hsame.maxRank, hin.trans hsame.inFeatures,
        hout.trans hsame.outFeatures⟩

theorem Ledger.resetSlots [Zero α] [DecidableEq δ] (h : Ledger r) : Ledger r.resetSlots.2 := by
  have hsame : SameLayers r.layers (forLayers
      (fun _ layer => clearSlots layer (List.range' 1 r.numSlots)) r.layers).2 :=
    forLayers_forall₂ (fun l => ⟨rfl, rfl, rfl, rfl⟩) r.layers fun p hp l' hok =>
      clearSlots_shape (fun s hs => by
        rw [(h.geometry p hp).1]
        rw [List.mem_range'_1] at hs
        omega) hok
  have hgeo := hsame.geometry h.geometry
  unfold LoRARegistry.resetSlots
  dsimp only
  split
  · exact { h with geometry := hgeo }
  · refine ⟨fun a s => ⟨nofun, nofun⟩, nofun, fun a => ⟨nofun, fun ha => absurd rfl ha⟩,
      .nil, fun s hs => ⟨?_, rfl⟩, List.nodup_range', nofun, hgeo⟩
    obtain ⟨hle, hlt⟩ := List.mem_range'_1.mp hs
    exact ⟨hle, Nat.le_of_lt_succ (by rwa [Nat.add_comm] at hlt)⟩

theorem Ledger.buildContext [Zero α] [DecidableEq δ] (h : Ledger r) (items : List (ℤ × ℕ)) :
    Ledger (r.buildContext T items).2 := by
  unfold LoRARegistry.buildContext
  dsimp only
  split
  · exact h
  · have hk := (h.activate (T := T) (tokenLoraIds items)).1.ledger
    generalize r.activate T (tokenLoraIds items) = q at hk ⊢
    obtain ⟨res, r'⟩ := q
    cases res with
    | error e => exact hk
    | ok mapping =>
        dsimp only
        cases (tokenLoraIds items).mapM (slotIn mapping) <;> exact hk

theorem Ledger.registerAdapter [DecidableEq δ] (h : Ledger r) (A : LoRAAdapter δ α) :
    Ledger (r.registerAdapter T A).2 := by
  unfold LoRARegistry.registerAdapter
  split
  · exact h
  · exact { h with }

/-- No call, returning or raising, breaks the ledger. -/
theorem Ledger.call [Zero α] [DecidableEq δ] (h : Ledger r) (op : Op δ α) :
    Ledger (LoRARegistry.call T r op) := by
  cases op with
  | registerAdapter A => exact h.registerAdapter A
  | attach name layer => exact h.attach name layer
  | bind shapes reference => exact { h with }
  | activate ids => exact (h.activate ids).1.ledger
  | pin key => exact h.pin key
  | unpin key => exact h.unpin key
  | deactivate key => exact h.deactivate key
  | resetSlots => exact h.resetSlots
  | buildContext items => exact h.buildContext items

theorem Ledger.run [Zero α] [DecidableEq δ] (h : Ledger r) (ops : List (Op δ α)) :
    Ledger (LoRARegistry.run T r ops) := by
  induction ops generalizing r with
  | nil => exact h
  | cons op ops ih => exact ih (h.call op)

end TurboServe.Lora.LoRARegistry
