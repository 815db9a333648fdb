import TurboServe.Lora.Ledger

/-!
# The residency invariant

The slot bookkeeping, what every layer holds for every resident adapter, and what
each call of the registry does to them. A slot taken off the free list and not yet
recorded is carried as the slot in hand.
-/

namespace TurboServe.Lora.LoRARegistry

variable {δ α : Type}

/-- The bookkeeping, but for the slot in hand. -/
structure Books (r : LoRARegistry δ α) (hand : Option ℕ) : Prop where
  inverse : ∀ a s, r.slotOf a = some s ↔ r.adapterOf s = some a
  range : ∀ s a, r.adapterOf s = some a → 1 ≤ s ∧ s ≤ r.numSlots
  mem_lru : ∀ a, a ∈ r.lru ↔ r.slotOf a ≠ none
  lru_nodup : r.lru.Nodup
  mem_free : ∀ s, s ∈ r.freeSlots ↔
    (1 ≤ s ∧ s ≤ r.numSlots) ∧ r.adapterOf s = none ∧ hand ≠ some s
  free_nodup : r.freeSlots.Nodup
  pinned : ∀ a ∈ r.pinned, r.slotOf a ≠ none
  in_hand : ∀ s, hand = some s → (1 ≤ s ∧ s ≤ r.numSlots) ∧ r.adapterOf s = none
  known : ∀ a, r.slotOf a ≠ none → ∃ A, r.adapters.lookup a = some A
  geometry : ∀ p ∈ r.layers, p.2.numSlots = r.numSlots ∧ p.2.maxRank = r.maxRank

/-- Every layer holds every resident adapter in its slot. -/
def Contents [DecidableEq δ] [Zero α] (T : Numerics δ α) (r : LoRARegistry δ α) : Prop :=
  ∀ a s A, r.slotOf a = some s → r.adapters.lookup a = some A →
    ∀ p ∈ r.layers, p.2.Holds T s (A.weights.lookup p.1)

/-! ## §1  Slots -/

theorem Books.ledger {r : LoRARegistry δ α} {hand : Option ℕ} (h : Books r hand) :
    Ledger r :=
  ⟨h.inverse, h.range, h.mem_lru, h.lru_nodup,
    fun s hs => ⟨((h.mem_free s).mp hs).1, ((h.mem_free s).mp hs).2.1⟩, h.free_nodup,
    h.pinned, h.geometry⟩

/-- No slot is lost but the one in hand. -/
theorem Books.lost {r : LoRARegistry δ α} {hand : Option ℕ} (h : Books r hand) (s : ℕ) :
    r.Lost s ↔ hand = some s := by
  constructor
  · rintro ⟨hrange, hnone, hfree⟩
    by_contra hne
    exact hfree ((h.mem_free s).mpr ⟨hrange, hnone, hne⟩)
  · intro hs
    obtain ⟨hrange, hnone⟩ := h.in_hand s hs
    exact ⟨hrange, hnone, fun hfree => ((h.mem_free s).mp hfree).2.2 hs⟩

theorem Books.of_ledger {r : LoRARegistry δ α} {hand : Option ℕ} (h : Ledger r)
    (hlost : ∀ s, r.Lost s ↔ hand = some s)
    (hknown : ∀ a, r.slotOf a ≠ none → ∃ A, r.adapters.lookup a = some A) : Books r hand := by
  refine ⟨h.inverse, h.range, h.mem_lru, h.lru_nodup, fun s => ?_, h.free_nodup, h.pinned,
    fun s hs => ?_, hknown, h.geometry⟩
  · constructor
    · intro hs
      exact ⟨(h.free s hs).1, (h.free s hs).2, fun hh => ((hlost s).mpr hh).2.2 hs⟩
    · rintro ⟨hrange, hnone, hne⟩
      by_contra hs
      exact hne ((hlost s).mp ⟨hrange, hnone, hs⟩)
  · obtain ⟨hrange, hnone, -⟩ := (hlost s).mpr hs
    exact ⟨hrange, hnone⟩

/-- Evicting a resident adapter that is not pinned frees its slot. -/
theorem evictSlot_spec {r : LoRARegistry δ α} (h : Books r none) {a : ℤ} {s : ℕ}
    (ha : r.slotOf a = some s) (hp : a ∉ r.pinned) :
    ∃ r', r.evictSlot s = .ok r' ∧ Books r' none ∧ SameStore r r' ∧
      r'.layers = r.layers ∧ r'.slotOf = Function.update r.slotOf a none := by
  obtain ⟨r', hev, hledger, hlost, hsame, hlay, hslot, -, -⟩ := h.ledger.evict ha hp
  refine ⟨r', hev, .of_ledger hledger (fun t => (hlost t).trans (h.lost t)) ?_, hsame, hlay,
    hslot⟩
  intro b hb
  rw [hslot, Function.update_apply] at hb
  split at hb
  · exact absurd rfl hb
  · rw [hsame.adapters]
    exact h.known b hb

theorem takeSlot_spec {r : LoRARegistry δ α} (h : Books r none) (isProtected : List ℤ) :
    (∃ e, r.takeSlot isProtected = (.error e, r) ∧ r.available isProtected = 0) ∨
    (∃ s r', r.takeSlot isProtected = (.ok s, r') ∧ Books r' (some s) ∧ SameStore r r' ∧
      r'.layers = r.layers ∧ Stays isProtected r r' ∧
      r.available isProtected = r'.available isProtected + 1) := by
  rcases h.ledger.takeSlot isProtected with hnone |
    ⟨s, r', htake, hledger, hlost, hsame, hlay, hstay, -, havail, -⟩
  · exact .inl hnone
  · refine .inr ⟨s, r', htake, .of_ledger hledger (fun t => ?_) fun b hb => ?_, hsame, hlay,
      hstay, havail⟩
    · rw [hlost t, h.lost t]
      constructor
      · rintro (hn | rfl)
        · cases hn
        · rfl
      · exact fun hst => .inr (Option.some_inj.mp hst).symm
    · obtain ⟨t, ht⟩ := Option.ne_none_iff_exists'.mp hb
      rw [hsame.adapters]
      exact h.known b (by rw [hstay.old b t ht]; exact Option.some_ne_none t)

/-! ## §2  Loading -/

/-- A loop none of whose rounds raises reaches every layer. -/
theorem forLayers_ok {f : String → LoRALinear δ α → Except Fault (LoRALinear δ α)}
    {Q : String → LoRALinear δ α → LoRALinear δ α → Prop} :
    ∀ {layers : List (String × LoRALinear δ α)},
      (∀ p ∈ layers, ∃ l', f p.1 p.2 = .ok l' ∧ Q p.1 p.2 l') →
      ∃ layers', forLayers f layers = (.ok (), layers') ∧
        ∀ p' ∈ layers', ∃ p ∈ layers, p'.1 = p.1 ∧ Q p.1 p.2 p'.2 := by
  intro layers
  induction layers with
  | nil => exact fun _ => ⟨[], rfl, fun _ h => (nomatch h)⟩
  | cons p layers ih =>
      intro h
      obtain ⟨l', hl', hQ⟩ := h p List.mem_cons_self
      obtain ⟨layers', hok, hall⟩ := ih fun p' hp' => h p' (List.mem_cons_of_mem _ hp')
      refine ⟨(p.1, l') :: layers', by simp only [forLayers, hl', hok], ?_⟩
      intro p' hp'
      rcases List.mem_cons.mp hp' with rfl | hp'
      · exact ⟨p, List.mem_cons_self, rfl, hQ⟩
      · obtain ⟨p₀, hp₀, h₀⟩ := hall p' hp'
        exact ⟨p₀, List.mem_cons_of_mem _ hp₀, h₀⟩

variable [DecidableEq δ] [Zero α] {T : Numerics δ α}

theorem loadLayer_spec {r : LoRARegistry δ α} {hand : Option ℕ} (h : Books r hand)
    {A : LoRAAdapter δ α} {a : ℤ} (hA : r.adapters.lookup a = some A)
    (hfit : r.FitsAll a) {s : ℕ} (hs : 1 ≤ s ∧ s ≤ r.numSlots) :
    ∀ p ∈ r.layers, ∃ l', loadLayer T A s p.1 p.2 = .ok l' ∧
      LoRALinear.SameElsewhere s p.2 l' ∧ l'.Holds T s (A.weights.lookup p.1) := by
  intro p hp
  rw [← (h.geometry p hp).1] at hs
  unfold loadLayer
  cases hw : A.weights.lookup p.1 with
  | none => exact LoRALinear.clearSlot_holds hs
  | some w => exact LoRALinear.loadSlot_holds hs (hfit A hA p hp w hw)

omit [DecidableEq δ] [Zero α] in
/-- The slot in hand goes to an adapter that has none. -/
theorem Books.give {r : LoRARegistry δ α} {s : ℕ} (h : Books r (some s)) {a : ℤ}
    {A : LoRAAdapter δ α} (hA : r.adapters.lookup a = some A) (ha : r.slotOf a = none)
    {layers : List (String × LoRALinear δ α)}
    (hgeo : ∀ p ∈ layers, p.2.numSlots = r.numSlots ∧ p.2.maxRank = r.maxRank) :
    Books { r with
      layers := layers
      slotOf := Function.update r.slotOf a (some s)
      adapterOf := Function.update r.adapterOf s (some a)
      lru := moveToEnd r.lru a } none := by
  obtain ⟨hledger, hlost⟩ := h.ledger.give ((h.lost s).mpr rfl) ha hgeo
  refine .of_ledger hledger (fun t => ?_) fun b hb => ?_
  · rw [hlost t, h.lost t]
    refine iff_of_false ?_ nofun
    rintro ⟨hst, hts⟩
    exact hts (Option.some_inj.mp hst).symm
  · simp only [Function.update_apply] at hb
    split at hb
    · rename_i hba
      exact ⟨A, hba ▸ hA⟩
    · exact h.known b hb

theorem load_spec {r : LoRARegistry δ α} {s : ℕ} (h : Books r (some s))
    (hc : Contents T r) {a : ℤ} {A : LoRAAdapter δ α} (hA : r.adapters.lookup a = some A)
    (ha : r.slotOf a = none) (hfit : r.FitsAll a) :
    ∃ r', r.load T a s = (.ok (), r') ∧ Books r' none ∧ Contents T r' ∧ SameStore r r' ∧
      r'.slotOf = Function.update r.slotOf a (some s) ∧ r'.freeSlots = r.freeSlots ∧
      r'.lru = moveToEnd r.lru a ∧ (∀ b, r.FitsAll b → r'.FitsAll b) := by
  obtain ⟨hs, hnone⟩ := h.in_hand s rfl
  obtain ⟨layers', hok, hall⟩ := forLayers_ok (f := loadLayer T A s)
    (Q := fun name l l' => LoRALinear.SameElsewhere s l l' ∧
      l'.Holds T s (A.weights.lookup name)) (loadLayer_spec h hA hfit hs)
  unfold load
  simp only [hA, hok]
  refine ⟨_, rfl, h.give hA ha ?_, ?_, ⟨rfl, rfl, rfl⟩, rfl, rfl, rfl, ?_⟩
  · intro p' hp'
    obtain ⟨p, hp, -, hsame, -⟩ := hall p' hp'
    exact ⟨hsame.numSlots.trans (h.geometry p hp).1, hsame.maxRank.trans (h.geometry p hp).2⟩
  · intro b t B hb hB p' hp'
    obtain ⟨p, hp, hname, hsame, hholds⟩ := hall p' hp'
    simp only [Function.update_apply] at hb
    split at hb
    · rename_i hba
      obtain rfl := Option.some_inj.mp hb
      rw [hba] at hB
      obtain rfl := Option.some_inj.mp (hB.symm.trans hA)
      rw [hname]
      exact hholds
    · have hbt := (h.inverse b t).mp hb
      have hrange := h.range t b hbt
      have hts : t ≠ s := fun hts => by
        rw [hts, hnone] at hbt
        cases hbt
      rw [hname]
      exact (hc b t B hb hB p hp).elsewhere hsame (by omega)
  · intro b hb B hB p' hp' w hw
    obtain ⟨p, hp, hname, hsame, -⟩ := hall p' hp'
    have hfits := hb B hB p hp w (hname ▸ hw)
    exact ⟨hfits.1.trans hsame.inFeatures.symm, hfits.2.1.trans hsame.outFeatures.symm,
      hfits.2.2.trans_eq hsame.maxRank.symm⟩

/-! ## §3  Activation -/

/-- The bookkeeping and the contents between two calls. -/
structure Kept (T : Numerics δ α) (r : LoRARegistry δ α) : Prop where
  books : Books r none
  contents : Contents T r

/-- A mapping that names resident slots only. -/
def Maps (r : LoRARegistry δ α) (mapping : List (ℤ × ℕ)) : Prop :=
  ∀ p ∈ mapping, r.slotOf p.1 = some p.2

/-- One miss: a slot is taken and loaded. -/
theorem take_then_load {r r' : LoRARegistry δ α} {isProtected : List ℤ} {s : ℕ} {a : ℤ}
    (h : Contents T r) (hbooks : Books r' (some s)) (hsame : SameStore r r')
    (hlay : r'.layers = r.layers) (hstay : Stays isProtected r r')
    (ha : a ∈ isProtected) (hnone : r.slotOf a = none)
    (hknown : ∃ A, r.adapters.lookup a = some A) (hfit : r.FitsAll a) :
    ∃ r'', r'.load T a s = (.ok (), r'') ∧ Kept T r'' ∧ SameStore r r'' ∧
      r''.slotOf = Function.update r'.slotOf a (some s) ∧
      r''.available isProtected = r'.available isProtected ∧
      (∀ b, r.FitsAll b → r''.FitsAll b) := by
  obtain ⟨A, hA⟩ := hknown
  have hc' : Contents T r' := by
    intro b t B hb hB p hp
    rw [hsame.adapters] at hB
    rw [hlay] at hp
    exact h b t B (hstay.old b t hb) hB p hp
  have hfits : ∀ b, r.FitsAll b → r'.FitsAll b := by
    intro b hb B hB p hp
    rw [hsame.adapters] at hB
    rw [hlay] at hp
    exact hb B hB p hp
  obtain ⟨r'', hload, hb'', hc'', hsame'', hslot, hfree, hlru, hf''⟩ :=
    load_spec hbooks hc' (hsame.adapters ▸ hA) ((hstay.kept a ha).trans hnone)
      (hfits a hfit)
  exact ⟨r'', hload, ⟨hb'', hc''⟩, hsame.trans hsame'', hslot,
    available_moveToEnd ha hlru hfree hsame''.pinned, fun b hb => hf'' b (hfits b hb)⟩

theorem loadAll_spec {isProtected : List ℤ} {todo : List ℤ} {mapping : List (ℤ × ℕ)}
    {r : LoRARegistry δ α} (h : Kept T r) (hnd : todo.Nodup)
    (htodo : ∀ a ∈ todo, a ∈ isProtected ∧ r.slotOf a = none ∧
      ∃ A, r.adapters.lookup a = some A)
    (hfit : ∀ a ∈ todo.take (r.available isProtected), r.FitsAll a)
    (hmap : Maps r mapping) (hprot : ∀ p ∈ mapping, p.1 ∈ isProtected) :
    Kept T (loadAll T isProtected todo mapping r).2 ∧
    SameStore r (loadAll T isProtected todo mapping r).2 ∧
    ∀ m, (loadAll T isProtected todo mapping r).1 = .ok m →
      Maps (loadAll T isProtected todo mapping r).2 m ∧
      (∀ p ∈ mapping, p ∈ m) ∧ ∀ a ∈ todo, ∃ s, (a, s) ∈ m := by
  induction todo generalizing mapping r with
  | nil =>
      refine ⟨h, .refl r, fun m hm => ?_⟩
      obtain rfl : mapping = m := by simpa [loadAll] using hm
      exact ⟨hmap, fun _ hp => hp, fun _ ha => by cases ha⟩
  | cons a rest ih =>
      obtain ⟨haprot, hanone, haknown⟩ := htodo a List.mem_cons_self
      obtain ⟨ha, hnd'⟩ := List.nodup_cons.mp hnd
      rw [loadAll]
      rcases takeSlot_spec h.books isProtected with
        ⟨e, htake, -⟩ | ⟨s, r', htake, hbooks, hsame, hlay, hstay, havail⟩
      · rw [htake]
        exact ⟨h, .refl r, fun m hm => by cases hm⟩
      · rw [havail, List.take_succ_cons] at hfit
        obtain ⟨r'', hload, hkept, hsame'', hslot, hav, hfits⟩ :=
          take_then_load h.contents hbooks hsame hlay hstay haprot hanone haknown
            (hfit a List.mem_cons_self)
        -- the protected adapters keep their slots, `a` has the one taken
        have hold : ∀ b ∈ isProtected, b ≠ a → r''.slotOf b = r.slotOf b := by
          intro b hb hba
          rw [hslot, Function.update_of_ne hba, hstay.kept b hb]
        have hself : r''.slotOf a = some s := by rw [hslot, Function.update_self]
        have hne : ∀ b, b ∈ rest → b ≠ a := fun b hb hba => ha (hba ▸ hb)
        have hmap'' : Maps r'' (mapping ++ [(a, s)]) := by
          intro p hp
          rcases List.mem_append.mp hp with hp | hp
          · have hpa : p.1 ≠ a := fun hpa => by
              have := hmap p hp
              rw [hpa, hanone] at this
              cases this
            exact (hold p.1 (hprot p hp) hpa).trans (hmap p hp)
          · rw [List.mem_singleton.mp hp]
            exact hself
        have hprot'' : ∀ p ∈ mapping ++ [(a, s)], p.1 ∈ isProtected := by
          intro p hp
          rcases List.mem_append.mp hp with hp | hp
          · exact hprot p hp
          · rw [List.mem_singleton.mp hp]
            exact haprot
        obtain ⟨hk, hs, hm⟩ := ih hkept hnd' (fun b hb => by
            obtain ⟨hbp, hbn, hbk⟩ := htodo b (List.mem_cons_of_mem _ hb)
            exact ⟨hbp, (hold b hbp (hne b hb)).trans hbn, hsame''.adapters ▸ hbk⟩)
          (fun b hb => hfits b (hfit b (List.mem_cons_of_mem _ (hav ▸ hb)))) hmap'' hprot''
        simp only [htake, hload]
        refine ⟨hk, hsame''.trans hs, fun m hok => ?_⟩
        obtain ⟨hmaps, hsub, hall⟩ := hm m hok
        refine ⟨hmaps, fun p hp => hsub p (List.mem_append_left _ hp), fun b hb => ?_⟩
        rcases List.mem_cons.mp hb with rfl | hb
        · exact ⟨s, hsub _ (List.mem_append_right _ (List.mem_singleton_self _))⟩
        · exact hall b hb

/-- Reordering the LRU. -/
theorem Kept.touch {r : LoRARegistry δ α} (h : Kept T r) {lru : List ℤ}
    (hp : lru.Perm r.lru) : Kept T { r with lru := lru } :=
  ⟨{ h.books with
      mem_lru := fun a => hp.mem_iff.trans (h.books.mem_lru a)
      lru_nodup := hp.nodup_iff.mpr h.books.lru_nodup }, h.contents⟩

/-- The loads of a call that passes its checks accept the factors they move: those of
the misses there is still a slot for. -/
def Loadable (r : LoRARegistry δ α) (ids : List ℤ) : Prop :=
  (∀ a ∈ wanted ids, r.adapters.lookup a ≠ none) → (wanted ids).length ≤ r.numSlots →
    ∀ a ∈ (r.misses (wanted ids)).take (r.available (wanted ids)), r.FitsAll a

/-- Every mapping returned gives each adapter asked for its slot. -/
def Answers (ids : List ℤ) (r' : LoRARegistry δ α) (m : List (ℤ × ℕ)) : Prop :=
  ∀ a ∈ ids, a ≠ noLora → ∃ s, m.lookup a = some s ∧ r'.slotOf a = some s

omit [DecidableEq δ] [Zero α] in
theorem lookup_of_maps {r : LoRARegistry δ α} {m : List (ℤ × ℕ)} (h : Maps r m) {a : ℤ}
    (ha : ∃ s, (a, s) ∈ m) : ∃ s, m.lookup a = some s ∧ r.slotOf a = some s := by
  obtain ⟨s, hs⟩ := ha
  cases hl : m.lookup a with
  | none =>
      rw [List.lookup_eq_none_iff] at hl
      exact absurd (hl _ hs) (by simp)
  | some t => exact ⟨t, rfl, h _ (Lib.mem_of_lookup hl)⟩

theorem activate_spec {r : LoRARegistry δ α} (h : Kept T r) {ids : List ℤ}
    (hload : Loadable r ids) :
    Kept T (r.activate T ids).2 ∧ SameStore r (r.activate T ids).2 ∧
    ∀ m, (r.activate T ids).1 = .ok m → Answers ids (r.activate T ids).2 m := by
  rcases activate_cases T r ids with ⟨res, hact, hres⟩ | ⟨hknown, hlen, hact⟩
  · rw [hact]
    refine ⟨h, .refl r, fun m hm a ha hne => ?_⟩
    have hw := mem_wanted.mpr ⟨ha, hne⟩
    rw [(hres m hm).2] at hw
    cases hw
  · rw [hact]
    have hperm := h.books.ledger.perm_hits (wanted ids)
    have hnd : (r.misses (wanted ids)).Nodup := (nodup_wanted ids).filter _
    obtain ⟨hk, hs, hm⟩ := loadAll_spec (h.touch hperm) hnd (misses_todo hknown)
      (fun a ha => by
        rw [available_touch hperm] at ha
        exact hload hknown hlen a ha)
      (fun p hp => (mem_hits.mp hp).2) fun p hp => (mem_hits.mp hp).1
    refine ⟨hk, ⟨hs.numSlots, hs.adapters, hs.pinned⟩, fun m hok a ha hne => ?_⟩
    obtain ⟨hmaps, hsub, hall⟩ := hm m hok
    refine lookup_of_maps hmaps ?_
    have hw := mem_wanted.mpr ⟨ha, hne⟩
    cases hsl : r.slotOf a with
    | none => exact hall a (mem_misses.mpr ⟨hw, hsl⟩)
    | some s => exact ⟨s, hsub _ (mem_hits.mpr ⟨hw, hsl⟩)⟩

/-! ## §4  The other calls -/

theorem Kept.new (numSlots maxRank : ℕ) (dtype : Option δ) (hn : 1 ≤ numSlots)
    (hr : 1 ≤ maxRank) : Kept T (LoRARegistry.new numSlots maxRank dtype hn hr) := by
  refine ⟨⟨fun a s => ⟨nofun, nofun⟩, nofun, fun a => ?_, .nil, fun s => ?_,
    List.nodup_range', nofun, nofun, fun a ha => absurd rfl ha, nofun⟩, nofun⟩
  · exact ⟨nofun, fun ha => absurd rfl ha⟩
  · simp only [LoRARegistry.new, List.mem_range'_1, ne_eq, reduceCtorEq, not_false_eq_true,
      and_true]
    omega

theorem Kept.registerAdapter {r : LoRARegistry δ α} (h : Kept T r) (A : LoRAAdapter δ α) :
    Kept T (r.registerAdapter T A).2 := by
  unfold LoRARegistry.registerAdapter
  split
  · exact h
  · -- a resident adapter is found before the new one
    have hfind : ∀ B a, r.slotOf a ≠ none →
        (r.adapters ++ [(r.nextId, B)]).lookup a = r.adapters.lookup a := by
      intro B a ha
      obtain ⟨A₀, hA₀⟩ := h.books.known a ha
      rw [List.lookup_append, hA₀, Option.some_or]
    refine ⟨{ h.books with known := fun a ha => ?_ }, fun a s B ha hB => ?_⟩
    · obtain ⟨A₀, hA₀⟩ := h.books.known a ha
      exact ⟨A₀, (hfind _ a ha).trans hA₀⟩
    · have hne : r.slotOf a ≠ none := by
        change r.slotOf a = some s at ha
        rw [ha]
        exact nofun
      exact h.contents a s B ha ((hfind _ a hne).symm.trans hB)

/-- The layer already holds what every resident adapter has for the name it is
attached under. -/
def Agrees (T : Numerics δ α) (r : LoRARegistry δ α) (name : String)
    (layer : LoRALinear δ α) : Prop :=
  ∀ a s A, r.slotOf a = some s → r.adapters.lookup a = some A →
    layer.Holds T s (A.weights.lookup name)

theorem Kept.attach {r : LoRARegistry δ α} (h : Kept T r) {name : String}
    {layer : LoRALinear δ α}
    (hagree : layer.numSlots = r.numSlots → layer.maxRank = r.maxRank →
      Agrees T r name layer) : Kept T (r.attach name layer).2 := by
  unfold LoRARegistry.attach
  split
  · exact h
  · rename_i hgeo
    rw [not_or, not_not, not_not] at hgeo
    refine ⟨{ h.books with geometry := fun p hp => ?_ }, fun a s A ha hA p hp => ?_⟩
    · rcases mem_assign hp with rfl | hp
      · exact hgeo
      · exact h.books.geometry p hp
    · rcases mem_assign hp with rfl | hp
      · exact hagree hgeo.1 hgeo.2 a s A ha hA
      · exact h.contents a s A ha hA p hp

theorem Kept.bind {r : LoRARegistry δ α} (h : Kept T r) (shapes : List (String × ℕ × ℕ))
    (reference : Option δ) : Kept T (r.bind shapes reference).2 :=
  ⟨{ h.books with }, h.contents⟩

theorem Kept.pin {r : LoRARegistry δ α} (h : Kept T r) {key : Key}
    (hload : ∀ a, r.idFor key = .ok a → r.Loadable [a]) : Kept T (r.pin T key).2 := by
  unfold LoRARegistry.pin
  split
  · exact h
  · rename_i a hid
    obtain ⟨hk, -, hm⟩ := activate_spec h (hload a hid)
    generalize hq : r.activate T [a] = q at hk hm ⊢
    obtain ⟨res, r'⟩ := q
    cases res with
    | error e => exact hk
    | ok mapping =>
        simp only
        split
        · exact hk
        · rename_i slot hslot
          have hne : a ≠ noLora := by
            rintro rfl
            have hnil : mapping = [] := by
              have hact : r.activate T [noLora] = (.ok [], r) := rfl
              rw [hact] at hq
              exact (Except.ok.inj (Prod.mk.inj hq).1).symm
            rw [hnil] at hslot
            cases hslot
          obtain ⟨s, -, hs⟩ := hm mapping rfl a (List.mem_singleton_self a) hne
          refine ⟨{ hk.books with pinned := fun b hb => ?_ }, hk.contents⟩
          rcases Finset.mem_insert.mp hb with rfl | hb
          · change r'.slotOf b ≠ none
            change r'.slotOf b = some s at hs
            rw [hs]
            exact Option.some_ne_none s
          · exact hk.books.pinned b hb

theorem Kept.unpin {r : LoRARegistry δ α} (h : Kept T r) (key : Key) :
    Kept T (r.unpin key).2 := by
  unfold LoRARegistry.unpin
  split
  · exact h
  · split
    · exact ⟨{ h.books with
        pinned := fun b hb => h.books.pinned b (Finset.mem_of_mem_erase hb) }, h.contents⟩
    · exact h

theorem Kept.deactivate {r : LoRARegistry δ α} (h : Kept T r) (key : Key) :
    Kept T (r.deactivate key).2 := by
  unfold LoRARegistry.deactivate
  split
  · exact h
  · rename_i a _
    split
    · exact h
    · rename_i hp
      split
      · exact h
      · rename_i s hs
        obtain ⟨r', hev, hbooks, hsame, hlay, hslot⟩ := evictSlot_spec h.books hs hp
        simp only [hev]
        refine ⟨hbooks, fun b t B hb hB p hpl => ?_⟩
        rw [hslot, Function.update_apply] at hb
        split at hb
        · cases hb
        · rw [hlay] at hpl
          rw [hsame.adapters] at hB
          exact h.contents b t B hb hB p hpl

omit [DecidableEq δ] in
theorem clearSlots_ok {layer : LoRALinear δ α} {slots : List ℕ}
    (h : ∀ s ∈ slots, 1 ≤ s ∧ s ≤ layer.numSlots) :
    ∃ l', clearSlots layer slots = .ok l' ∧ l'.numSlots = layer.numSlots ∧
      l'.maxRank = layer.maxRank := by
  induction slots generalizing layer with
  | nil => exact ⟨layer, rfl, rfl, rfl⟩
  | cons s slots ih =>
      obtain ⟨l₁, hok, hsame, -⟩ := LoRALinear.clearSlot_spec (h s List.mem_cons_self)
      obtain ⟨l', hl', hn, hr⟩ := ih fun t ht => by
        rw [hsame.numSlots]
        exact h t (List.mem_cons_of_mem _ ht)
      refine ⟨l', ?_, hn.trans hsame.numSlots, hr.trans hsame.maxRank⟩
      simp only [clearSlots, List.foldlM_cons, hok]
      exact hl'

theorem Kept.resetSlots {r : LoRARegistry δ α} (h : Kept T r) : Kept T r.resetSlots.2 := by
  obtain ⟨layers', hok, hall⟩ := forLayers_ok
    (f := fun _ layer => clearSlots layer (List.range' 1 r.numSlots))
    (Q := fun _ l l' => l'.numSlots = l.numSlots ∧ l'.maxRank = l.maxRank)
    (fun p hp => clearSlots_ok fun s hs => by
      rw [(h.books.geometry p hp).1]
      rw [List.mem_range'_1] at hs
      omega)
  unfold LoRARegistry.resetSlots
  simp only [hok]
  refine
    ⟨{ inverse := fun a s => ?_, range := fun s a h => ?_, mem_lru := fun a => ?_
       lru_nodup := .nil, mem_free := fun s => ?_, free_nodup := List.nodup_range'
       pinned := fun a h => ?_, in_hand := fun s h => ?_
       known := fun a h => absurd rfl h, geometry := fun p' hp' => ?_ }, fun a s A h => ?_⟩
  · constructor <;> intro h <;> cases h
  · cases h
  · exact iff_of_false List.not_mem_nil fun h => h rfl
  · simp only [List.mem_range'_1, ne_eq, reduceCtorEq, not_false_eq_true, and_true]
    omega
  · exact absurd h (Finset.notMem_empty a)
  · cases h
  · obtain ⟨p, hp, -, hn, hr⟩ := hall p' hp'
    exact ⟨hn.trans (h.books.geometry p hp).1, hr.trans (h.books.geometry p hp).2⟩
  · cases h

/-! ## §5  The context of a step -/

/-- The slots of a step's tokens, in terms of the registry after the call. -/
structure TokenSlots (r' : LoRARegistry δ α) (ids : List ℤ) (slots : List ℕ) : Prop where
  length : slots.length = ids.length
  base : ∀ i (hi : i < ids.length), slots[i]? = some 0 ↔ ids[i] = noLora
  adapter : ∀ i (hi : i < ids.length), ids[i] ≠ noLora → r'.slotOf ids[i] = slots[i]?

omit [DecidableEq δ] [Zero α] in
theorem slotIn_spec {r' : LoRARegistry δ α} (h : Books r' none) {ids : List ℤ}
    {mapping : List (ℤ × ℕ)} (ha : Answers ids r' mapping) {a : ℤ} (hmem : a ∈ ids) :
    ∃ s, slotIn mapping a = .ok s ∧ (s = 0 ↔ a = noLora) ∧
      (a ≠ noLora → r'.slotOf a = some s) := by
  unfold slotIn
  by_cases hbase : a = noLora
  · exact ⟨0, by rw [if_pos hbase], iff_of_true rfl hbase, fun hne => absurd hbase hne⟩
  · obtain ⟨s, hs, hslot⟩ := ha a hmem hbase
    have hpos := (h.range s a ((h.inverse a s).mp hslot)).1
    refine ⟨s, by rw [if_neg hbase, hs], iff_of_false (by omega) hbase, fun _ => hslot⟩

omit [DecidableEq δ] [Zero α] in
theorem tokenSlots {r' : LoRARegistry δ α} (h : Books r' none) {mapping : List (ℤ × ℕ)}
    {ids : List ℤ} (ha : Answers ids r' mapping) :
    ∃ slots, ids.mapM (slotIn mapping) = .ok slots ∧ TokenSlots r' ids slots := by
  induction ids with
  | nil => exact ⟨[], rfl, rfl, nofun, nofun⟩
  | cons a ids ih =>
      obtain ⟨s, hs, hbase, hslot⟩ := slotIn_spec h ha List.mem_cons_self
      obtain ⟨slots, hok, hts⟩ := ih fun b hb => ha b (List.mem_cons_of_mem _ hb)
      refine ⟨s :: slots, by rw [List.mapM_cons, hs, hok]; rfl, ?_, ?_, ?_⟩
      · rw [List.length_cons, hts.length, List.length_cons]
      · intro i hi
        cases i with
        | zero => simpa using hbase
        | succ i => simpa using hts.base i (Nat.lt_of_succ_lt_succ hi)
      · intro i hi
        cases i with
        | zero => simpa using hslot
        | succ i => simpa using hts.adapter i (Nat.lt_of_succ_lt_succ hi)

/-- The range of `order` a segment names lists exactly the tokens of its slot. -/
def Grouped (batch : LoRABatch) : Prop :=
  batch.segments.map (·.1) = batch.activeSlots ∧
  (∀ slot, slot ∈ batch.activeSlots ↔ slot ≠ 0 ∧ slot ∈ batch.tokenLoraSlot) ∧
  ∀ p ∈ batch.segments, (batch.order.drop p.2.1).take (p.2.2 - p.2.1) =
    LoRABatch.positions batch.tokenLoraSlot p.1

theorem map_segmentsFrom (slots : List ℕ) (start : ℕ) (active : List ℕ) :
    (LoRABatch.segmentsFrom slots start active).map (·.1) = active := by
  induction active generalizing start with
  | nil => rfl
  | cons slot rest ih => simp only [LoRABatch.segmentsFrom, List.map_cons, ih]

theorem segmentsFrom_spec (slots before active : List ℕ) :
    ∀ p ∈ LoRABatch.segmentsFrom slots before.length active,
      ((before ++ active.flatMap (LoRABatch.positions slots)).drop p.2.1).take
        (p.2.2 - p.2.1) = LoRABatch.positions slots p.1 := by
  induction active generalizing before with
  | nil => exact nofun
  | cons slot rest ih =>
      intro p hp
      rcases List.mem_cons.mp hp with rfl | hp
      · simp
      · have hlen : before.length + (LoRABatch.positions slots slot).length =
            (before ++ LoRABatch.positions slots slot).length := List.length_append.symm
        simp only [hlen] at hp
        rw [List.flatMap_cons, ← List.append_assoc]
        exact ih _ p hp

theorem fromTokenSlots_grouped (slots : List ℕ) :
    Grouped (LoRABatch.fromTokenSlots slots) := by
  refine ⟨map_segmentsFrom .., fun slot => ?_, segmentsFrom_spec slots [] _⟩
  simp [LoRABatch.fromTokenSlots, List.mem_insertionSort, and_comm]

/-- What one step's context says of its tokens. -/
def ContextOf (r' : LoRARegistry δ α) (ids : List ℤ) : Option LoRABatch → Prop
  | none => ∀ a ∈ ids, a = noLora
  | some batch => TokenSlots r' ids batch.tokenLoraSlot ∧ Grouped batch

theorem buildContext_spec {r : LoRARegistry δ α} (h : Kept T r) {items : List (ℤ × ℕ)}
    (hload : r.Loadable (tokenLoraIds items)) :
    Kept T (r.buildContext T items).2 ∧
    ∀ ctx, (r.buildContext T items).1 = .ok ctx →
      ContextOf (r.buildContext T items).2 (tokenLoraIds items) ctx := by
  unfold buildContext
  simp only
  split
  · rename_i hall
    refine ⟨h, fun ctx hctx => ?_⟩
    obtain rfl := Except.ok.inj hctx
    intro a ha
    exact of_decide_eq_true (List.all_eq_true.mp hall a ha)
  · obtain ⟨hk, -, hm⟩ := activate_spec h hload
    generalize r.activate T (tokenLoraIds items) = q at hk hm ⊢
    obtain ⟨res, r'⟩ := q
    cases res with
    | error e => exact ⟨hk, fun ctx hctx => (nomatch hctx)⟩
    | ok mapping =>
        obtain ⟨slots, hok, hts⟩ := tokenSlots hk.books (hm mapping rfl)
        simp only [hok]
        refine ⟨hk, fun ctx hctx => ?_⟩
        obtain rfl := Except.ok.inj hctx
        exact ⟨hts, fromTokenSlots_grouped slots⟩

/-! ## §6  Runs -/

/-- Where a call may go wrong: a layer attached while adapters are resident agrees with
them, and the loads a call makes are of factors the layers accept. -/
def Allowed (T : Numerics δ α) (r : LoRARegistry δ α) : Op δ α → Prop
  | .attach name layer => layer.numSlots = r.numSlots → layer.maxRank = r.maxRank →
      Agrees T r name layer
  | .activate ids => r.Loadable ids
  | .pin key => ∀ a, r.idFor key = .ok a → r.Loadable [a]
  | .buildContext items => r.Loadable (tokenLoraIds items)
  | _ => True

def AllowedRun (T : Numerics δ α) (r : LoRARegistry δ α) : List (Op δ α) → Prop
  | [] => True
  | op :: ops => Allowed T r op ∧ AllowedRun T (call T r op) ops

theorem Kept.call {r : LoRARegistry δ α} (h : Kept T r) {op : Op δ α}
    (hop : Allowed T r op) : Kept T (LoRARegistry.call T r op) := by
  cases op with
  | registerAdapter A => exact h.registerAdapter A
  | attach name layer => exact h.attach hop
  | bind shapes reference => exact h.bind shapes reference
  | activate ids => exact (activate_spec h hop).1
  | pin key => exact h.pin hop
  | unpin key => exact h.unpin key
  | deactivate key => exact h.deactivate key
  | resetSlots => exact h.resetSlots
  | buildContext items => exact (buildContext_spec h hop).1

theorem Kept.run {r : LoRARegistry δ α} (h : Kept T r) {ops : List (Op δ α)}
    (hops : AllowedRun T r ops) : Kept T (LoRARegistry.run T r ops) := by
  induction ops generalizing r with
  | nil => exact h
  | cons op ops ih => exact ih (h.call hops.1) hops.2

end TurboServe.Lora.LoRARegistry
