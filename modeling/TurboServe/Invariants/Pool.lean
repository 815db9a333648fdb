import TurboServe.Core.PrefixCache

/-!
# The pool of blocks: allocator and prefix cache together

The allocator and the prefix cache are two views of one pool. `PoolInv a held`
says what they agree on when `held` is the multiset of references outside the
pool: each reference count is a multiplicity in `held`; every block is free,
retained or referenced, and only one of these; the cache's LRU lists exactly
the retained blocks, its two indexes are inverse, and nothing on the free list
is indexed.

Each operation has one specification here: under `PoolInv` and its own
precondition it succeeds, `PoolInv` holds with the updated references, and
nothing else of the pool's shape changed.
-/

namespace TurboServe.Core

variable {D : Type}

/-- The block's entry in the prefix index, if the pool has one. -/
def BlockAllocator.indexed (a : BlockAllocator (PrefixCache D)) (b : BlockId) :
    Option D :=
  match a.recycler with
  | none => none
  | some c => c.byBlock b

/-- The two indexes of the cache are inverse to each other. -/
def PrefixCache.Inverse (c : PrefixCache D) : Prop :=
  ∀ b d, c.byBlock b = some d ↔ c.byHash d = some b

/-- What the cache owes the allocator. -/
structure CacheInv (c : PrefixCache D) (a : BlockAllocator (PrefixCache D)) :
    Prop where
  blockSize_eq : c.blockSize = a.blockSize
  inverse : c.Inverse
  evictable_nodup : c.evictable.Nodup
  mem_evictable : ∀ b, b ∈ c.evictable ↔ b ∈ a.retained
  retained_indexed : ∀ b ∈ a.retained, (c.byBlock b).isSome
  free_unindexed : ∀ b ∈ a.free, c.byBlock b = none
  indexed_lt : ∀ b, (c.byBlock b).isSome → b < a.numBlocks

/-- The pool invariant, relative to the references held outside it. -/
structure PoolInv (a : BlockAllocator (PrefixCache D)) (held : Multiset BlockId) :
    Prop where
  refs_eq : ∀ b, a.refs b = held.count b
  free_nodup : a.free.Nodup
  lt_iff : ∀ b, b < a.numBlocks ↔ b ∈ a.free ∨ b ∈ a.retained ∨ b ∈ held
  free_retained : ∀ b ∈ a.free, b ∉ a.retained
  free_held : ∀ b ∈ a.free, b ∉ held
  retained_held : ∀ b ∈ a.retained, b ∉ held
  retained_none : a.recycler = none → a.retained = ∅
  cache : ∀ c, a.recycler = some c → CacheInv c a

/-- What no operation on the pool changes. -/
structure SameShape (a a' : BlockAllocator (PrefixCache D)) : Prop where
  numBlocks_eq : a'.numBlocks = a.numBlocks
  blockSize_eq : a'.blockSize = a.blockSize
  recycler_eq : a'.recycler.isSome = a.recycler.isSome

namespace SameShape

theorem refl (a : BlockAllocator (PrefixCache D)) : SameShape a a := ⟨rfl, rfl, rfl⟩

theorem trans {a b c : BlockAllocator (PrefixCache D)} (h₁ : SameShape a b)
    (h₂ : SameShape b c) : SameShape a c :=
  ⟨h₂.numBlocks_eq.trans h₁.numBlocks_eq, h₂.blockSize_eq.trans h₁.blockSize_eq,
    h₂.recycler_eq.trans h₁.recycler_eq⟩

end SameShape

/-! ## §1  The index -/

namespace PrefixCache

variable [DecidableEq D] {c : PrefixCache D}

theorem Inverse.forget (h : c.Inverse) (b : BlockId) : (c.forget b).Inverse := by
  intro x d
  unfold PrefixCache.forget
  cases hb : c.byBlock b with
  | none => exact h x d
  | some e =>
      have he : c.byHash e = some b := (h b e).mp hb
      simp only [Function.update_apply]
      by_cases hx : x = b
      · subst hx
        have hd : ∀ d, c.byHash d = some x → d = e := fun d hd =>
          Option.some.inj (((h x d).mpr hd).symm.trans hb)
        by_cases hde : d = e
        · simp [hde]
        · simpa [hde] using fun hd' => hde (hd d hd')
      · by_cases hde : d = e
        · have : c.byBlock x ≠ some e := fun hxe =>
            hx (Option.some.inj (((h x e).mp hxe).symm.trans he))
          simpa [hx, hde] using this
        · simpa [hx, hde] using h x d

theorem forget_byBlock_self (b : BlockId) : (c.forget b).byBlock b = none := by
  unfold forget
  cases hb : c.byBlock b <;> simp [hb]

theorem forget_byBlock_of_ne {b x : BlockId} (hx : x ≠ b) :
    (c.forget b).byBlock x = c.byBlock x := by
  unfold forget
  cases hb : c.byBlock b <;> simp [hx]

theorem forget_blockSize (b : BlockId) : (c.forget b).blockSize = c.blockSize := by
  unfold forget
  cases c.byBlock b <;> rfl

theorem forget_evictable (b : BlockId) : (c.forget b).evictable = c.evictable := by
  unfold forget
  cases c.byBlock b <;> rfl

/-- Evicting one block: the oldest leaves the LRU and both indexes. -/
theorem evict_one {b : BlockId} {rest : List BlockId}
    (h : c.evictable = b :: rest) :
    ∃ c', c.evict 1 = ([b], c') ∧
      c'.blockSize = c.blockSize ∧ c'.evictable = rest ∧
      c'.byBlock b = none ∧ (∀ x, x ≠ b → c'.byBlock x = c.byBlock x) ∧
      (c.Inverse → c'.Inverse) := by
  have hout : c.evict 1 = ([b],
      { ({ c with evictable := rest } : PrefixCache D).forget b with
        evictions := (({ c with evictable := rest } : PrefixCache D).forget b).evictions
          + 1 }) := by
    simp [evict, h]
  refine ⟨_, hout, ?_, ?_, ?_, ?_, ?_⟩
  · exact forget_blockSize b
  · exact forget_evictable b
  · exact forget_byBlock_self b
  · exact fun x hx => forget_byBlock_of_ne hx
  · exact fun hinv => Inverse.forget (c := { c with evictable := rest }) hinv b

end PrefixCache

/-! ## §2  Reading the invariant -/

namespace PoolInv

variable {a : BlockAllocator (PrefixCache D)} {held : Multiset BlockId}

theorem refs_zero_iff (h : PoolInv a held) (b : BlockId) :
    a.refs b = 0 ↔ b ∉ held := by
  rw [h.refs_eq, Multiset.count_eq_zero]

theorem lt_of_held (h : PoolInv a held) {b : BlockId} (hb : b ∈ held) :
    b < a.numBlocks :=
  (h.lt_iff b).mpr (Or.inr (Or.inr hb))

theorem lt_of_retained (h : PoolInv a held) {b : BlockId} (hb : b ∈ a.retained) :
    b < a.numBlocks :=
  (h.lt_iff b).mpr (Or.inr (Or.inl hb))

theorem checkId_ok (_ : PoolInv a held) {b : BlockId} (hb : b < a.numBlocks) :
    a.checkId b = .ok () := if_pos hb

/-- An indexed block is retained or referenced, never free. -/
theorem indexed_cases (h : PoolInv a held) {b : BlockId} {d : D}
    (hb : a.indexed b = some d) : b ∈ a.retained ∨ b ∈ held := by
  unfold BlockAllocator.indexed at hb
  cases hr : a.recycler with
  | none => simp [hr] at hb
  | some c =>
      simp only [hr] at hb
      have hc := h.cache c hr
      rcases (h.lt_iff b).mp (hc.indexed_lt b (by simp [hb])) with hf | hrest
      · rw [hc.free_unindexed b hf] at hb
        cases hb
      · exact hrest

/-- The pool splits into what `allocate` could serve and what is referenced. -/
theorem numAllocatable_add (h : PoolInv a held) :
    a.numAllocatable + held.toFinset.card = a.numBlocks := by
  have hfree : a.free.toFinset.card = a.free.length :=
    List.toFinset_card_of_nodup h.free_nodup
  have hdisj₁ : Disjoint a.free.toFinset a.retained :=
    Finset.disjoint_left.mpr fun b hb => h.free_retained b (List.mem_toFinset.mp hb)
  have hdisj₂ : Disjoint (a.free.toFinset ∪ a.retained) held.toFinset := by
    refine Finset.disjoint_left.mpr fun b hb hheld => ?_
    have hheld' := Multiset.mem_toFinset.mp hheld
    rcases Finset.mem_union.mp hb with hf | hr
    · exact h.free_held b (List.mem_toFinset.mp hf) hheld'
    · exact h.retained_held b hr hheld'
  have hall : (a.free.toFinset ∪ a.retained) ∪ held.toFinset =
      Finset.range a.numBlocks := by
    ext b
    simp only [Finset.mem_union, List.mem_toFinset, Multiset.mem_toFinset,
      Finset.mem_range, h.lt_iff b, or_assoc]
  calc a.numAllocatable + held.toFinset.card
      = (a.free.toFinset ∪ a.retained).card + held.toFinset.card := by
        rw [Finset.card_union_of_disjoint hdisj₁, hfree]; rfl
    _ = ((a.free.toFinset ∪ a.retained) ∪ held.toFinset).card :=
        (Finset.card_union_of_disjoint hdisj₂).symm
    _ = a.numBlocks := by rw [hall, Finset.card_range]

end PoolInv

/-! ## §3  Allocation -/

section Allocate

variable {a : BlockAllocator (PrefixCache D)}
  {held : Multiset BlockId}

/-- Taking the first block of a non-empty free list. -/
theorem pop_free_spec (h : PoolInv a held) {b : BlockId} {rest : List BlockId}
    (hfree : a.free = b :: rest) :
    PoolInv { a with free := rest, refs := Function.update a.refs b 1 }
      (b ::ₘ held) := by
  have hnd := h.free_nodup
  rw [hfree, List.nodup_cons] at hnd
  have hb : b ∈ a.free := hfree ▸ List.mem_cons_self
  have hbheld := h.free_held b hb
  have hsub : ∀ x ∈ rest, x ∈ a.free := fun x hx => hfree ▸ List.mem_cons_of_mem _ hx
  refine
    { refs_eq := ?_, free_nodup := hnd.2, lt_iff := ?_,
      free_retained := fun x hx => h.free_retained x (hsub x hx),
      free_held := ?_, retained_held := ?_, retained_none := h.retained_none,
      cache := ?_ }
  · intro x
    by_cases hxb : x = b
    · subst hxb
      simp [Multiset.count_eq_zero.mpr hbheld]
    · simp [hxb, Multiset.count_cons_of_ne hxb, h.refs_eq]
  · intro x
    rw [h.lt_iff x, hfree, List.mem_cons, Multiset.mem_cons]
    tauto
  · intro x hx
    rw [Multiset.mem_cons, not_or]
    exact ⟨fun hxb => hnd.1 (hxb ▸ hx), h.free_held x (hsub x hx)⟩
  · intro x hx
    rw [Multiset.mem_cons, not_or]
    refine ⟨fun hxb => ?_, h.retained_held x hx⟩
    exact h.free_retained b hb (hxb ▸ hx)
  · intro c hr
    have hc := h.cache c hr
    exact { hc with free_unindexed := fun x hx => hc.free_unindexed x (hsub x hx) }

variable [DecidableEq D]

/-- Reclaiming one retained block into an empty free list. -/
theorem reclaim_spec (h : PoolInv a held) (hfree : a.free = [])
    (hret : a.retained ≠ ∅) :
    ∃ b a', a.reclaim 1 = .ok a' ∧ a'.free = [b] ∧ PoolInv a' held ∧
      SameShape a a' ∧ a'.numAllocatable = a.numAllocatable ∧
      (∀ x d, a'.indexed x = some d → a.indexed x = some d) := by
  cases hr : a.recycler with
  | none => exact absurd (h.retained_none hr) hret
  | some c =>
      have hc := h.cache c hr
      obtain ⟨x, hx⟩ := Finset.nonempty_iff_ne_empty.mpr hret
      cases hev : c.evictable with
      | nil =>
          have := (hc.mem_evictable x).mpr hx
          simp [hev] at this
      | cons b rest =>
          obtain ⟨c', hout, hbs, hev', hbb, hbx, hinv⟩ := PrefixCache.evict_one hev
          have hnd := hc.evictable_nodup
          rw [hev, List.nodup_cons] at hnd
          have hbret : b ∈ a.retained :=
            (hc.mem_evictable b).mp (hev ▸ List.mem_cons_self)
          have hblt : b < a.numBlocks := h.lt_of_retained hbret
          have hcard : 1 ≤ a.retained.card := Finset.card_pos.mpr ⟨b, hbret⟩
          refine ⟨b, { a with
              recycler := some c', retained := a.retained.erase b, free := [b] },
            ?_, rfl, ?_, ⟨rfl, rfl, by simp [hr]⟩, ?_, ?_⟩
          · simp only [BlockAllocator.reclaim, hr, if_neg hret, min_eq_left hcard]
            show BlockAllocator.releaseRetained _ (c.evict 1).1 = _
            simp [hout, BlockRecycler.reclaim, BlockAllocator.releaseRetained,
              BlockAllocator.checkId, hblt, hbret, hfree, bind, Except.bind]
          · refine
              { refs_eq := h.refs_eq, free_nodup := List.nodup_singleton b,
                lt_iff := ?_, free_retained := ?_, free_held := ?_,
                retained_held := ?_, retained_none := by simp, cache := ?_ }
            · intro x
              rw [h.lt_iff x]
              by_cases hxb : x = b <;> simp [hxb, hbret, hfree]
            · intro x hx
              simp_all
            · intro x hx
              rw [List.mem_singleton.mp hx]
              exact h.retained_held b hbret
            · intro x hx
              exact h.retained_held x (Finset.mem_of_mem_erase hx)
            · intro c₀ hc₀
              obtain rfl : c' = c₀ := Option.some.inj hc₀
              refine
                { blockSize_eq := hbs.trans hc.blockSize_eq, inverse := hinv hc.inverse,
                  evictable_nodup := hev' ▸ hnd.2, mem_evictable := ?_,
                  retained_indexed := ?_, free_unindexed := ?_, indexed_lt := ?_ }
              · intro x
                have hx := hc.mem_evictable x
                rw [hev, List.mem_cons] at hx
                rw [hev', Finset.mem_erase, ← hx]
                constructor
                · intro hxr
                  exact ⟨fun hxb => hnd.1 (hxb ▸ hxr), Or.inr hxr⟩
                · rintro ⟨hne, rfl | hxr⟩
                  · exact absurd rfl hne
                  · exact hxr
              · intro x hx
                obtain ⟨hne, hxr⟩ := Finset.mem_erase.mp hx
                rw [hbx x hne]
                exact hc.retained_indexed x hxr
              · intro x hx
                rw [List.mem_singleton.mp hx, hbb]
              · intro x hx
                by_cases hxb : x = b
                · exact hxb ▸ hblt
                · rw [hbx x hxb] at hx
                  exact hc.indexed_lt x hx
          · simp [BlockAllocator.numAllocatable, hfree, Finset.card_erase_of_mem hbret]
            omega
          · intro x d hx
            simp only [BlockAllocator.indexed, hr] at hx ⊢
            by_cases hxb : x = b
            · rw [hxb, hbb] at hx
              cases hx
            · rwa [hbx x hxb] at hx

/-- `allocate` succeeds whenever something is allocatable; the block it hands
out was nobody's and is indexed under no digest. -/
theorem allocate_spec (h : PoolInv a held) (hroom : 0 < a.numAllocatable) :
    ∃ b a', a.allocate = .ok (b, a') ∧ PoolInv a' (b ::ₘ held) ∧
      SameShape a a' ∧ b ∉ held ∧ a'.indexed b = none ∧
      a'.numAllocatable + 1 = a.numAllocatable ∧
      (∀ x d, a'.indexed x = some d → a.indexed x = some d) := by
  have key : ∃ b rest a₀,
      (if a.free = [] then a.reclaim 1 else .ok a) = .ok a₀ ∧
      a₀.free = b :: rest ∧ PoolInv a₀ held ∧ SameShape a a₀ ∧
      a₀.numAllocatable = a.numAllocatable ∧
      (∀ x d, a₀.indexed x = some d → a.indexed x = some d) := by
    by_cases hfree : a.free = []
    · have hret : a.retained ≠ ∅ := by
        rintro hret
        simp [BlockAllocator.numAllocatable, hfree, hret] at hroom
      obtain ⟨b, a₀, hok, hfree₀, hinv, hshape, hnum, hidx⟩ :=
        reclaim_spec h hfree hret
      exact ⟨b, [], a₀, by rw [if_pos hfree, hok], hfree₀, hinv, hshape, hnum, hidx⟩
    · obtain ⟨b, rest, hcons⟩ := List.exists_cons_of_ne_nil hfree
      exact ⟨b, rest, a, by rw [if_neg hfree], hcons, h, .refl a, rfl,
        fun _ _ hx => hx⟩
  obtain ⟨b, rest, a₀, hok, hfree₀, hinv, hshape, hnum, hidx⟩ := key
  have hb : b ∈ a₀.free := hfree₀ ▸ List.mem_cons_self
  refine ⟨b, { a₀ with free := rest, refs := Function.update a₀.refs b 1 }, ?_,
    pop_free_spec hinv hfree₀, ⟨hshape.1, hshape.2, hshape.3⟩,
    hinv.free_held b hb, ?_, ?_, hidx⟩
  · simp only [BlockAllocator.allocate, hok, bind, Except.bind, hfree₀]
  · unfold BlockAllocator.indexed
    cases hr : a₀.recycler with
    | none => rfl
    | some c => exact (hinv.cache c hr).free_unindexed b hb
  · rw [← hnum]
    simp [BlockAllocator.numAllocatable, hfree₀]
    omega

end Allocate

/-! ## §4  Sharing and release -/

section Share

variable {a : BlockAllocator (PrefixCache D)} {held : Multiset BlockId}

/-- One round of adoption: a hit on a retained block pulls it out of the
recycler, a hit on a referenced one adds a reference; either way the cache pins
the block. -/
theorem hit_spec (h : PoolInv a held) {c : PrefixCache D}
    (hr : a.recycler = some c) {b : BlockId} (hb : (c.byBlock b).isSome) :
    ∃ a', (if a.isRetained b then a.adopt b else a.incref b) = .ok a' ∧
      a'.recycler = some c ∧
      PoolInv { a' with recycler := some (c.acquire b) } (b ::ₘ held) ∧
      SameShape a { a' with recycler := some (c.acquire b) } ∧
      a'.retained ⊆ a.retained ∧
      a.numAllocatable ≤ a'.numAllocatable + (if a.isRetained b then 1 else 0) := by
  have hc := h.cache c hr
  have hlt := hc.indexed_lt b hb
  have hnotfree : b ∉ a.free := fun hf => by
    simp [hc.free_unindexed b hf] at hb
  by_cases hret : b ∈ a.retained
  · have hheld := h.retained_held b hret
    refine ⟨{ a with
        retained := a.retained.erase b, refs := Function.update a.refs b 1 },
      ?_, hr, ?_, ⟨rfl, rfl, by simp [hr]⟩, Finset.erase_subset _ _, ?_⟩
    · simp [BlockAllocator.isRetained, hret, BlockAllocator.adopt,
        BlockAllocator.checkId, hlt, bind, Except.bind]
    · refine
        { refs_eq := ?_, free_nodup := h.free_nodup, lt_iff := ?_,
          free_retained := fun x hx hx' =>
            h.free_retained x hx (Finset.mem_of_mem_erase hx'),
          free_held := ?_, retained_held := ?_, retained_none := by simp,
          cache := ?_ }
      · intro x
        by_cases hxb : x = b
        · subst hxb
          simp [Multiset.count_eq_zero.mpr hheld]
        · simp [hxb, Multiset.count_cons_of_ne hxb, h.refs_eq]
      · intro x
        rw [h.lt_iff x]
        by_cases hxb : x = b <;> simp [hxb, hret]
      · intro x hx
        rw [Multiset.mem_cons, not_or]
        exact ⟨fun hxb => hnotfree (hxb ▸ hx), h.free_held x hx⟩
      · intro x hx
        obtain ⟨hne, hxr⟩ := Finset.mem_erase.mp hx
        rw [Multiset.mem_cons, not_or]
        exact ⟨hne, h.retained_held x hxr⟩
      · intro c₀ hc₀
        obtain rfl : c.acquire b = c₀ := Option.some.inj hc₀
        exact
          { blockSize_eq := hc.blockSize_eq, inverse := hc.inverse,
            evictable_nodup := hc.evictable_nodup.erase b,
            mem_evictable := fun x => by
              rw [Finset.mem_erase, ← hc.mem_evictable x]
              exact hc.evictable_nodup.mem_erase_iff
            retained_indexed := fun x hx =>
              hc.retained_indexed x (Finset.mem_of_mem_erase hx)
            free_unindexed := hc.free_unindexed, indexed_lt := hc.indexed_lt }
    · have := Finset.card_erase_add_one hret
      simp [BlockAllocator.numAllocatable, BlockAllocator.isRetained, hret]
      omega
  · have hheld : b ∈ held := by
      rcases (h.lt_iff b).mp hlt with hf | hr' | hh
      · exact absurd hf hnotfree
      · exact absurd hr' hret
      · exact hh
    have hrefs : a.refs b ≠ 0 := fun h0 => (h.refs_zero_iff b).mp h0 hheld
    refine ⟨{ a with refs := Function.update a.refs b (a.refs b + 1) },
      ?_, hr, ?_, ⟨rfl, rfl, by simp [hr]⟩, Finset.Subset.refl _, ?_⟩
    · simp [BlockAllocator.isRetained, hret, BlockAllocator.incref,
        BlockAllocator.checkId, hlt, hrefs, bind, Except.bind]
    · refine
        { refs_eq := ?_, free_nodup := h.free_nodup, lt_iff := ?_,
          free_retained := h.free_retained, free_held := ?_,
          retained_held := ?_, retained_none := by simp, cache := ?_ }
      · intro x
        by_cases hxb : x = b
        · subst hxb
          simp [h.refs_eq]
        · simp [hxb, Multiset.count_cons_of_ne hxb, h.refs_eq]
      · intro x
        rw [h.lt_iff x]
        by_cases hxb : x = b <;> simp [hxb, hheld]
      · intro x hx
        rw [Multiset.mem_cons, not_or]
        exact ⟨fun hxb => hnotfree (hxb ▸ hx), h.free_held x hx⟩
      · intro x hx
        rw [Multiset.mem_cons, not_or]
        exact ⟨fun hxb => hret (hxb ▸ hx), h.retained_held x hx⟩
      · intro c₀ hc₀
        obtain rfl : c.acquire b = c₀ := Option.some.inj hc₀
        have hnev : b ∉ c.evictable := fun hev => hret ((hc.mem_evictable b).mp hev)
        exact
          { hc with
            evictable_nodup := hc.evictable_nodup.erase b
            mem_evictable := fun x => by
              show x ∈ c.evictable.erase b ↔ _
              rw [List.erase_of_not_mem hnev]
              exact hc.mem_evictable x }
    · simp [BlockAllocator.numAllocatable, BlockAllocator.isRetained, hret]

variable [DecidableEq D] {b : BlockId}

/-- The last reference is gone: the cache retains an indexed block, and any
other block goes back on the free list. -/
theorem release_spec (h : PoolInv a (b ::ₘ held)) (hb : b ∉ held) :
    PoolInv ({ a with refs := Function.update a.refs b 0 }.release b) held ∧
      SameShape a ({ a with refs := Function.update a.refs b 0 }.release b) ∧
      (∀ x, ({ a with refs := Function.update a.refs b 0 }.release b).indexed x =
        a.indexed x) := by
  have hmem : b ∈ b ::ₘ held := Multiset.mem_cons_self b held
  have hlt : b < a.numBlocks := h.lt_of_held hmem
  have hnf : b ∉ a.free := fun hf => h.free_held b hf hmem
  have hnr : b ∉ a.retained := fun hr => h.retained_held b hr hmem
  have hheld : ∀ x, x ∈ b ::ₘ held → x ≠ b → x ∈ held := fun x hx hne =>
    (Multiset.mem_cons.mp hx).resolve_left hne
  have hrefs : ∀ x, Function.update a.refs b 0 x = held.count x := by
    intro x
    by_cases hxb : x = b
    · subst hxb
      simp [Multiset.count_eq_zero.mpr hb]
    · simp [hxb, h.refs_eq, Multiset.count_cons_of_ne hxb]
  -- back on the free list: the block is unknown to the cache, if there is one
  have hfreed : ∀ r : Option (PrefixCache D), r.isSome = a.recycler.isSome →
      (∀ c, r = some c → a.recycler = some c ∧ c.byBlock b = none) →
      PoolInv { a with
        refs := Function.update a.refs b 0, free := a.free ++ [b], recycler := r }
        held := by
    intro r hsome hcache
    refine
      { refs_eq := hrefs, free_nodup := ?_, lt_iff := ?_, free_retained := ?_,
        free_held := ?_, retained_held := ?_, retained_none := ?_, cache := ?_ }
    · refine List.Nodup.append h.free_nodup (List.nodup_singleton b) ?_
      intro x hx hxb
      exact hnf (List.mem_singleton.mp hxb ▸ hx)
    · intro x
      rw [h.lt_iff x, Multiset.mem_cons]
      simp only [List.mem_append, List.mem_singleton]
      tauto
    · intro x hx
      rcases List.mem_append.mp hx with hxf | hxb
      · exact h.free_retained x hxf
      · exact List.mem_singleton.mp hxb ▸ hnr
    · intro x hx
      rcases List.mem_append.mp hx with hxf | hxb
      · exact fun hxh => h.free_held x hxf (Multiset.mem_cons_of_mem hxh)
      · exact List.mem_singleton.mp hxb ▸ hb
    · exact fun x hx hxh => h.retained_held x hx (Multiset.mem_cons_of_mem hxh)
    · intro hnone
      refine h.retained_none ?_
      rw [show r = none from hnone, Option.isSome_none] at hsome
      exact Option.isSome_eq_false_iff.mp hsome.symm |> Option.isNone_iff_eq_none.mp
    · intro c hc
      obtain ⟨hac, hbc⟩ := hcache c hc
      have hinv := h.cache c hac
      refine
        { hinv with free_unindexed := ?_ }
      intro x hx
      rcases List.mem_append.mp hx with hxf | hxb
      · exact hinv.free_unindexed x hxf
      · exact List.mem_singleton.mp hxb ▸ hbc
  rcases Option.eq_none_or_eq_some a.recycler with hr | ⟨c, hr⟩
  · have hrel : ({ a with refs := Function.update a.refs b 0 }.release b) =
        { a with refs := Function.update a.refs b 0, free := a.free ++ [b],
                 recycler := none } := by
      simp [BlockAllocator.release, hr]
    rw [hrel]
    refine ⟨hfreed none (by simp [hr]) (by simp), ⟨rfl, rfl, by simp [hr]⟩, ?_⟩
    intro x
    simp [BlockAllocator.indexed, hr]
  · have hc := h.cache c hr
    cases hbc : c.byBlock b with
    | none =>
        have hrel : ({ a with refs := Function.update a.refs b 0 }.release b) =
            { a with refs := Function.update a.refs b 0, free := a.free ++ [b],
                     recycler := some c } := by
          simp [BlockAllocator.release, hr, BlockRecycler.onZeroRefs,
            PrefixCache.release, hbc]
        rw [hrel]
        refine ⟨hfreed (some c) (by simp [hr]) ?_, ⟨rfl, rfl, by simp [hr]⟩, ?_⟩
        · intro c' hc'
          obtain rfl := Option.some.inj hc'
          exact ⟨hr, hbc⟩
        · intro x
          simp [BlockAllocator.indexed, hr]
    | some d =>
        have hnev : b ∉ c.evictable := fun hev => hnr ((hc.mem_evictable b).mp hev)
        have hrel : ({ a with refs := Function.update a.refs b 0 }.release b) =
            { a with refs := Function.update a.refs b 0,
                     retained := insert b a.retained,
                     recycler := some { c with evictable := c.evictable ++ [b] } } := by
          simp [BlockAllocator.release, hr, BlockRecycler.onZeroRefs,
            PrefixCache.release, hbc, List.erase_of_not_mem hnev]
        rw [hrel]
        refine ⟨?_, ⟨rfl, rfl, by simp [hr]⟩, ?_⟩
        · refine
            { refs_eq := hrefs, free_nodup := h.free_nodup, lt_iff := ?_,
              free_retained := ?_, free_held := ?_, retained_held := ?_,
              retained_none := by simp, cache := ?_ }
          · intro x
            rw [h.lt_iff x, Multiset.mem_cons]
            simp only [Finset.mem_insert]
            tauto
          · intro x hx hxr
            rcases Finset.mem_insert.mp hxr with rfl | hxr
            · exact hnf hx
            · exact h.free_retained x hx hxr
          · exact fun x hx hxh =>
              h.free_held x hx (Multiset.mem_cons_of_mem hxh)
          · intro x hx hxh
            rcases Finset.mem_insert.mp hx with rfl | hxr
            · exact hb hxh
            · exact h.retained_held x hxr (Multiset.mem_cons_of_mem hxh)
          · intro c' hc'
            obtain rfl := Option.some.inj hc'
            refine { hc with evictable_nodup := ?_, mem_evictable := ?_,
                             retained_indexed := ?_ }
            · refine List.Nodup.append hc.evictable_nodup (List.nodup_singleton b) ?_
              intro x hx hxb
              exact hnev (List.mem_singleton.mp hxb ▸ hx)
            · intro x
              have := hc.mem_evictable x
              simp only [List.mem_append, List.mem_singleton, Finset.mem_insert]
              tauto
            · intro x hx
              rcases Finset.mem_insert.mp hx with rfl | hxr
              · simp [hbc]
              · exact hc.retained_indexed x hxr
        · intro x
          simp [BlockAllocator.indexed, hr]

/-- Dropping one reference. -/
theorem decref_spec (h : PoolInv a (b ::ₘ held)) :
    ∃ a', a.decref b = .ok a' ∧ PoolInv a' held ∧ SameShape a a' ∧
      (∀ x, a'.indexed x = a.indexed x) := by
  have hlt : b < a.numBlocks := h.lt_of_held (Multiset.mem_cons_self b held)
  have hrefs : a.refs b = held.count b + 1 := by
    rw [h.refs_eq, Multiset.count_cons_self]
  have hdec : a.decref b =
      if held.count b = 0 then
        .ok ({ a with refs := Function.update a.refs b 0 }.release b)
      else .ok { a with refs := Function.update a.refs b (held.count b) } := by
    simp only [BlockAllocator.decref, h.checkId_ok hlt, bind, Except.bind, hrefs,
      Nat.add_sub_cancel, Nat.add_one_ne_zero, if_false]
    split
    · next h0 => rw [h0]
    · rfl
  by_cases hb : b ∈ held
  · have hpos : held.count b ≠ 0 := by rwa [ne_eq, Multiset.count_eq_zero, not_not]
    rw [hdec, if_neg hpos]
    refine ⟨_, rfl, ?_, ⟨rfl, rfl, rfl⟩, fun _ => rfl⟩
    refine
      { refs_eq := ?_, free_nodup := h.free_nodup, lt_iff := ?_,
        free_retained := h.free_retained, free_held := ?_, retained_held := ?_,
        retained_none := h.retained_none, cache := ?_ }
    · intro x
      by_cases hxb : x = b
      · subst hxb
        simp
      · simp [hxb, h.refs_eq, Multiset.count_cons_of_ne hxb]
    · intro x
      rw [h.lt_iff x, Multiset.mem_cons]
      by_cases hxb : x = b <;> simp [hxb, hb]
    · exact fun x hx hxh => h.free_held x hx (Multiset.mem_cons_of_mem hxh)
    · exact fun x hx hxh => h.retained_held x hx (Multiset.mem_cons_of_mem hxh)
    · exact fun c hc => { h.cache c hc with }
  · rw [hdec, if_pos (Multiset.count_eq_zero.mpr hb)]
    exact ⟨_, rfl, release_spec h hb⟩

/-- Dropping the references of a whole block table. -/
theorem decrefMany_spec (bs : List BlockId) (h : PoolInv a (↑bs + held)) :
    ∃ a', a.decrefMany bs = .ok a' ∧ PoolInv a' held ∧ SameShape a a' ∧
      (∀ x, a'.indexed x = a.indexed x) := by
  induction bs generalizing a with
  | nil =>
      refine ⟨a, rfl, ?_, .refl a, fun _ => rfl⟩
      simpa using h
  | cons b bs ih =>
      have h' : PoolInv a (b ::ₘ (↑bs + held)) := by
        rwa [← Multiset.cons_coe, Multiset.cons_add] at h
      obtain ⟨a₁, hok₁, hinv₁, hshape₁, hidx₁⟩ := decref_spec h'
      obtain ⟨a₂, hok₂, hinv₂, hshape₂, hidx₂⟩ := ih hinv₁
      refine ⟨a₂, ?_, hinv₂, hshape₁.trans hshape₂,
        fun x => (hidx₂ x).trans (hidx₁ x)⟩
      simp only [BlockAllocator.decrefMany, hok₁, bind, Except.bind, hok₂]

/-- Indexing a referenced block that is under no digest yet. -/
theorem insert_spec (h : PoolInv a held) {c : PrefixCache D}
    (hr : a.recycler = some c) (hb : b ∈ held) (hbc : c.byBlock b = none) (d : D) :
    ∃ r, c.insert b d = .ok r ∧
      PoolInv { a with recycler := some r.2 } held ∧
      SameShape a { a with recycler := some r.2 } ∧
      (∀ x e, r.2.byBlock x = some e → c.byBlock x = some e ∨ x = b ∧ e = d) := by
  have hc := h.cache c hr
  cases hd : c.byHash d with
  | some b' =>
      refine ⟨(false, c), by simp [PrefixCache.insert, hbc, hd], ?_,
        ⟨rfl, rfl, by simp [hr]⟩, fun x e hx => Or.inl hx⟩
      simp only [← hr]
      exact h
  | none =>
      refine ⟨(true, { c with
          byHash := Function.update c.byHash d (some b)
          byBlock := Function.update c.byBlock b (some d)
          inserts := c.inserts + 1 }),
        by simp [PrefixCache.insert, hbc, hd], ?_, ⟨rfl, rfl, by simp [hr]⟩, ?_⟩
      · refine
          { h with retained_none := by simp, cache := ?_ }
        intro c' hc'
        obtain rfl := Option.some.inj hc'
        refine { hc with inverse := ?_, retained_indexed := ?_,
                         free_unindexed := ?_, indexed_lt := ?_ }
        · intro x e
          have hinv := hc.inverse
          simp only [Function.update_apply]
          by_cases hxb : x = b
          · subst hxb
            by_cases hed : e = d
            · simp [hed]
            · have : c.byHash e ≠ some x := fun he => by
                rw [(hinv x e).mpr he] at hbc
                cases hbc
              simpa [hed, Ne.symm hed] using this
          · by_cases hed : e = d
            · subst hed
              have : c.byBlock x ≠ some e := fun hx => by
                rw [(hinv x e).mp hx] at hd
                cases hd
              simpa [hxb, Ne.symm hxb] using this
            · simpa [hxb, hed] using hinv x e
        · intro x hx
          have := hc.retained_indexed x hx
          by_cases hxb : x = b
          · simp [hxb]
          · simpa [hxb] using this
        · intro x hx
          have hxb : x ≠ b := fun hxb => h.free_held x hx (hxb ▸ hb)
          simpa [hxb] using hc.free_unindexed x hx
        · intro x hx
          by_cases hxb : x = b
          · rw [hxb]
            exact h.lt_of_held hb
          · exact hc.indexed_lt x (by simpa [hxb] using hx)
      · intro x e hx
        by_cases hxb : x = b
        · subst hxb
          simp at hx
          exact Or.inr ⟨rfl, hx.symm⟩
        · exact Or.inl (by simpa [hxb] using hx)

end Share

/-! ## §5  The empty pool -/

section Empty

/-- Everything free, nothing indexed: what a new or a reset pool looks like. -/
theorem PoolInv.of_empty {a : BlockAllocator (PrefixCache D)}
    (hrefs : ∀ b, a.refs b = 0) (hfree : a.free = List.range a.numBlocks)
    (hret : a.retained = ∅)
    (hcache : ∀ c, a.recycler = some c → c.blockSize = a.blockSize ∧
      c.evictable = [] ∧ (∀ b, c.byBlock b = none) ∧ (∀ d, c.byHash d = none)) :
    PoolInv a 0 := by
  refine
    { refs_eq := by simp [hrefs], free_nodup := hfree ▸ List.nodup_range,
      lt_iff := by simp [hfree, hret], free_retained := by simp [hret],
      free_held := by simp, retained_held := by simp [hret],
      retained_none := fun _ => hret, cache := ?_ }
  intro c hc
  obtain ⟨hbs, hev, hbb, hbh⟩ := hcache c hc
  exact
    { blockSize_eq := hbs, inverse := fun b d => by simp [hbb, hbh],
      evictable_nodup := by simp [hev], mem_evictable := by simp [hev, hret],
      retained_indexed := by simp [hret], free_unindexed := fun b _ => hbb b,
      indexed_lt := by simp [hbb] }

end Empty

end TurboServe.Core
