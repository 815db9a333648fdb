import Mathlib

/-!
# Fair queueing by virtual start tags

Every client carries a tag. The active client with the least tag is served next,
ties by the order of clients; serving advances its tag by one quantum `1 / w`
and sets the clock to the new tag. A client that becomes active restarts no
earlier than the clock.

A run is *level* when no client is more than its own quantum ahead of an active
one. Serving keeps a run level; joining does when the clock has not run further
ahead than that. Level runs share service in proportion and bound every wait.
-/

namespace TurboServe.Lib

variable {𝕜 τ : Type*} [Field 𝕜] [LinearOrder 𝕜] [IsStrictOrderedRing 𝕜] [LinearOrder τ]

/-! ## §1  The system -/

/-- Tags, the clock, and who is active. -/
structure FairState (𝕜 τ : Type*) where
  tag : τ → 𝕜
  clock : 𝕜
  active : Finset τ

/-- `i` goes before `j`: tags first, then clients. -/
def FairState.Before (s : FairState 𝕜 τ) (i j : τ) : Prop :=
  s.tag i < s.tag j ∨ (s.tag i = s.tag j ∧ i < j)

/-- One step, with the client it serves. -/
inductive FairStep (w : τ → 𝕜) : FairState 𝕜 τ → Option τ → FairState 𝕜 τ → Prop where
  | stay (s : FairState 𝕜 τ) : FairStep w s none s
  | join {s : FairState 𝕜 τ} (i : τ) (hi : i ∉ s.active) :
      FairStep w s none
        ⟨Function.update s.tag i (max (s.tag i) s.clock), s.clock, insert i s.active⟩
  | leave {s : FairState 𝕜 τ} (i : τ) :
      FairStep w s none ⟨s.tag, s.clock, s.active.erase i⟩
  | serve {s : FairState 𝕜 τ} (i : τ) (active' : Finset τ) (hi : i ∈ s.active)
      (hfirst : ∀ j ∈ s.active, j ≠ i → s.Before i j)
      (hsub : active' ⊆ s.active) (hothers : ∀ j ∈ s.active, j ≠ i → j ∈ active') :
      FairStep w s (some i)
        ⟨Function.update s.tag i (s.tag i + 1 / w i), s.tag i + 1 / w i, active'⟩

/-- `a` is at most one quantum of `i` past the tag `b` of `j`; `R` says who may
be exactly one quantum past. -/
def Within (w : τ → 𝕜) (R : τ → τ → Prop) (a b : 𝕜) (i j : τ) : Prop :=
  a < b + 1 / w i ∨ (a = b + 1 / w i ∧ R i j)

/-- Who joins finds the clock at most one of its quanta past every active client. -/
def Restrained (w : τ → 𝕜) (R : τ → τ → Prop) (s s' : FairState 𝕜 τ) : Prop :=
  ∀ i ∈ s'.active, i ∉ s.active → ∀ j ∈ s.active, Within w R s.clock (s.tag j) i j

/-- No client is more than its quantum ahead of an active one, or of the clock. -/
structure Level (w : τ → 𝕜) (R : τ → τ → Prop) (s : FairState 𝕜 τ) : Prop where
  clients : ∀ i, ∀ j ∈ s.active, i ≠ j → Within w R (s.tag i) (s.tag j) i j
  clock : ∀ i, s.tag i < s.clock + 1 / w i

/-! ## §2  What one step does -/

variable {w : τ → 𝕜} {R : τ → τ → Prop} {s s' : FairState 𝕜 τ} {o : Option τ}

omit [LinearOrder τ] in
theorem Within.trans_le {a b b' : 𝕜} {i j : τ} (h : Within w R a b i j) (hb : b < b') :
    Within w R a b' i j := by
  rcases h with h | ⟨h, -⟩
  · exact Or.inl (by linarith)
  · exact Or.inl (by linarith)

omit [IsStrictOrderedRing 𝕜] [LinearOrder τ] in
theorem Within.le {a b : 𝕜} {i j : τ} (h : Within w R a b i j) : a ≤ b + 1 / w i := by
  rcases h with h | ⟨h, -⟩
  · exact h.le
  · exact h.le

/-- Steps keep a run level as long as who joins is restrained. -/
theorem FairStep.level (hs : FairStep w s o s') (hw : ∀ i, 0 < w i)
    (hR : ∀ i j, i < j → R i j) (h : Level w R s) (hres : Restrained w R s s') :
    Level w R s' := by
  have hq : ∀ i, 0 < 1 / w i := fun i => one_div_pos.mpr (hw i)
  cases hs with
  | stay => exact h
  | join i hi =>
      refine ⟨fun k j hj hkj => ?_, fun k => ?_⟩
      · have hcases : j = i ∨ j ∈ s.active := Finset.mem_insert.mp hj
        clear hj
        rcases hcases with rfl | hj
        · -- the newcomer is not behind the clock
          have hk := h.clock k
          left
          simp only [Function.update_of_ne hkj, Function.update_self]
          have := le_max_right (s.tag j) s.clock
          linarith
        · have hji : j ≠ i := fun heq => hi (heq ▸ hj)
          simp only [Function.update_of_ne hji]
          by_cases hki : k = i
          · subst hki
            rw [Function.update_self]
            rcases max_choice (s.tag k) s.clock with hmax | hmax
            · rw [hmax]
              exact h.clients k j hj hkj
            · rw [hmax]
              exact hres k (Finset.mem_insert_self _ _) hi j hj
          · rw [Function.update_of_ne hki]
            exact h.clients k j hj hkj
      · by_cases hki : k = i
        · subst hki
          simp only [Function.update_self]
          have hk := h.clock k
          have := hq k
          exact max_lt hk (by linarith)
        · simp only [Function.update_of_ne hki]
          exact h.clock k
  | leave i => exact ⟨fun k j hj => h.clients k j (Finset.mem_of_mem_erase hj), h.clock⟩
  | serve i active' hi hfirst hsub hothers =>
      refine ⟨fun k j hj hkj => ?_, fun k => ?_⟩
      · have hjs := hsub hj
        by_cases hki : k = i
        · -- the served client was first, so one quantum takes it no further
          subst hki
          simp only [Function.update_self, Function.update_of_ne (Ne.symm hkj)]
          rcases hfirst j hjs (Ne.symm hkj) with hlt | ⟨heq, hlt⟩
          · exact Or.inl (by linarith)
          · exact Or.inr ⟨by rw [heq], hR k j hlt⟩
        · simp only [Function.update_of_ne hki]
          by_cases hji : j = i
          · subst hji
            rw [Function.update_self]
            exact (h.clients k j hjs hkj).trans_le (by have := hq j; linarith)
          · rw [Function.update_of_ne hji]
            exact h.clients k j hjs hkj
      · by_cases hki : k = i
        · subst hki
          simp only [Function.update_self]
          have := hq k
          linarith
        · simp only [Function.update_of_ne hki]
          have hk := (h.clients k i hi hki).le
          have := hq i
          linarith

omit [IsStrictOrderedRing 𝕜] in
/-- The tag of a client that stays active counts its services. -/
theorem FairStep.tag_eq (hs : FairStep w s o s') {i : τ} (hi : i ∈ s.active) :
    s'.tag i = s.tag i + (if o = some i then 1 / w i else 0) := by
  cases hs with
  | stay => simp
  | join k hk =>
      have hne : i ≠ k := fun heq => hk (heq ▸ hi)
      simp [Function.update_of_ne hne]
  | leave k => simp
  | serve k active' hk =>
      by_cases hki : i = k
      · subst hki
        simp
      · simp [Function.update_of_ne hki, Ne.symm hki]

theorem FairStep.tag_mono (hs : FairStep w s o s') (hw : ∀ i, 0 < w i) (i : τ) :
    s.tag i ≤ s'.tag i := by
  cases hs with
  | stay => exact le_rfl
  | join k hk =>
      by_cases hki : i = k
      · subst hki
        simp
      · simp [Function.update_of_ne hki]
  | leave k => exact le_rfl
  | serve k active' hk =>
      by_cases hki : i = k
      · subst hki
        have := one_div_pos.mpr (hw i)
        simp only [Function.update_self]
        linarith
      · simp [Function.update_of_ne hki]

/-! ## §3  Stretches -/

/-- A run of steps: who was served, in order, and who was active at some point.
The clients of `always` are active in every state. -/
inductive Stretch (w : τ → 𝕜) (R : τ → τ → Prop) (always : Finset τ) :
    FairState 𝕜 τ → List τ → Finset τ → FairState 𝕜 τ → Prop where
  | start {s : FairState 𝕜 τ} (h : always ⊆ s.active) :
      Stretch w R always s [] s.active s
  | snoc {s s' s'' : FairState 𝕜 τ} {served : List τ} {seen : Finset τ} {o : Option τ}
      (hrun : Stretch w R always s served seen s') (hstep : FairStep w s' o s'')
      (hres : Restrained w R s' s'') (h : always ⊆ s''.active) :
      Stretch w R always s (served ++ o.toList) (seen ∪ s''.active) s''

variable {always seen : Finset τ} {served : List τ}

namespace Stretch

omit [IsStrictOrderedRing 𝕜] in
/-- A stretch can be extended at its beginning. -/
theorem cons {s'' : FairState 𝕜 τ} (hstep : FairStep w s o s') (hres : Restrained w R s s')
    (h : always ⊆ s.active) (hrun : Stretch w R always s' served seen s'') :
    Stretch w R always s (o.toList ++ served) (s.active ∪ seen) s'' := by
  induction hrun with
  | start h' =>
      have hone := Stretch.snoc (.start h) hstep hres h'
      rw [List.nil_append] at hone
      rw [List.append_nil]
      exact hone
  | snoc _ hstep' hres' h' ih =>
      rw [← List.append_assoc, ← Finset.union_assoc]
      exact .snoc ih hstep' hres' h'

omit [IsStrictOrderedRing 𝕜] in
theorem active_end (hrun : Stretch w R always s served seen s') : always ⊆ s'.active := by
  cases hrun with
  | start h => exact h
  | snoc _ _ _ h => exact h

theorem level (hrun : Stretch w R always s served seen s') (hw : ∀ i, 0 < w i)
    (hR : ∀ i j, i < j → R i j) (h : Level w R s) : Level w R s' := by
  induction hrun with
  | start => exact h
  | snoc _ hstep hres _ ih => exact hstep.level hw hR ih hres

omit [IsStrictOrderedRing 𝕜] in
theorem active_start (hrun : Stretch w R always s served seen s') : always ⊆ s.active := by
  induction hrun with
  | start h => exact h
  | snoc _ _ _ _ ih => exact ih

omit [IsStrictOrderedRing 𝕜] in
theorem active_seen (hrun : Stretch w R always s served seen s') : s'.active ⊆ seen := by
  cases hrun with
  | start => exact Finset.Subset.refl _
  | snoc => exact Finset.subset_union_right

omit [IsStrictOrderedRing 𝕜] in
theorem served_seen (hrun : Stretch w R always s served seen s') :
    ∀ i ∈ served, i ∈ seen := by
  induction hrun with
  | start => simp
  | snoc hrun hstep _ _ ih =>
      intro i hi
      rcases List.mem_append.mp hi with hi | hi
      · exact Finset.mem_union_left _ (ih i hi)
      · cases hstep with
        | serve k active' hk =>
            obtain rfl : i = k := by simpa using hi
            exact Finset.mem_union_left _ (hrun.active_seen hk)
        | _ => simp at hi

/-- The tag of a client active throughout counts its services. -/
theorem tag_eq (hrun : Stretch w R always s served seen s') {i : τ} (hi : i ∈ always) :
    s'.tag i = s.tag i + (served.count i : 𝕜) / w i := by
  induction hrun with
  | start => simp
  | @snoc s' s'' served seen o hrun hstep _ _ ih =>
      rw [hstep.tag_eq (hrun.active_end hi), ih, List.count_append, add_assoc]
      congr 1
      cases o with
      | none => simp
      | some k =>
          by_cases hki : k = i
          · subst hki
            simp [add_div]
          · simp [hki]

/-! ## §4  Proportional share -/

/-- Two clients active throughout are served in proportion to their weights, up
to one quantum each. -/
theorem proportional (hrun : Stretch w R always s served seen s') (hw : ∀ i, 0 < w i)
    (hR : ∀ i j, i < j → R i j) (h : Level w R s) {i j : τ} (hi : i ∈ always)
    (hj : j ∈ always) (hij : i ≠ j) :
    |(served.count i : 𝕜) / w i - (served.count j : 𝕜) / w j| ≤ 1 / w i + 1 / w j := by
  have h' := hrun.level hw hR h
  have hti := hrun.tag_eq hi
  have htj := hrun.tag_eq hj
  have hstart := h.clients i j (hrun.active_start hj) hij
  have hstart' := h.clients j i (hrun.active_start hi) (Ne.symm hij)
  have hend := h'.clients i j (hrun.active_end hj) hij
  have hend' := h'.clients j i (hrun.active_end hi) (Ne.symm hij)
  have h₁ := hstart.le
  have h₂ := hstart'.le
  have h₃ := hend.le
  have h₄ := hend'.le
  exact abs_le.mpr ⟨by linarith, by linarith⟩

/-! ## §5  Bounded wait -/

/-- While `i` waits, the services of another client `j` fit between a tag that is
within a quantum of `i` and the tag of `i` itself. -/
theorem passed_over (hrun : Stretch w (· < ·) always s served seen s') (hw : ∀ i, 0 < w i)
    (h : Level w (· < ·) s) {i j : τ} (hi : i ∈ always) (hij : i ≠ j)
    (hwait : i ∉ served) :
    served.count j = 0 ∨ ∃ base : 𝕜, Within w (· < ·) (s'.tag i) base i j ∧
      (base + ((served.count j : 𝕜) - 1) / w j < s'.tag i ∨
        (base + ((served.count j : 𝕜) - 1) / w j = s'.tag i ∧ j < i)) ∧
      base + (served.count j : 𝕜) / w j ≤ s'.tag j := by
  induction hrun with
  | start => exact Or.inl rfl
  | @snoc s' s'' served seen o hrun hstep hres _ ih =>
      obtain ⟨hwait', hnot⟩ : i ∉ served ∧ o ≠ some i := by
        rw [List.mem_append, not_or] at hwait
        refine ⟨hwait.1, fun heq => hwait.2 (by simp [heq])⟩
      have hactive := hrun.active_end hi
      have htag : s''.tag i = s'.tag i := by
        rw [hstep.tag_eq hactive, if_neg hnot, add_zero]
      have hmono := hstep.tag_mono hw j
      by_cases hj : o = some j
      · -- `j` is served: it went before `i`
        subst hj
        have hcount : (served ++ (some j).toList).count j = served.count j + 1 := by simp
        obtain ⟨hjs, hfirst⟩ : j ∈ s'.active ∧ s'.Before j i := by
          cases hstep with
          | serve _ active' hk hfirst => exact ⟨hk, hfirst i hactive hij⟩
        have hnext : s''.tag j = s'.tag j + 1 / w j := by
          rw [hstep.tag_eq hjs, if_pos rfl]
        right
        rw [hcount, htag, Nat.cast_add, Nat.cast_one]
        rcases ih hwait' with hzero | ⟨base, hwithin, -, hle⟩
        · have hlevel := hrun.level hw (fun _ _ hlt => hlt) h
          refine ⟨s'.tag j, hlevel.clients i j hjs hij, ?_, ?_⟩
          · rw [hzero]
            simpa [FairState.Before] using hfirst
          · rw [hzero, hnext]
            simp
        · refine ⟨base, hwithin, ?_, ?_⟩
          · rw [add_sub_cancel_right]
            rcases hfirst with hlt | ⟨heq, hlt⟩
            · exact Or.inl (lt_of_le_of_lt hle hlt)
            · rcases lt_or_eq_of_le (hle.trans_eq heq) with hlt' | heq'
              · exact Or.inl hlt'
              · exact Or.inr ⟨heq', hlt⟩
          · rw [hnext, add_div]
            linarith
      · have hcount : (served ++ o.toList).count j = served.count j := by
          cases o with
          | none => simp
          | some k =>
              have hkj : k ≠ j := fun heq => hj (heq ▸ rfl)
              simp [hkj]
        rw [hcount, htag]
        exact (ih hwait').imp_right fun ⟨base, h₁, h₂, h₃⟩ => ⟨base, h₁, h₂, h₃.trans hmono⟩

theorem count_le [FloorSemiring 𝕜] (hrun : Stretch w (· < ·) always s served seen s')
    (hw : ∀ i, 0 < w i) (h : Level w (· < ·) s) {i j : τ} (hi : i ∈ always) (hij : i ≠ j)
    (hwait : i ∉ served) : served.count j ≤ ⌈w j / w i⌉₊ := by
  rcases hrun.passed_over hw h hi hij hwait with hzero | ⟨base, hwithin, hlast, -⟩
  · rw [hzero]
    exact Nat.zero_le _
  · have hlt : ((served.count j : 𝕜) - 1) / w j < 1 / w i := by
      rcases hwithin with h₁ | ⟨h₁, hij'⟩ <;> rcases hlast with h₂ | ⟨h₂, hji⟩
      · linarith
      · linarith
      · linarith
      · exact absurd hij' (not_lt.mpr hji.le)
    have hlt' : (served.count j : 𝕜) - 1 < w j / w i := by
      rw [div_lt_iff₀ (hw j)] at hlt
      calc (served.count j : 𝕜) - 1 < 1 / w i * w j := hlt
        _ = w j / w i := by ring
    have hceil : (served.count j : 𝕜) - 1 < (⌈w j / w i⌉₊ : 𝕜) :=
      lt_of_lt_of_le hlt' (Nat.le_ceil _)
    have hnat : (served.count j : 𝕜) < (⌈w j / w i⌉₊ + 1 : ℕ) := by
      push_cast
      linarith
    exact Nat.lt_succ_iff.mp (Nat.cast_lt.mp hnat)

/-- While a client waits, the others are served at most once for each of their
quanta that starts within one of its own. -/
theorem bounded_wait [FloorSemiring 𝕜] (hrun : Stretch w (· < ·) always s served seen s')
    (hw : ∀ i, 0 < w i) (h : Level w (· < ·) s) {i : τ} (hi : i ∈ always)
    (hwait : i ∉ served) : served.length ≤ ∑ j ∈ seen.erase i, ⌈w j / w i⌉₊ := by
  have hmem : ∀ j ∈ served, j ∈ seen.erase i := fun j hj =>
    Finset.mem_erase.mpr ⟨fun heq => hwait (heq ▸ hj), hrun.served_seen j hj⟩
  calc served.length = ∑ j ∈ seen.erase i, served.count j := by
        have hcard := Multiset.sum_count_eq_card (s := seen.erase i)
          (m := (served : Multiset τ)) (by simpa using hmem)
        simpa using hcard.symm
    _ ≤ ∑ j ∈ seen.erase i, ⌈w j / w i⌉₊ := Finset.sum_le_sum fun j hj =>
        hrun.count_le hw h hi (Finset.ne_of_mem_erase hj).symm hwait

end Stretch

end TurboServe.Lib
