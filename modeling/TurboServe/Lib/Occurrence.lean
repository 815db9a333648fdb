import Mathlib

/-!
# Occurrences of strings in a text

Texts and strings are lists over any alphabet. `OccursAt s t i` says that the
string `s` stands in the text `t` at position `i`; `strFind` is the search for
the first such position. When several strings are searched for at once, a *hit*
is an occurrence of any of them, and `Leads` singles out the hit a search for the
earliest one reports: least position, then first in the list of strings.
-/

namespace TurboServe.Lib

variable {α : Type*}

/-! ## §1  One string -/

def OccursAt (s t : List α) (i : ℕ) : Prop := s <+: t.drop i

instance [DecidableEq α] (s t : List α) (i : ℕ) : Decidable (OccursAt s t i) :=
  inferInstanceAs (Decidable (s <+: t.drop i))

theorem OccursAt.end_le {s t : List α} {i : ℕ} (h : OccursAt s t i) (hs : s ≠ []) :
    i + s.length ≤ t.length := by
  have hlen : s.length ≤ t.length - i := by
    simpa using h.length_le
  have hpos : 0 < s.length := List.length_pos_iff.mpr hs
  omega

theorem OccursAt.append {s t : List α} {i : ℕ} (h : OccursAt s t i) (hs : s ≠ [])
    (u : List α) : OccursAt s (t ++ u) i := by
  have hle := h.end_le hs
  unfold OccursAt at *
  rw [List.drop_append_of_le_length (by omega)]
  exact h.trans (List.prefix_append _ _)

theorem occursAt_drop {s t : List α} {k i : ℕ} :
    OccursAt s (t.drop k) i ↔ OccursAt s t (k + i) := by
  rw [OccursAt, OccursAt, List.drop_drop]

/-- What occurs in a prefix of the text is what has ended there. -/
theorem occursAt_take {s t : List α} (hs : s ≠ []) {b i : ℕ} :
    OccursAt s (t.take b) i ↔ OccursAt s t i ∧ i + s.length ≤ b := by
  constructor
  · intro h
    have hle := h.end_le hs
    have hend : i + s.length ≤ b := by
      rw [List.length_take] at hle
      omega
    refine ⟨?_, hend⟩
    have := h.append hs (t.drop b)
    rwa [List.take_append_drop] at this
  · rintro ⟨h, hend⟩
    unfold OccursAt at *
    rw [List.drop_take]
    exact List.prefix_take_iff.mpr ⟨h, by omega⟩

/-- The first position of `s` in `t`, as a left-to-right search finds it. -/
def strFind [DecidableEq α] (t s : List α) : Option ℕ :=
  (List.range (t.length + 1)).find? fun i => decide (OccursAt s t i)

theorem strFind_eq_some [DecidableEq α] {t s : List α} (hs : s ≠ []) {i : ℕ} :
    strFind t s = some i ↔ OccursAt s t i ∧ ∀ j < i, ¬ OccursAt s t j := by
  rw [strFind, List.find?_range_eq_some]
  constructor
  · rintro ⟨hi, -, hlt⟩
    exact ⟨of_decide_eq_true hi, fun j hj => by simpa using hlt j hj⟩
  · rintro ⟨hi, hlt⟩
    have hle := hi.end_le hs
    refine ⟨decide_eq_true hi, List.mem_range.mpr (by omega), fun j hj => ?_⟩
    simpa using hlt j hj

theorem strFind_eq_none [DecidableEq α] {t s : List α} (hs : s ≠ []) :
    strFind t s = none ↔ ∀ i, ¬ OccursAt s t i := by
  rw [strFind, List.find?_eq_none]
  constructor
  · intro h i hi
    have hle := hi.end_le hs
    exact h i (List.mem_range.mpr (by omega)) (decide_eq_true hi)
  · intro h i _ hi
    exact h i (of_decide_eq_true hi)

/-! ## §2  Several strings at once -/

/-- One of the strings, `s`, stands in the text at `i`. -/
def Hit (S : List (List α)) (t : List α) (i : ℕ) (s : List α) : Prop :=
  s ∈ S ∧ OccursAt s t i

/-- The hit a search for the earliest one reports: no hit is before it, and none at
its position belongs to a string listed earlier. -/
structure Leads [DecidableEq α] (S : List (List α)) (t : List α) (i : ℕ)
    (s : List α) : Prop where
  hit : Hit S t i s
  le : ∀ j u, Hit S t j u → i ≤ j
  idx_le : ∀ u, Hit S t i u → S.idxOf s ≤ S.idxOf u

/-- The hit whose last character comes first; of those ending there, the longest. -/
structure CompletesFirst (S : List (List α)) (t : List α) (i : ℕ) (s : List α) :
    Prop where
  hit : Hit S t i s
  end_le : ∀ j u, Hit S t j u → i + s.length ≤ j + u.length
  le : ∀ j u, Hit S t j u → j + u.length = i + s.length → i ≤ j

theorem hit_take {S : List (List α)} (hS : ∀ s ∈ S, s ≠ []) {t : List α} {b i : ℕ}
    {s : List α} : Hit S (t.take b) i s ↔ Hit S t i s ∧ i + s.length ≤ b := by
  constructor
  · rintro ⟨hs, h⟩
    obtain ⟨ho, hle⟩ := (occursAt_take (hS s hs)).mp h
    exact ⟨⟨hs, ho⟩, hle⟩
  · rintro ⟨⟨hs, ho⟩, hle⟩
    exact ⟨hs, (occursAt_take (hS s hs)).mpr ⟨ho, hle⟩⟩

theorem Hit.append {S : List (List α)} (hS : ∀ s ∈ S, s ≠ []) {t : List α} {i : ℕ}
    {s : List α} (h : Hit S t i s) (u : List α) : Hit S (t ++ u) i s :=
  ⟨h.1, h.2.append (hS s h.1) u⟩

/-- Two hits at one position that end at one position are the same string. -/
theorem Hit.eq_of_end_eq {S : List (List α)} {t : List α} {i : ℕ} {s u : List α}
    (hs : Hit S t i s) (hu : Hit S t i u) (h : s.length = u.length) : s = u := by
  have hpre := List.prefix_of_prefix_length_le hs.2 hu.2 h.le
  exact hpre.eq_of_length h

theorem Leads.unique [DecidableEq α] {S : List (List α)} {t : List α} {i j : ℕ}
    {s u : List α} (hs : Leads S t i s) (hu : Leads S t j u) : i = j ∧ s = u := by
  have hij : i = j := le_antisymm (hs.le _ _ hu.hit) (hu.le _ _ hs.hit)
  subst hij
  have hidx := le_antisymm (hs.idx_le _ hu.hit) (hu.idx_le _ hs.hit)
  exact ⟨rfl, (List.idxOf_inj hs.hit.1).mp hidx⟩

/-- Dropping a part of the text where no hit starts only shifts the leading one. -/
theorem leads_drop [DecidableEq α] {S : List (List α)} {t : List α} {k : ℕ}
    (h : ∀ j u, Hit S t j u → k ≤ j) {i : ℕ} {s : List α} :
    Leads S (t.drop k) i s ↔ Leads S t (k + i) s := by
  constructor
  · intro hl
    refine ⟨⟨hl.hit.1, occursAt_drop.mp hl.hit.2⟩, fun j u hu => ?_, fun u hu => ?_⟩
    · have hk := h j u hu
      have := hl.le (j - k) u ⟨hu.1, occursAt_drop.mpr (by
        rw [Nat.add_sub_cancel' hk]
        exact hu.2)⟩
      omega
    · exact hl.idx_le u ⟨hu.1, occursAt_drop.mpr hu.2⟩
  · intro hl
    refine ⟨⟨hl.hit.1, occursAt_drop.mpr hl.hit.2⟩, fun j u hu => ?_, fun u hu => ?_⟩
    · have := hl.le (k + j) u ⟨hu.1, occursAt_drop.mp hu.2⟩
      omega
    · exact hl.idx_le u ⟨hu.1, occursAt_drop.mp hu.2⟩

/-- A text with a hit has one that completes first. -/
theorem exists_completesFirst {S : List (List α)} {t : List α} {i : ℕ} {s : List α}
    (h : Hit S t i s) : ∃ j u, CompletesFirst S t j u := by
  classical
  have hends : ∃ e, ∃ j u, Hit S t j u ∧ j + u.length = e := ⟨_, i, s, h, rfl⟩
  obtain ⟨j₀, u₀, hhit₀, hend₀⟩ := Nat.find_spec hends
  have hstarts : ∃ j, ∃ u, Hit S t j u ∧ j + u.length = Nat.find hends :=
    ⟨j₀, u₀, hhit₀, hend₀⟩
  obtain ⟨u, hu, hend⟩ := Nat.find_spec hstarts
  refine ⟨Nat.find hstarts, u, hu, fun k v hv => ?_, fun k v hv heq => ?_⟩
  · rw [hend]
    exact Nat.find_min' hends ⟨k, v, hv, rfl⟩
  · exact Nat.find_min' hstarts ⟨v, hv, heq.trans hend⟩

/-- In the text up to its end, the hit that completes first leads. -/
theorem CompletesFirst.leads_take [DecidableEq α] {S : List (List α)}
    (hS : ∀ s ∈ S, s ≠ []) {t : List α} {i : ℕ} {s : List α}
    (h : CompletesFirst S t i s) : Leads S (t.take (i + s.length)) i s := by
  refine ⟨(hit_take hS).mpr ⟨h.hit, le_rfl⟩, fun j u hu => ?_, fun u hu => ?_⟩
  · obtain ⟨hu, hle⟩ := (hit_take hS).mp hu
    exact h.le j u hu (le_antisymm hle (h.end_le j u hu))
  · obtain ⟨hu, hle⟩ := (hit_take hS).mp hu
    have hend := h.end_le i u hu
    rw [h.hit.eq_of_end_eq hu (by omega)]

end TurboServe.Lib
