import TurboServe.Runtime.Streaming

/-!
# What the stop-string matcher does to a text

The matcher has split what it has seen into what it emitted and what it withholds;
nothing emitted can be part of a match any more, and what was seen contains none
(`Holds`). One `feed` either reports the leading hit of everything seen so far, cut
immediately before it, or keeps the invariant. So for a text fed chunk by chunk the
matcher reports the leading hit of the first chunk boundary that has one.
-/

namespace TurboServe.Runtime

open TurboServe.Lib

namespace StopStringMatcher

/-! ## §1  The search over the buffer -/

/-- What the scan over the candidates seen so far has found. -/
def Found (S : List Text) (t : Text) : Option (ℕ × Text) → Prop
  | none => ∀ i s, ¬ Hit S t i s
  | some (i, s) => Leads S t i s

theorem hit_concat {S : List Text} {c t : Text} {i : ℕ} {s : Text} :
    Hit (S ++ [c]) t i s ↔ Hit S t i s ∨ (s = c ∧ OccursAt s t i) := by
  unfold Hit
  rw [List.mem_append, List.mem_singleton]
  tauto

theorem idxOf_concat_of_mem {S : List Text} {s : Text} (c : Text) (hs : s ∈ S) :
    (S ++ [c]).idxOf s = S.idxOf s :=
  List.idxOf_append_of_mem hs

/-- One more candidate: a hit of it replaces the one kept only when strictly earlier. -/
theorem found_consider {S : List Text} {t : Text} {best : Option (ℕ × Text)}
    (h : Found S t best) {c : Text} (hc : c ≠ []) :
    Found (S ++ [c]) t (consider t best c) := by
  unfold consider
  cases hfind : strFind t c with
  | none =>
      -- no occurrence of the candidate: the hits are the same ones
      have hnot := (strFind_eq_none hc).mp hfind
      have hback : ∀ {i s}, Hit (S ++ [c]) t i s → Hit S t i s := by
        intro i s hi
        rcases hit_concat.mp hi with hold | ⟨rfl, hocc⟩
        · exact hold
        · exact absurd hocc (hnot i)
      cases best with
      | none => exact fun i s hi => h i s (hback hi)
      | some b =>
          refine ⟨hit_concat.mpr (.inl h.hit), fun j u hu => h.le j u (hback hu), ?_⟩
          intro u hu
          rw [idxOf_concat_of_mem c h.hit.1, idxOf_concat_of_mem c (hback hu).1]
          exact h.idx_le u (hback hu)
  | some index =>
      obtain ⟨hocc, hmin⟩ := (strFind_eq_some hc).mp hfind
      have hnew : Hit (S ++ [c]) t index c := hit_concat.mpr (.inr ⟨rfl, hocc⟩)
      have hge : ∀ j, OccursAt c t j → index ≤ j := by
        intro j hj
        by_contra hlt
        exact hmin j (by omega) hj
      cases best with
      | none =>
          refine ⟨hnew, fun j u hu => ?_, fun u hu => ?_⟩
          · rcases hit_concat.mp hu with hold | ⟨rfl, hocc'⟩
            · exact absurd hold (h j u)
            · exact hge j hocc'
          · rcases hit_concat.mp hu with hold | ⟨rfl, -⟩
            · exact absurd hold (h index u)
            · exact le_rfl
      | some b =>
          obtain ⟨earliest, matched⟩ := b
          have hl : Leads S t earliest matched := h
          simp only
          split
          · rename_i hlt
            refine ⟨hnew, fun j u hu => ?_, fun u hu => ?_⟩
            · rcases hit_concat.mp hu with hold | ⟨rfl, hocc'⟩
              · exact hlt.le.trans (hl.le j u hold)
              · exact hge j hocc'
            · rcases hit_concat.mp hu with hold | ⟨rfl, -⟩
              · have := hl.le index u hold
                omega
              · exact le_rfl
          · rename_i hle
            refine ⟨hit_concat.mpr (.inl hl.hit), fun j u hu => ?_, fun u hu => ?_⟩
            · rcases hit_concat.mp hu with hold | ⟨rfl, hocc'⟩
              · exact hl.le j u hold
              · exact (not_lt.mp hle).trans (hge j hocc')
            · rw [idxOf_concat_of_mem c hl.hit.1]
              by_cases hmem : u ∈ S
              · rw [idxOf_concat_of_mem c hmem]
                exact hl.idx_le u ⟨hmem, hu.2⟩
              · have hlt := List.idxOf_lt_length_of_mem hl.hit.1
                rw [List.idxOf_append_of_notMem hmem]
                omega

/-- The search reports the leading hit, and nothing only when there is none. -/
theorem found_search {S : List Text} (hS : ∀ s ∈ S, s ≠ []) (t : Text) :
    Found S t (search S t) := by
  induction S using List.reverseRecOn with
  | nil =>
      rintro i s ⟨hs, -⟩
      cases hs
  | append_singleton S c ih =>
      have ih := ih fun s hs => hS s (List.mem_append_left _ hs)
      rw [search, List.foldl_append]
      exact found_consider ih (hS c (by simp))

theorem search_eq_some {S : List Text} (hS : ∀ s ∈ S, s ≠ []) {t : Text} {i : ℕ}
    {s : Text} : search S t = some (i, s) ↔ Leads S t i s := by
  have hfound := found_search hS t
  constructor
  · intro h
    rw [h] at hfound
    exact hfound
  · intro h
    cases hs : search S t with
    | none =>
        rw [hs] at hfound
        exact absurd h.hit (hfound i s)
    | some b =>
        rw [hs] at hfound
        obtain ⟨rfl, rfl⟩ := Leads.unique hfound h
        rfl

theorem search_eq_none {S : List Text} (hS : ∀ s ∈ S, s ≠ []) {t : Text} :
    search S t = none ↔ ∀ i s, ¬ Hit S t i s := by
  have hfound := found_search hS t
  cases hs : search S t with
  | none =>
      rw [hs] at hfound
      exact ⟨fun _ => hfound, fun _ => rfl⟩
  | some b =>
      rw [hs] at hfound
      exact ⟨fun h => absurd h (by simp), fun h => absurd hfound.hit (h _ _)⟩

/-! ## §2  The suffix kept back -/

/-- A search from `limit` down to 1 stops at the largest length that fits. -/
theorem le_longest {fits : ℕ → Bool} {limit len : ℕ} (hpos : 1 ≤ len)
    (hle : len ≤ limit) (hfits : fits len = true) :
    len ≤ ((List.range' 1 limit).reverse.find? fits).getD 0 := by
  induction limit with
  | zero => omega
  | succ limit ih =>
      rw [List.range'_concat, List.reverse_append]
      simp only [List.reverse_cons, List.reverse_nil, List.nil_append,
        List.singleton_append, Nat.one_mul]
      cases htop : fits (1 + limit) with
      | true =>
          rw [List.find?_cons_of_pos htop, Option.getD_some]
          omega
      | false =>
          rw [List.find?_cons_of_neg (by rw [htop]; decide)]
          apply ih
          have hne : len ≠ 1 + limit := by
            rintro rfl
            rw [hfits] at htop
            cases htop
          omega

theorem length_le_maxLen {m : StopStringMatcher} {s : Text} (hs : s ∈ m.stop) :
    s.length ≤ m.maxLen := by
  unfold maxLen
  have hmem : s.length ∈ m.stop.map List.length := List.mem_map_of_mem hs
  generalize m.stop.map List.length = lengths at hmem
  induction lengths with
  | nil => cases hmem
  | cons l lengths ih =>
      rcases List.mem_cons.mp hmem with rfl | hmem
      · exact le_max_left _ _
      · exact (ih hmem).trans (le_max_right _ _)

/-- No suffix of the buffer that goes into a stop string, short of being one, is longer
than the one kept. -/
theorem not_prefix_of_partialSuffixLen_lt {m : StopStringMatcher} {i : ℕ}
    (hi : i + m.partialSuffixLen < m.buffer.length) {s : Text} (hs : s ∈ m.stop)
    (hne : m.buffer.drop i ≠ s) : ¬ m.buffer.drop i <+: s := by
  intro hpre
  have hlen := hpre.length_le
  have hneLen : (m.buffer.drop i).length ≠ s.length := fun h => hne (hpre.eq_of_length h)
  have hmax := length_le_maxLen hs
  rw [List.length_drop] at hlen hneLen
  have hdrop : m.buffer.length - (m.buffer.length - i) = i := by omega
  have hkept : m.buffer.length - i ≤ m.partialSuffixLen := by
    apply le_longest (by omega) (by omega)
    rw [List.any_eq_true]
    refine ⟨s, hs, decide_eq_true ?_⟩
    rw [hdrop]
    exact hpre
  omega

theorem partialSuffixLen_le (m : StopStringMatcher) :
    m.partialSuffixLen ≤ m.buffer.length := by
  unfold partialSuffixLen
  simp only
  cases h : List.find? _ _ with
  | none => simp
  | some len =>
      have hmem := List.mem_of_find?_eq_some h
      rw [List.mem_reverse, List.mem_range'_1] at hmem
      simp only [Option.getD_some]
      omega

/-! ## §3  One chunk -/

/-- Of the text seen, `emitted` is out and the buffer is withheld; no match is in what
was seen, and none can begin in what is out. -/
structure Holds (m : StopStringMatcher) (emitted seen : Text) : Prop where
  split : emitted ++ m.buffer = seen
  idle : m.stop = [] → m.buffer = []
  clear : ∀ i s, ¬ Hit m.stop seen i s
  past : ∀ i < emitted.length, ∀ s ∈ m.stop, ¬ seen.drop i <+: s

theorem holds_create (stop : List Text) : Holds (create stop) [] [] := by
  refine ⟨rfl, fun _ => rfl, ?_, fun i hi => absurd hi (Nat.not_lt_zero i)⟩
  rintro i s ⟨hs, h⟩
  rw [OccursAt, List.drop_nil, List.prefix_nil] at h
  exact (create stop).stop_ne_nil s hs h

/-- Every match in what has been seen after one more chunk begins in the buffer. -/
theorem Holds.le_of_hit {m : StopStringMatcher} {emitted seen : Text}
    (h : Holds m emitted seen) {text : Text} {i : ℕ} {s : Text}
    (hit : Hit m.stop (seen ++ text) i s) : emitted.length ≤ i := by
  by_contra hlt
  rw [not_le] at hlt
  have hlen : emitted.length ≤ seen.length := by
    rw [← h.split, List.length_append]
    omega
  have hocc := hit.2
  rw [OccursAt, List.drop_append_of_le_length (by omega)] at hocc
  rcases List.prefix_or_prefix_of_prefix hocc (List.prefix_append _ _) with hpre | hpre
  · exact h.clear i s ⟨hit.1, hpre⟩
  · exact h.past i hlt s hit.1 hpre

theorem Holds.buffer_append {m : StopStringMatcher} {emitted seen : Text}
    (h : Holds m emitted seen) (text : Text) :
    m.buffer ++ text = (seen ++ text).drop emitted.length := by
  rw [← h.split, List.append_assoc, List.drop_left]

/-- The search over the buffer is a search over everything seen. -/
theorem Holds.leads_buffer {m : StopStringMatcher} {emitted seen : Text}
    (h : Holds m emitted seen) {text : Text} {i : ℕ} {s : Text} :
    Leads m.stop (m.buffer ++ text) i s ↔
      Leads m.stop (seen ++ text) (emitted.length + i) s := by
  rw [h.buffer_append]
  exact leads_drop fun j u hu => h.le_of_hit hu

/-- A chunk that completes a match is cut immediately before the leading one. -/
theorem Holds.feed_match {m : StopStringMatcher} {emitted seen : Text}
    (h : Holds m emitted seen) {text : Text} {i : ℕ} {s : Text}
    (hl : Leads m.stop (seen ++ text) i s) :
    (m.feed text).1.stop = some s ∧
      emitted ++ (m.feed text).1.text = (seen ++ text).take i := by
  have hle := h.le_of_hit hl.hit
  obtain ⟨k, rfl⟩ := Nat.exists_eq_add_of_le hle
  have hstop : m.stop ≠ [] := List.ne_nil_of_mem hl.hit.1
  have hsearch : search m.stop (m.buffer ++ text) = some (k, s) :=
    (search_eq_some m.stop_ne_nil).mpr (h.leads_buffer.mpr hl)
  have hfeed : (m.feed text).1 = ⟨(m.buffer ++ text).take k, some s, []⟩ := by
    simp only [feed, if_neg hstop, hsearch]
  rw [hfeed]
  refine ⟨rfl, ?_⟩
  rw [List.take_add, ← h.buffer_append]
  congr 1
  rw [← h.split, List.append_assoc, List.take_left]

/-- A chunk that completes none keeps the invariant. -/
theorem Holds.feed_none {m : StopStringMatcher} {emitted seen : Text}
    (h : Holds m emitted seen) {text : Text}
    (hnone : ∀ i s, ¬ Hit m.stop (seen ++ text) i s) :
    (m.feed text).1.stop = none ∧ (m.feed text).2.stop = m.stop ∧
      Holds (m.feed text).2 (emitted ++ (m.feed text).1.text) (seen ++ text) := by
  by_cases hstop : m.stop = []
  · have hfeed : m.feed text = (⟨text, none, []⟩, m) := by
      simp only [feed, if_pos hstop]
    have hbuf := h.idle hstop
    have hsplit := h.split
    rw [hbuf, List.append_nil] at hsplit
    rw [hfeed]
    refine ⟨rfl, rfl, ?_, h.idle, hnone, ?_⟩
    · rw [hbuf, List.append_nil, hsplit]
    · intro i _ s hs
      rw [hstop] at hs
      cases hs
  · have hsearch : search m.stop (m.buffer ++ text) = none := by
      refine (search_eq_none m.stop_ne_nil).mpr fun i s hi => ?_
      apply hnone (emitted.length + i) s
      refine ⟨hi.1, ?_⟩
      have := hi.2
      rw [h.buffer_append] at this
      exact occursAt_drop.mp this
    set m' : StopStringMatcher := { m with buffer := m.buffer ++ text } with hm'
    set keep := m'.partialSuffixLen with hkeep
    have hkeepLe : keep ≤ (m.buffer ++ text).length := m'.partialSuffixLen_le
    set cut := (m.buffer ++ text).length - keep with hcut
    have hfeed : m.feed text =
        (⟨(m.buffer ++ text).take cut, none, (m.buffer ++ text).drop cut⟩,
          { m with buffer := (m.buffer ++ text).drop cut }) := by
      simp only [feed, if_neg hstop, hsearch]
      rfl
    rw [hfeed]
    refine ⟨rfl, rfl, ?_, fun hnil => absurd hnil hstop, hnone, ?_⟩
    · rw [List.append_assoc, List.take_append_drop, ← List.append_assoc, h.split]
    · intro i hi s hs hpre
      by_cases hold : i < emitted.length
      · -- what was out before stays out of every match
        have hlen : emitted.length ≤ seen.length := by
          rw [← h.split, List.length_append]
          omega
        rw [List.drop_append_of_le_length (by omega)] at hpre
        exact h.past i hold s hs ((List.prefix_append _ _).trans hpre)
      · rw [not_lt] at hold
        obtain ⟨k, rfl⟩ := Nat.exists_eq_add_of_le hold
        rw [List.length_append, List.length_take] at hi
        have hk : k < cut := by omega
        rw [← List.drop_drop, ← h.buffer_append] at hpre
        have hne : m'.buffer.drop k ≠ s := by
          intro heq
          apply hnone (emitted.length + k) s
          refine ⟨hs, occursAt_drop.mp ?_⟩
          rw [← h.buffer_append]
          rw [OccursAt, heq]
        refine not_prefix_of_partialSuffixLen_lt (m := m') ?_ hs hne hpre
        change k + keep < (m.buffer ++ text).length
        omega

/-! ## §4  A text fed chunk by chunk -/

/-- The leading hit at the first chunk boundary that has one. -/
def firstMatch (S : List Text) (seen : Text) : List Text → Option (ℕ × Text)
  | [] => none
  | text :: rest =>
      match search S (seen ++ text) with
      | some b => some b
      | none => firstMatch S (seen ++ text) rest

/-- **What the matcher does to a chunked text.** It reports `firstMatch` and emits the
text cut immediately before it; without one, everything. -/
theorem Holds.feedAll {m : StopStringMatcher} {emitted seen : Text}
    (h : Holds m emitted seen) (chunks : List Text) :
    emitted ++ (m.feedAll chunks).1 =
        (match firstMatch m.stop seen chunks with
          | some (i, _) => (seen ++ chunks.flatten).take i
          | none => seen ++ chunks.flatten) ∧
      (m.feedAll chunks).2 = (firstMatch m.stop seen chunks).map Prod.snd := by
  induction chunks generalizing m emitted seen with
  | nil =>
      refine ⟨?_, rfl⟩
      show emitted ++ m.buffer = seen ++ [].flatten
      rw [h.split, List.flatten_nil, List.append_nil]
  | cons text rest ih =>
      rw [StopStringMatcher.feedAll, firstMatch, List.flatten_cons, ← List.append_assoc]
      cases hsearch : search m.stop (seen ++ text) with
      | some b =>
          obtain ⟨i, s⟩ := b
          have hl := (search_eq_some m.stop_ne_nil).mp hsearch
          obtain ⟨hstop, htext⟩ := h.feed_match hl
          rw [hstop]
          refine ⟨?_, rfl⟩
          have hend := hl.hit.2.end_le (m.stop_ne_nil s hl.hit.1)
          simp only
          have hi : i ≤ (seen ++ text).length := by omega
          rw [htext, List.take_append_of_le_length hi]
      | none =>
          obtain ⟨hstop, hsame, hholds⟩ :=
            h.feed_none ((search_eq_none m.stop_ne_nil).mp hsearch)
          rw [hstop]
          have := ih hholds
          rw [hsame] at this
          simp only
          rw [← List.append_assoc]
          exact this

theorem feedAll_create (stop : List Text) (chunks : List Text) :
    (create stop).feedAll chunks =
      match firstMatch (create stop).stop [] chunks with
      | some (i, s) => (chunks.flatten.take i, some s)
      | none => (chunks.flatten, none) := by
  obtain ⟨htext, hstop⟩ := (holds_create stop).feedAll chunks
  rw [List.nil_append, List.nil_append] at htext
  ext1
  · rw [htext]
    cases firstMatch (create stop).stop [] chunks <;> rfl
  · rw [hstop]
    cases firstMatch (create stop).stop [] chunks <;> rfl

/-- A reported match leads in what had been seen when it was. -/
theorem leads_of_firstMatch {S : List Text} (hS : ∀ s ∈ S, s ≠ []) {seen : Text}
    {chunks : List Text} {i : ℕ} {s : Text}
    (h : firstMatch S seen chunks = some (i, s)) :
    ∃ b, Leads S ((seen ++ chunks.flatten).take b) i s := by
  induction chunks generalizing seen with
  | nil => cases h
  | cons text rest ih =>
      rw [firstMatch] at h
      rw [List.flatten_cons, ← List.append_assoc]
      cases hsearch : search S (seen ++ text) with
      | some b =>
          rw [hsearch] at h
          cases h
          refine ⟨(seen ++ text).length, ?_⟩
          rw [List.take_left]
          exact (search_eq_some hS).mp hsearch
      | none =>
          rw [hsearch] at h
          exact ih h

/-- Nothing is reported only when the text contains no stop string. -/
theorem firstMatch_eq_none {S : List Text} (hS : ∀ s ∈ S, s ≠ []) {seen : Text}
    (hseen : ∀ i s, ¬ Hit S seen i s) {chunks : List Text} :
    firstMatch S seen chunks = none ↔
      ∀ i s, ¬ Hit S (seen ++ chunks.flatten) i s := by
  induction chunks generalizing seen with
  | nil =>
      rw [List.flatten_nil, List.append_nil]
      exact ⟨fun _ => hseen, fun _ => rfl⟩
  | cons text rest ih =>
      rw [firstMatch, List.flatten_cons, ← List.append_assoc]
      cases hsearch : search S (seen ++ text) with
      | some b =>
          have hl := (search_eq_some hS).mp hsearch
          simp only [reduceCtorEq, false_iff, not_forall, not_not]
          exact ⟨b.1, b.2, hl.hit.append hS _⟩
      | none => exact ih ((search_eq_none hS).mp hsearch)

end StopStringMatcher

end TurboServe.Runtime
