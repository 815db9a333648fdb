import TurboServe.Runtime.Matching

/-!
# When stop matching does not depend on chunking

A matcher reports the leading hit at the first chunk boundary where it sees one. With
overlapping stop strings a longer one may begin before the one that is complete first;
whether it is reported then depends on where the chunks end. The result is the same for
every way of splitting a text exactly when the stop string complete first is also the
one a search through the whole text reports.
-/

namespace TurboServe.Runtime

open TurboServe.Lib StopStringMatcher

/-- What a client of a fresh matcher gets of a text: everything emitted, and the stop
string reported. -/
def streamed (stop : List Text) (chunks : List Text) : Text × Option Text :=
  (StopStringMatcher.create stop).feedAll chunks

/-- The stop string that is complete first is the one leading in the whole text. -/
def FirstCompleteLeads (stop : List Text) (text : Text) : Prop :=
  ∀ i s, CompletesFirst (StopStringMatcher.create stop).stop text i s →
    Leads (StopStringMatcher.create stop).stop text i s

theorem streamed_of_leads {stop : List Text} {chunks : List Text} {i : ℕ} {s : Text}
    (h : firstMatch (StopStringMatcher.create stop).stop [] chunks = some (i, s)) :
    streamed stop chunks = (chunks.flatten.take i, some s) := by
  rw [streamed, feedAll_create, h]

/-- With one chunk, the match reported is the leading one of the text. -/
theorem firstMatch_singleton {S : List Text} (hS : ∀ s ∈ S, s ≠ []) {text : Text}
    {i : ℕ} {s : Text} (h : Leads S text i s) :
    firstMatch S [] [text] = some (i, s) := by
  rw [firstMatch, List.nil_append, (search_eq_some hS).mpr h]

/-- Split where the first one is complete, that one is reported. -/
theorem firstMatch_at_end {S : List Text} (hS : ∀ s ∈ S, s ≠ []) {text : Text} {i : ℕ}
    {s : Text} (h : CompletesFirst S text i s) :
    firstMatch S [] [text.take (i + s.length), text.drop (i + s.length)] =
      some (i, s) := by
  rw [firstMatch, List.nil_append, (search_eq_some hS).mpr (h.leads_take hS)]

/-- Where the first one to be complete leads, every splitting reports it. -/
theorem FirstCompleteLeads.firstMatch {stop : List Text} {text : Text}
    (h : FirstCompleteLeads stop text) {i : ℕ} {s : Text}
    (hfirst : CompletesFirst (StopStringMatcher.create stop).stop text i s)
    {chunks : List Text} (hchunks : chunks.flatten = text) :
    firstMatch (StopStringMatcher.create stop).stop [] chunks = some (i, s) := by
  set S := (StopStringMatcher.create stop).stop with hSdef
  have hS : ∀ u ∈ S, u ≠ [] := (StopStringMatcher.create stop).stop_ne_nil
  have hl := h i s hfirst
  cases hm : StopStringMatcher.firstMatch S [] chunks with
  | none =>
      have hno := (firstMatch_eq_none hS (holds_create stop).clear).mp hm
      rw [List.nil_append, hchunks] at hno
      exact absurd hfirst.hit (hno i s)
  | some b =>
      obtain ⟨j, u⟩ := b
      obtain ⟨e, hlead⟩ := leads_of_firstMatch hS hm
      rw [List.nil_append, hchunks] at hlead
      -- the one complete first is complete wherever any other is
      have hju := (hit_take hS).mp hlead.hit
      have hseen : Hit S (text.take e) i s :=
        (hit_take hS).mpr ⟨hfirst.hit, (hfirst.end_le j u hju.1).trans hju.2⟩
      have hij : i = j := le_antisymm (hl.le j u hju.1) (hlead.le i s hseen)
      subst hij
      have hidx := le_antisymm (hl.idx_le u hju.1) (hlead.idx_le s hseen)
      rw [(List.idxOf_inj hl.hit.1).mp hidx]

/-- **When chunking is invisible.** Any two ways of splitting the text give the same
emitted text and the same stop string, exactly when no stop string of the text is
preferred over the one that is complete first. -/
theorem streamed_eq_iff (stop : List Text) (text : Text) :
    (∀ chunks chunks' : List Text, chunks.flatten = text → chunks'.flatten = text →
        streamed stop chunks = streamed stop chunks') ↔
      FirstCompleteLeads stop text := by
  set S := (StopStringMatcher.create stop).stop with hSdef
  have hS : ∀ u ∈ S, u ≠ [] := (StopStringMatcher.create stop).stop_ne_nil
  constructor
  · intro hsame i s hfirst
    rcases hsearch : search S text with _ | ⟨j, u⟩
    · exact absurd hfirst.hit ((search_eq_none hS).mp hsearch i s)
    · have hl := (search_eq_some hS).mp hsearch
      have heq := hsame [text.take (i + s.length), text.drop (i + s.length)] [text]
        (by simp) (by simp)
      rw [streamed_of_leads (firstMatch_at_end hS hfirst),
        streamed_of_leads (firstMatch_singleton hS hl)] at heq
      obtain ⟨htext, hstop⟩ := Prod.mk.inj heq
      cases hstop
      have hlen := congrArg List.length htext
      have hi := hfirst.hit.2.end_le (hS s hfirst.hit.1)
      have hj := hl.hit.2.end_le (hS s hl.hit.1)
      simp only [List.flatten_cons, List.flatten_nil, List.append_nil,
        List.take_append_drop, List.length_take] at hlen
      have hij : i = j := by omega
      rw [hij]
      exact hl
  · intro h chunks chunks' hc hc'
    rcases hsearch : search S text with _ | ⟨i, s⟩
    · have hno := (search_eq_none hS).mp hsearch
      have hnone : ∀ cs : List Text, cs.flatten = text →
          streamed stop cs = (text, none) := by
        intro cs hcs
        have hm : firstMatch S [] cs = none := by
          rw [firstMatch_eq_none hS (holds_create stop).clear, List.nil_append, hcs]
          exact hno
        rw [streamed, feedAll_create, hm]
        simp only [hcs]
      rw [hnone chunks hc, hnone chunks' hc']
    · obtain ⟨j, u, hfirst⟩ :=
        exists_completesFirst ((search_eq_some hS).mp hsearch).hit
      rw [streamed_of_leads (h.firstMatch hfirst hc),
        streamed_of_leads (h.firstMatch hfirst hc'), hc, hc']

/-- With the stop strings `bc` and `abcd`, the text `abcd` in one chunk is cut before
`abcd`; in the chunks `abc`, `d` it is cut before `bc`. -/
theorem streamed_overlapping :
    ¬ ∀ (stop : List Text) (text : Text) (chunks chunks' : List Text),
      chunks.flatten = text → chunks'.flatten = text →
        streamed stop chunks = streamed stop chunks' := by
  intro h
  have := h ["bc".toList, "abcd".toList] "abcd".toList ["abcd".toList]
    ["abc".toList, "d".toList] (by decide) (by decide)
  revert this
  decide +kernel

end TurboServe.Runtime
