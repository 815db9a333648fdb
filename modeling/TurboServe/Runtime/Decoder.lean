import TurboServe.Runtime.Detokenizer
import TurboServe.Runtime.Matching

/-!
# The streaming decoder

A decoder without a seed releases the text of all its tokens whenever that text does
not end in a replacement character, and nothing otherwise (`Released`). Its matcher
sees what was released, so it reports the leading stop string of the first released
text that contains one (`firstStop`); when there is none the client gets the whole text.
-/

namespace TurboServe.Runtime

open TurboServe.Core TurboServe.Lib

/-- A text that may be emitted: it does not end in a replacement character. -/
def Complete (text : Text) : Prop := text.getLast? ≠ some replacementChar

instance (text : Text) : Decidable (Complete text) :=
  inferInstanceAs (Decidable (text.getLast? ≠ some replacementChar))

variable {bytes : TokenId → List UInt8}

theorem byteDecode_complete {xs : List TokenId} (h : Complete (byteDecode bytes xs))
    (ys : List TokenId) :
    byteDecode bytes (xs ++ ys) = byteDecode bytes xs ++ byteDecode bytes ys :=
  byteDecode_append (endState_of_getLast? h) ys

/-! ## §1  What an unseeded detokenizer has released -/

namespace IncrementalDetokenizer

/-- `out` is the text of the tokens read, and that of all tokens if it is complete. -/
structure Released (bytes : TokenId → List UInt8) (d : IncrementalDetokenizer)
    (out : Text) : Prop extends Aligned bytes d where
  boundary : endState bytes (d.tokens.take d.readOffset) = .ground
  text_eq : byteDecode bytes (d.tokens.take d.readOffset) = out
  whole : Complete (byteDecode bytes d.tokens) → byteDecode bytes d.tokens = out

theorem released_create : (create []).Released bytes [] where
  toAligned := aligned_create rfl
  boundary := rfl
  text_eq := rfl
  whole := fun _ => rfl

theorem Released.decode_tokens {d : IncrementalDetokenizer} {out : Text}
    (h : d.Released bytes out) :
    byteDecode bytes d.tokens = out ++ byteDecode bytes d.pending := by
  conv_lhs => rw [← List.take_append_drop d.readOffset d.tokens]
  rw [byteDecode_append h.boundary, h.text_eq]
  rfl

theorem take_extend {d : IncrementalDetokenizer} (h : d.Ordered)
    (tokenIds : List TokenId) :
    (d.extend tokenIds).tokens.take (d.extend tokenIds).readOffset =
      d.tokens.take d.readOffset :=
  List.take_append_of_le_length h.read_le

/-- **One batch.** What has been released grows to the text of all tokens if that is
complete, and stays as it was if not. -/
theorem Released.append {d : IncrementalDetokenizer} {out : Text}
    (h : d.Released bytes out) (tokenIds : List TokenId) :
    let r := d.append (byteDecode bytes) tokenIds
    r.2.tokens = d.tokens ++ tokenIds ∧ r.2.Released bytes (out ++ r.1) ∧
      (¬ Complete (byteDecode bytes r.2.tokens) → r.1 = []) := by
  by_cases hne : tokenIds = []
  · subst hne
    rw [append_nil]
    refine ⟨(List.append_nil _).symm, ?_, fun _ => rfl⟩
    rw [List.append_nil]
    exact h
  · have hext := h.toAligned.extend tokenIds
    have htake := take_extend h.toOrdered tokenIds
    have hall : byteDecode bytes (d.extend tokenIds).tokens =
        out ++ byteDecode bytes (d.extend tokenIds).pending := by
      conv_lhs => rw [← List.take_append_drop d.readOffset (d.extend tokenIds).tokens]
      have hb : endState bytes ((d.extend tokenIds).tokens.take d.readOffset) =
          .ground := by
        rw [show (d.extend tokenIds).tokens.take d.readOffset = _ from htake]
        exact h.boundary
      rw [byteDecode_append hb,
        show (d.extend tokenIds).tokens.take d.readOffset = _ from htake, h.text_eq]
      rfl
    by_cases hlast : (byteDecode bytes (d.extend tokenIds).window).getLast? =
        some replacementChar
    · rw [append_held hne hlast]
      refine ⟨rfl, ⟨hext, ?_, ?_, fun hcomplete => ?_⟩, fun _ => rfl⟩
      · rw [htake]
        exact h.boundary
      · rw [htake, List.append_nil]
        exact h.text_eq
      · -- the window's last character is that of the pending text, if there is any
        rw [List.append_nil]
        by_cases hnil : byteDecode bytes (d.extend tokenIds).pending = []
        · rw [hall, hnil, List.append_nil]
        · rw [hext.decode_window, List.getLast?_append_of_ne_nil _ hnil] at hlast
          unfold Complete at hcomplete
          rw [hall, List.getLast?_append_of_ne_nil _ hnil] at hcomplete
          exact absurd hlast hcomplete
    · rw [append_stable hne hlast hext.decode_window]
      have hground := endState_of_getLast? hlast
      rw [hext.window_eq] at hground
      have hpend := endState_suffix hground
      have hread : ((d.extend tokenIds).advance (byteDecode bytes
          (d.extend tokenIds).pending)).tokens.take (d.extend tokenIds).tokens.length =
            (d.extend tokenIds).tokens := List.take_length
      refine ⟨rfl, ⟨hext.toOrdered.advance hlast _, ?_, ?_, fun _ => hall⟩, ?_⟩
      · show endState bytes (List.take (d.extend tokenIds).tokens.length _) = _
        rw [hread, ← List.take_append_drop d.readOffset (d.extend tokenIds).tokens]
        refine endState_append ?_ hpend
        rw [show (d.extend tokenIds).tokens.take d.readOffset = _ from htake]
        exact h.boundary
      · show byteDecode bytes (List.take (d.extend tokenIds).tokens.length _) = _
        rw [hread]
        exact hall
      · intro hincomplete
        by_contra hnil
        apply hincomplete
        show Complete (byteDecode bytes (d.extend tokenIds).tokens)
        unfold Complete
        rw [hall, List.getLast?_append_of_ne_nil _ hnil]
        rw [hext.decode_window, List.getLast?_append_of_ne_nil _ hnil] at hlast
        exact hlast

end IncrementalDetokenizer

/-! ## §2  The stop string a decoder reports -/

/-- The leading stop string of the first complete text that contains one, the texts
being those of the tokens fed so far. -/
def firstStop (bytes : TokenId → List UInt8) (S : List Text) (seen : List TokenId) :
    List (List TokenId) → Option (ℕ × Text)
  | [] => none
  | batch :: rest =>
      if Complete (byteDecode bytes (seen ++ batch)) then
        match StopStringMatcher.search S (byteDecode bytes (seen ++ batch)) with
        | some found => some found
        | none => firstStop bytes S (seen ++ batch) rest
      else firstStop bytes S (seen ++ batch) rest

/-- What is known of a decoder between feeds: what its detokenizer has released is what
its matcher has seen. -/
structure StreamingDecoder.Streams (bytes : TokenId → List UInt8) (d : StreamingDecoder)
    (seen : List TokenId) (out : Text) : Prop where
  tokens_eq : d.detokenizer.tokens = seen
  released : d.detokenizer.Released bytes out
  holds : StopStringMatcher.Holds d.matcher d.text out

theorem StreamingDecoder.streams_create (stop : List Text) :
    (StreamingDecoder.create stop []).Streams bytes [] [] where
  tokens_eq := rfl
  released := IncrementalDetokenizer.released_create
  holds := StopStringMatcher.holds_create stop

/-- `finish` brings out everything that was withheld, by either stage. -/
theorem StreamingDecoder.Streams.finish {d : StreamingDecoder} {seen : List TokenId}
    {out : Text} (h : d.Streams bytes seen out) :
    (d.finish (byteDecode bytes)).2.text = byteDecode bytes seen := by
  have htail := h.released.toAligned.flush
  have hall := h.released.decode_tokens
  rw [h.tokens_eq] at hall
  rw [hall, ← htail, ← h.holds.split]
  show d.text ++ (if d.matcher.isActive then d.matcher.buffer ++ _ else _) = _
  split
  · rw [List.append_assoc]
  · rename_i hactive
    have hstop : d.matcher.stop = [] := by
      simpa [StopStringMatcher.isActive] using hactive
    rw [h.holds.idle hstop, List.append_nil]

/-- **What the client of a decoder gets.** The text cut immediately before the stop
string `firstStop` reports; without one, all of it. -/
theorem StreamingDecoder.Streams.feedAll {d : StreamingDecoder} {seen : List TokenId}
    {out : Text} (h : d.Streams bytes seen out) (batches : List (List TokenId)) :
    d.feedAll (byteDecode bytes) batches =
      match firstStop bytes d.matcher.stop seen batches with
      | some (i, s) => ((byteDecode bytes (seen ++ batches.flatten)).take i, some s)
      | none => (byteDecode bytes (seen ++ batches.flatten), none) := by
  induction batches generalizing d seen out with
  | nil =>
      rw [StreamingDecoder.feedAll, firstStop, h.finish, List.flatten_nil,
        List.append_nil]
  | cons batch rest ih =>
      obtain ⟨htokens, hreleased, hquiet⟩ := h.released.append batch
      rw [h.tokens_eq] at htokens
      rw [StreamingDecoder.feedAll, firstStop, List.flatten_cons, ← List.append_assoc]
      set delta := (d.detokenizer.append (byteDecode bytes) batch).1 with hdelta
      have hfeed : (d.feed (byteDecode bytes) batch).1 = (d.matcher.feed delta).1 := rfl
      rw [hfeed]
      -- the invariant after a feed that reports nothing, and what the rest then does
      have hnext : (∀ i s, ¬ Hit d.matcher.stop (out ++ delta) i s) →
          (d.matcher.feed delta).1.stop = none ∧
          (d.feed (byteDecode bytes) batch).2.feedAll (byteDecode bytes) rest =
            match firstStop bytes d.matcher.stop (seen ++ batch) rest with
            | some (i, s) =>
                ((byteDecode bytes (seen ++ batch ++ rest.flatten)).take i, some s)
            | none => (byteDecode bytes (seen ++ batch ++ rest.flatten), none) := by
        intro hnone
        obtain ⟨hstop, hsame, hholds⟩ := h.holds.feed_none hnone
        refine ⟨hstop, ?_⟩
        have hstreams : (d.feed (byteDecode bytes) batch).2.Streams bytes
            (seen ++ batch) (out ++ delta) := ⟨htokens, hreleased, hholds⟩
        have hrest := ih hstreams
        have hstops : (d.feed (byteDecode bytes) batch).2.matcher.stop =
            d.matcher.stop := hsame
        rw [hstops] at hrest
        exact hrest
      by_cases hcomplete : Complete (byteDecode bytes (seen ++ batch))
      · rw [if_pos hcomplete]
        have hout : byteDecode bytes (seen ++ batch) = out ++ delta := by
          have := hreleased.whole
          rw [htokens] at this
          exact this hcomplete
        rw [hout]
        cases hsearch : StopStringMatcher.search d.matcher.stop (out ++ delta) with
        | some found =>
            obtain ⟨i, s⟩ := found
            have hl := (StopStringMatcher.search_eq_some d.matcher.stop_ne_nil).mp hsearch
            obtain ⟨hstop, htext⟩ := h.holds.feed_match hl
            have hi : i ≤ (out ++ delta).length :=
              (Nat.le_add_right _ _).trans
                (hl.hit.2.end_le (d.matcher.stop_ne_nil s hl.hit.1))
            rw [hstop]
            show (d.text ++ (d.matcher.feed delta).1.text, some s) = _
            simp only
            rw [htext, byteDecode_complete hcomplete, hout,
              List.take_append_of_le_length hi]
        | none =>
            obtain ⟨hstop, hrest⟩ := hnext
              ((StopStringMatcher.search_eq_none d.matcher.stop_ne_nil).mp hsearch)
            rw [hstop]
            exact hrest
      · rw [if_neg hcomplete]
        have hnil : delta = [] := by
          apply hquiet
          rw [htokens]
          exact hcomplete
        obtain ⟨hstop, hrest⟩ := hnext (by
          rw [hnil, List.append_nil]
          exact h.holds.clear)
        rw [hstop]
        exact hrest

/-! ## §3  Which text that is -/

/-- Of the complete texts, the one after `k` batches is the first with a stop string. -/
structure FirstWithStop (bytes : TokenId → List UInt8) (S : List Text)
    (seen : List TokenId) (batches : List (List TokenId)) (k : ℕ) : Prop where
  complete : Complete (byteDecode bytes (seen ++ (batches.take k).flatten))
  before : ∀ j < k, Complete (byteDecode bytes (seen ++ (batches.take j).flatten)) →
    ∀ i s, ¬ Hit S (byteDecode bytes (seen ++ (batches.take j).flatten)) i s

theorem firstWithStop_succ {S : List Text} {seen : List TokenId}
    {batch : List TokenId} {rest : List (List TokenId)} {k : ℕ}
    (hseen : Complete (byteDecode bytes seen) →
      ∀ i s, ¬ Hit S (byteDecode bytes seen) i s) :
    FirstWithStop bytes S seen (batch :: rest) (k + 1) ↔
      FirstWithStop bytes S (seen ++ batch) rest k := by
  have hshift : ∀ j, seen ++ ((batch :: rest).take (j + 1)).flatten =
      seen ++ batch ++ (rest.take j).flatten := by
    intro j
    rw [List.take_succ_cons, List.flatten_cons, List.append_assoc]
  constructor
  · rintro ⟨hc, hb⟩
    rw [hshift] at hc
    refine ⟨hc, fun j hj => ?_⟩
    have := hb (j + 1) (by omega)
    rwa [hshift] at this
  · rintro ⟨hc, hb⟩
    rw [← hshift] at hc
    refine ⟨hc, fun j hj => ?_⟩
    cases j with
    | zero => simpa using hseen
    | succ j =>
        have := hb j (by omega)
        rwa [← hshift] at this

theorem firstStop_eq_some {S : List Text} (hS : ∀ s ∈ S, s ≠ []) {seen : List TokenId}
    (hseen : Complete (byteDecode bytes seen) →
      ∀ i s, ¬ Hit S (byteDecode bytes seen) i s)
    {batches : List (List TokenId)} {i : ℕ} {s : Text} :
    firstStop bytes S seen batches = some (i, s) ↔
      ∃ k, FirstWithStop bytes S seen batches k ∧
        Leads S (byteDecode bytes (seen ++ (batches.take k).flatten)) i s := by
  induction batches generalizing seen with
  | nil =>
      constructor
      · intro h
        cases h
      · rintro ⟨k, hk, hl⟩
        have hc := hk.complete
        rw [List.take_nil, List.flatten_nil, List.append_nil] at hl hc
        exact absurd hl.hit (hseen hc i s)
  | cons batch rest ih =>
      -- the first text with a stop string is not the one already seen
      have hsplit : (∃ k, FirstWithStop bytes S seen (batch :: rest) k ∧ Leads S
            (byteDecode bytes (seen ++ ((batch :: rest).take k).flatten)) i s) ↔
          ∃ k, FirstWithStop bytes S (seen ++ batch) rest k ∧
            Leads S (byteDecode bytes (seen ++ batch ++ (rest.take k).flatten)) i s := by
        constructor
        · rintro ⟨k, hk, hl⟩
          cases k with
          | zero =>
              have hc := hk.complete
              rw [List.take_zero, List.flatten_nil, List.append_nil] at hl hc
              exact absurd hl.hit (hseen hc i s)
          | succ k =>
              refine ⟨k, (firstWithStop_succ hseen).mp hk, ?_⟩
              rwa [List.take_succ_cons, List.flatten_cons, ← List.append_assoc] at hl
        · rintro ⟨k, hk, hl⟩
          refine ⟨k + 1, (firstWithStop_succ hseen).mpr hk, ?_⟩
          rwa [List.take_succ_cons, List.flatten_cons, ← List.append_assoc]
      rw [firstStop, hsplit]
      by_cases hcomplete : Complete (byteDecode bytes (seen ++ batch))
      · rw [if_pos hcomplete]
        cases hsearch : StopStringMatcher.search S (byteDecode bytes (seen ++ batch)) with
        | some found =>
            have hfound := (StopStringMatcher.search_eq_some hS).mp hsearch
            constructor
            · intro h
              cases h
              refine ⟨0, ⟨?_, fun j hj => absurd hj (Nat.not_lt_zero j)⟩, ?_⟩
              · simpa using hcomplete
              · simpa using hfound
            · rintro ⟨k, hk, hl⟩
              cases k with
              | zero =>
                  rw [List.take_zero, List.flatten_nil, List.append_nil] at hl
                  obtain ⟨hi, hs⟩ := hfound.unique hl
                  rw [← hi, ← hs]
              | succ k =>
                  have hno := hk.before 0 (Nat.succ_pos k)
                  rw [List.take_zero, List.flatten_nil, List.append_nil] at hno
                  exact absurd hfound.hit (hno hcomplete _ _)
        | none =>
            exact ih fun _ => (StopStringMatcher.search_eq_none hS).mp hsearch
      · rw [if_neg hcomplete]
        exact ih fun hc => absurd hc hcomplete

end TurboServe.Runtime
