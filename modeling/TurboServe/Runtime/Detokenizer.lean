import TurboServe.Runtime.Streaming
import TurboServe.Lib.Utf8

/-!
# What the detokenizer emits of a byte-level decode

Each token stands for some bytes, and decoding is UTF-8 decoding of the bytes of all of
them. A detokenizer is *aligned* when the tokens it has read end a character of its
window; from then on what it emits is the decoding of the tokens it is given
(`Aligned.append`, `Aligned.feedAll`). A seed that ends inside a character starts it
unaligned; it becomes aligned at the first text it emits.
-/

namespace TurboServe.Runtime

open TurboServe.Core TurboServe.Lib

/-- A byte-level tokenizer's `decode`. -/
def byteDecode (bytes : TokenId → List UInt8) (tokenIds : List TokenId) : Text :=
  Utf8.decode (tokenIds.flatMap bytes)

/-- Where the decoder stands after some tokens. -/
def endState (bytes : TokenId → List UInt8) (tokenIds : List TokenId) : Utf8.State :=
  (Utf8.run .ground (tokenIds.flatMap bytes)).1

variable {bytes : TokenId → List UInt8}

theorem byteDecode_append {xs : List TokenId} (h : endState bytes xs = .ground)
    (ys : List TokenId) :
    byteDecode bytes (xs ++ ys) = byteDecode bytes xs ++ byteDecode bytes ys := by
  unfold byteDecode
  rw [List.flatMap_append]
  exact Utf8.decode_append h _

theorem endState_suffix {xs ys : List TokenId} (h : endState bytes (xs ++ ys) = .ground) :
    endState bytes ys = .ground := by
  unfold endState at *
  rw [List.flatMap_append, Utf8.run_append] at h
  exact Utf8.ground_of_suffix h

theorem endState_append {xs ys : List TokenId} (hx : endState bytes xs = .ground)
    (hy : endState bytes ys = .ground) : endState bytes (xs ++ ys) = .ground := by
  unfold endState at *
  rw [List.flatMap_append, Utf8.run_append, hx]
  exact hy

theorem endState_of_getLast? {xs : List TokenId}
    (h : (byteDecode bytes xs).getLast? ≠ some replacementChar) :
    endState bytes xs = .ground :=
  Utf8.ground_of_getLast? h

namespace IncrementalDetokenizer

/-- The tokens whose text has not been emitted. -/
def pending (d : IncrementalDetokenizer) : List TokenId := d.tokens.drop d.readOffset

/-- The window starts no later than what has been read ends. -/
structure Ordered (d : IncrementalDetokenizer) : Prop where
  prefix_le : d.prefixOffset ≤ d.readOffset
  read_le : d.readOffset ≤ d.tokens.length

theorem Ordered.window_eq {d : IncrementalDetokenizer} (h : d.Ordered) :
    d.window = d.readWindow ++ d.pending := by
  unfold window readWindow pending
  have hle : d.prefixOffset ≤ (d.tokens.take d.readOffset).length := by
    rw [List.length_take]
    exact le_min h.prefix_le (h.prefix_le.trans h.read_le)
  conv_lhs => rw [← List.take_append_drop d.readOffset d.tokens]
  exact List.drop_append_of_le_length hle

/-- The detokenizer with more tokens in its list. -/
def extend (d : IncrementalDetokenizer) (tokenIds : List TokenId) :
    IncrementalDetokenizer :=
  { d with tokens := d.tokens ++ tokenIds }

theorem Ordered.extend {d : IncrementalDetokenizer} (h : d.Ordered)
    (tokenIds : List TokenId) : (d.extend tokenIds).Ordered where
  prefix_le := h.prefix_le
  read_le := by
    show d.readOffset ≤ (d.tokens ++ tokenIds).length
    rw [List.length_append]
    exact h.read_le.trans (Nat.le_add_right _ _)

theorem Ordered.readWindow_extend {d : IncrementalDetokenizer} (h : d.Ordered)
    (tokenIds : List TokenId) : (d.extend tokenIds).readWindow = d.readWindow := by
  show ((d.tokens ++ tokenIds).take d.readOffset).drop d.prefixOffset = d.readWindow
  rw [List.take_append_of_le_length h.read_le]
  rfl

theorem Ordered.pending_extend {d : IncrementalDetokenizer} (h : d.Ordered)
    (tokenIds : List TokenId) :
    (d.extend tokenIds).pending = d.pending ++ tokenIds :=
  List.drop_append_of_le_length h.read_le

/-! ## §1  The branches of `append` -/

theorem append_nil (decode : List TokenId → Text) (d : IncrementalDetokenizer) :
    d.append decode [] = ([], d) := by
  rw [append, if_pos rfl]

theorem append_held {decode : List TokenId → Text} {d : IncrementalDetokenizer}
    {tokenIds : List TokenId} (hne : tokenIds ≠ [])
    (h : (decode (d.extend tokenIds).window).getLast? = some replacementChar) :
    d.append decode tokenIds = ([], d.extend tokenIds) := by
  rw [append, if_neg hne]
  exact if_pos h

theorem append_stable {decode : List TokenId → Text} {d : IncrementalDetokenizer}
    {tokenIds : List TokenId} (hne : tokenIds ≠ [])
    (h : (decode (d.extend tokenIds).window).getLast? ≠ some replacementChar)
    {delta : Text} (hdelta : decode (d.extend tokenIds).window =
      decode (d.extend tokenIds).readWindow ++ delta) :
    d.append decode tokenIds = (delta, (d.extend tokenIds).advance delta) := by
  rw [append, if_neg hne]
  refine (if_neg h).trans ?_
  have hpre : decode (d.extend tokenIds).readWindow <+:
      decode (d.extend tokenIds).window := ⟨delta, hdelta.symm⟩
  have hdrop : (decode (d.extend tokenIds).window).drop
      (decode (d.extend tokenIds).readWindow).length = delta := by
    rw [hdelta, List.drop_left]
  unfold extend at hpre hdrop ⊢
  rw [if_pos hpre, hdrop]

theorem flush_stable {decode : List TokenId → Text} {d : IncrementalDetokenizer}
    (hlt : d.readOffset < d.tokens.length) {delta : Text}
    (hdelta : decode d.window = decode d.readWindow ++ delta) :
    (d.flush decode).1 = delta := by
  rw [flush, if_neg (by omega)]
  have hpre : decode d.readWindow <+: decode d.window := ⟨delta, hdelta.symm⟩
  simp only [if_pos hpre]
  rw [hdelta, List.drop_left]

/-! ## §2  An aligned detokenizer -/

/-- What has been read of the window ends a character. -/
structure Aligned (bytes : TokenId → List UInt8) (d : IncrementalDetokenizer) : Prop
    extends Ordered d where
  ground : endState bytes d.readWindow = .ground

theorem Aligned.decode_window {d : IncrementalDetokenizer} (h : d.Aligned bytes) :
    byteDecode bytes d.window =
      byteDecode bytes d.readWindow ++ byteDecode bytes d.pending := by
  rw [h.window_eq]
  exact byteDecode_append h.ground _

theorem Aligned.extend {d : IncrementalDetokenizer} (h : d.Aligned bytes)
    (tokenIds : List TokenId) : (d.extend tokenIds).Aligned bytes where
  toOrdered := h.toOrdered.extend tokenIds
  ground := by
    rw [h.readWindow_extend]
    exact h.ground

/-- After text was emitted nothing is pending. -/
theorem pending_advance (d : IncrementalDetokenizer) (delta : Text) :
    (d.advance delta).pending = [] :=
  List.drop_length

/-- Emitting text aligns the detokenizer, wherever its window began. -/
theorem Ordered.advance {d : IncrementalDetokenizer} (h : d.Ordered)
    (hlast : (byteDecode bytes d.window).getLast? ≠ some replacementChar)
    (delta : Text) : (d.advance delta).Aligned bytes := by
  have hle : d.prefixOffset ≤ (d.advance delta).prefixOffset ∧
      (d.advance delta).prefixOffset ≤ d.tokens.length := by
    have h₁ := h.prefix_le
    have h₂ := h.read_le
    simp only [IncrementalDetokenizer.advance]
    split <;> omega
  refine ⟨⟨hle.2, le_rfl⟩, ?_⟩
  have hread : (d.advance delta).readWindow =
      d.tokens.drop (d.advance delta).prefixOffset := by
    show (d.tokens.take d.tokens.length).drop _ = _
    rw [List.take_length]
  -- the new window is a suffix of the old one, which ends a character
  have hsplit : d.window = (d.window.take
      ((d.advance delta).prefixOffset - d.prefixOffset)) ++
        (d.advance delta).readWindow := by
    rw [hread]
    conv_lhs => rw [← List.take_append_drop
      ((d.advance delta).prefixOffset - d.prefixOffset) d.window]
    congr 1
    unfold window
    rw [List.drop_drop, Nat.add_sub_cancel' hle.1]
  have hground := endState_of_getLast? hlast
  rw [hsplit] at hground
  exact endState_suffix hground

/-- **One batch.** An aligned detokenizer stays aligned, and what it emits comes off the
text of what is pending and what follows. -/
theorem Aligned.append {d : IncrementalDetokenizer} (h : d.Aligned bytes)
    (tokenIds : List TokenId) :
    (d.append (byteDecode bytes) tokenIds).2.Aligned bytes ∧
      ∀ rest : List TokenId, (d.append (byteDecode bytes) tokenIds).1 ++
          byteDecode bytes ((d.append (byteDecode bytes) tokenIds).2.pending ++ rest) =
        byteDecode bytes (d.pending ++ (tokenIds ++ rest)) := by
  by_cases hne : tokenIds = []
  · subst hne
    rw [append_nil]
    exact ⟨h, fun rest => rfl⟩
  · have hext := h.extend tokenIds
    by_cases hlast : (byteDecode bytes (d.extend tokenIds).window).getLast? =
        some replacementChar
    · rw [append_held hne hlast]
      refine ⟨hext, fun rest => ?_⟩
      rw [h.pending_extend, List.append_assoc]
      rfl
    · rw [append_stable hne hlast hext.decode_window]
      refine ⟨hext.toOrdered.advance hlast _, fun rest => ?_⟩
      -- what was pending and the batch end a character
      have hground := endState_of_getLast? hlast
      rw [hext.window_eq] at hground
      have hcut := byteDecode_append (endState_suffix hground) rest
      rw [h.pending_extend, List.append_assoc] at hcut
      rw [pending_advance, List.nil_append, h.pending_extend]
      exact hcut.symm

theorem Aligned.flush {d : IncrementalDetokenizer} (h : d.Aligned bytes) :
    (d.flush (byteDecode bytes)).1 = byteDecode bytes d.pending := by
  by_cases hlt : d.readOffset < d.tokens.length
  · exact flush_stable hlt h.decode_window
  · have hnil : d.pending = [] := List.drop_eq_nil_of_le (not_lt.mp hlt)
    rw [IncrementalDetokenizer.flush, if_pos (not_lt.mp hlt), hnil]
    rfl

/-- **Any batches.** Deltas and flush are the text of what was pending and appended. -/
theorem Aligned.feedAll {d : IncrementalDetokenizer} (h : d.Aligned bytes)
    (batches : List (List TokenId)) :
    d.feedAll (byteDecode bytes) batches =
      byteDecode bytes (d.pending ++ batches.flatten) := by
  induction batches generalizing d with
  | nil =>
      rw [IncrementalDetokenizer.feedAll, h.flush, List.flatten_nil, List.append_nil]
  | cons batch rest ih =>
      obtain ⟨hnext, htext⟩ := h.append batch
      rw [IncrementalDetokenizer.feedAll, ih hnext, htext, List.flatten_cons]

/-! ## §3  A seed -/

theorem ordered_create (seed : List TokenId) : (create seed).Ordered :=
  ⟨Nat.sub_le _ _, le_rfl⟩

theorem readWindow_create (seed : List TokenId) :
    (create seed).readWindow = seed.drop (seed.length - windowTokens) := by
  show (seed.take seed.length).drop (seed.length - windowTokens) = _
  rw [List.take_length]

theorem pending_create (seed : List TokenId) : (create seed).pending = [] :=
  List.drop_length

theorem aligned_create {seed : List TokenId}
    (h : endState bytes (seed.drop (seed.length - windowTokens)) = .ground) :
    (create seed).Aligned bytes where
  toOrdered := ordered_create seed
  ground := by
    rw [readWindow_create]
    exact h

end IncrementalDetokenizer

end TurboServe.Runtime
