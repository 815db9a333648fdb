import TurboServe.Runtime.Detokenizer

/-!
# When incremental detokenization is lossless

A detokenizer's window holds the last tokens of its seed, and what it emits is what the
appended tokens add to the text of the window. That is what they add to the seed's own
text when the window ends a character. A seed that ends inside one has a replacement
character for a last one; completing the character rewrites it, the window is then
not prefix-stable, and the fallback emits the text of the seed.
-/

namespace TurboServe.Runtime

open TurboServe.Core TurboServe.Lib IncrementalDetokenizer

variable {bytes : TokenId → List UInt8}

/-- The tokens of the seed the window starts with. -/
def seedWindow (seed : List TokenId) : List TokenId :=
  seed.drop (seed.length - windowTokens)

/-- Everything emitted for the batches, behind the seed's text, is the text of seed and
batches. -/
def Lossless (bytes : TokenId → List UInt8) (seed : List TokenId)
    (batches : List (List TokenId)) : Prop :=
  byteDecode bytes seed ++
      (IncrementalDetokenizer.create seed).feedAll (byteDecode bytes) batches =
    byteDecode bytes (seed ++ batches.flatten)

/-- The appended tokens add to the seed's text what they add to the window's. -/
def AddsSameText (bytes : TokenId → List UInt8) (seed appended : List TokenId) : Prop :=
  ∃ added : Text,
    byteDecode bytes (seed ++ appended) = byteDecode bytes seed ++ added ∧
      byteDecode bytes (seedWindow seed ++ appended) =
        byteDecode bytes (seedWindow seed) ++ added

/-! ## §1  A seed that ends inside a character -/

/-- The text of tokens read from the decoder state `q`. -/
def textFrom (bytes : TokenId → List UInt8) (q : Utf8.State) (tokenIds : List TokenId) :
    Text :=
  Utf8.text q (tokenIds.flatMap bytes)

theorem byteDecode_textFrom (xs ys : List TokenId) :
    byteDecode bytes (xs ++ ys) =
      (Utf8.run .ground (xs.flatMap bytes)).2 ++ textFrom bytes (endState bytes xs) ys := by
  unfold byteDecode Utf8.decode textFrom endState
  rw [List.flatMap_append, Utf8.text_append]

theorem textFrom_nil {q : Utf8.State} (hq : q ≠ .ground) :
    textFrom bytes q [] = [replacementChar] := by
  cases q with
  | ground => exact absurd rfl hq
  | inside p => rfl

theorem byteDecode_of_inside {xs : List TokenId} (h : endState bytes xs ≠ .ground) :
    byteDecode bytes xs =
      (Utf8.run .ground (xs.flatMap bytes)).2 ++ [replacementChar] := by
  have : byteDecode bytes (xs ++ []) = _ := byteDecode_textFrom xs []
  rwa [List.append_nil, textFrom_nil h] at this

/-- Past a point where text may be emitted, the text of `xs` is complete. -/
theorem textFrom_append {q : Utf8.State} {xs : List TokenId}
    (h : (textFrom bytes q xs).getLast? ≠ some replacementChar) (ys : List TokenId) :
    textFrom bytes q (xs ++ ys) = textFrom bytes q xs ++ byteDecode bytes ys := by
  have hground : (Utf8.run q (xs.flatMap bytes)).1 = .ground := Utf8.ground_of_getLast? h
  unfold textFrom byteDecode Utf8.decode
  rw [List.flatMap_append, Utf8.text_append, hground]
  congr 1
  rw [Utf8.text, hground]
  exact (List.append_nil _).symm

/-- The window's text, when what was read of it ends inside a character. -/
theorem decode_window_inside {d : IncrementalDetokenizer} (h : d.Ordered)
    (hq : endState bytes d.readWindow ≠ .ground) {added : Text}
    (hadded : textFrom bytes (endState bytes d.readWindow) d.pending =
      replacementChar :: added) :
    byteDecode bytes d.window = byteDecode bytes d.readWindow ++ added := by
  rw [h.window_eq, byteDecode_textFrom, hadded, byteDecode_of_inside hq,
    List.append_assoc]
  rfl

/-- From inside a character, what is emitted is the text that follows the replacement
character the window ends with, if the completed text still has one there. -/
theorem feedAll_inside {d : IncrementalDetokenizer} (h : d.Ordered)
    (hq : endState bytes d.readWindow ≠ .ground) (batches : List (List TokenId))
    (hhead : (textFrom bytes (endState bytes d.readWindow)
      (d.pending ++ batches.flatten)).head? = some replacementChar) :
    replacementChar :: d.feedAll (byteDecode bytes) batches =
      textFrom bytes (endState bytes d.readWindow) (d.pending ++ batches.flatten) := by
  induction batches generalizing d with
  | nil =>
      rw [List.flatten_nil, List.append_nil] at hhead ⊢
      rw [IncrementalDetokenizer.feedAll]
      by_cases hlt : d.readOffset < d.tokens.length
      · obtain ⟨added, hadded⟩ := List.head?_eq_some_iff.mp hhead
        rw [flush_stable hlt (decode_window_inside h hq hadded), hadded]
      · have hnil : d.pending = [] := List.drop_eq_nil_of_le (not_lt.mp hlt)
        rw [IncrementalDetokenizer.flush, if_pos (not_lt.mp hlt), hnil, textFrom_nil hq]
  | cons batch rest ih =>
      rw [IncrementalDetokenizer.feedAll]
      rw [List.flatten_cons, ← List.append_assoc] at hhead ⊢
      by_cases hne : batch = []
      · subst hne
        rw [append_nil]
        rw [List.append_nil] at hhead ⊢
        exact ih h hq hhead
      · have hext := h.extend batch
        have hwindow : endState bytes (d.extend batch).readWindow =
            endState bytes d.readWindow := by rw [h.readWindow_extend]
        rw [← hwindow] at hq hhead ⊢
        rw [← h.pending_extend] at hhead ⊢
        by_cases hlast : (byteDecode bytes (d.extend batch).window).getLast? =
            some replacementChar
        · rw [append_held hne hlast]
          exact ih hext hq hhead
        · -- text is emitted: from here on the detokenizer is aligned
          set q := endState bytes (d.extend batch).readWindow with hqdef
          have hnonempty : textFrom bytes q (d.extend batch).pending ≠ [] :=
            fun hnil => hq (Utf8.text_eq_nil hnil).1
          have hend : (textFrom bytes q (d.extend batch).pending).getLast? ≠
              some replacementChar := by
            intro hbad
            apply hlast
            rw [hext.window_eq, byteDecode_textFrom, ← hqdef,
              List.getLast?_append_of_ne_nil _ hnonempty, hbad]
          have hwhole := textFrom_append hend rest.flatten
          rw [hwhole, List.head?_append_of_ne_nil _ hnonempty] at hhead
          obtain ⟨added, hadded⟩ := List.head?_eq_some_iff.mp hhead
          have hdelta := decode_window_inside hext hq hadded
          rw [append_stable hne hlast hdelta]
          have hnext := hext.advance hlast added
          show replacementChar :: (added ++ _) = _
          rw [hnext.feedAll, pending_advance, List.nil_append, hwhole, hadded]
          rfl

/-! ## §2  When nothing is lost -/

theorem lossless_aligned {seed : List TokenId}
    (h : endState bytes (seedWindow seed) = .ground) (batches : List (List TokenId)) :
    Lossless bytes seed batches ↔ AddsSameText bytes seed batches.flatten := by
  have hout := (aligned_create h).feedAll batches
  rw [pending_create, List.nil_append] at hout
  unfold Lossless AddsSameText
  rw [hout, byteDecode_append h]
  constructor
  · intro hsame
    exact ⟨_, hsame.symm, rfl⟩
  · rintro ⟨added, hseed, hwindow⟩
    rw [hseed, List.append_cancel_left hwindow]

theorem lossless_inside {seed : List TokenId}
    (h : endState bytes (seedWindow seed) ≠ .ground) (batches : List (List TokenId)) :
    Lossless bytes seed batches ↔ AddsSameText bytes seed batches.flatten := by
  -- the whole seed ends in the same state as its last tokens
  have hsplit : seed = seed.take (seed.length - windowTokens) ++ seedWindow seed :=
    (List.take_append_drop _ _).symm
  have hstate : endState bytes seed = endState bytes (seedWindow seed) := by
    conv_lhs => rw [hsplit]
    unfold endState
    rw [List.flatMap_append, Utf8.run_append]
    exact Utf8.run_eq_of_inside _ h
  have hseed : endState bytes seed ≠ .ground := by rwa [hstate]
  have hread : endState bytes (IncrementalDetokenizer.create seed).readWindow =
      endState bytes (seedWindow seed) := by
    rw [readWindow_create]
    rfl
  have hfeed := feedAll_inside (ordered_create seed) (by rwa [hread]) batches
  rw [hread, pending_create, List.nil_append] at hfeed
  unfold Lossless AddsSameText
  rw [byteDecode_textFrom seed, byteDecode_of_inside hseed, byteDecode_textFrom
    (seedWindow seed), byteDecode_of_inside h, hstate, List.append_assoc]
  constructor
  · intro hsame
    have htext := List.append_cancel_left hsame
    refine ⟨(IncrementalDetokenizer.create seed).feedAll (byteDecode bytes) batches,
      ?_, ?_⟩
    · rw [List.append_assoc, ← htext]
    · rw [List.append_assoc, ← htext]
  · rintro ⟨added, hadded, -⟩
    rw [List.append_assoc] at hadded
    have htext := List.append_cancel_left hadded
    rw [← hfeed (by rw [htext]; rfl)]
    rfl

/-- **When incremental detokenization is lossless.** For every seed and every split of
the appended tokens, the emitted text is what follows the seed's text exactly when the
appended tokens add the same text to the seed as to its last tokens. -/
theorem lossless_iff (bytes : TokenId → List UInt8) (seed : List TokenId)
    (batches : List (List TokenId)) :
    Lossless bytes seed batches ↔ AddsSameText bytes seed batches.flatten := by
  by_cases h : endState bytes (seedWindow seed) = .ground
  · exact lossless_aligned h batches
  · exact lossless_inside h batches

/-- A token for each byte. -/
def byteToken (t : TokenId) : List UInt8 := [UInt8.ofNat t.toNat]

/-- A seed `hi` and the first byte of `€`; the two bytes that complete it bring out
`hi€`, the seed's text again. -/
theorem lossless_seed_inside :
    ¬ ∀ (bytes : TokenId → List UInt8) (seed : List TokenId)
      (batches : List (List TokenId)), Lossless bytes seed batches := by
  intro h
  have := h byteToken [0x68, 0x69, 0xE2] [[0x82, 0xAC]]
  revert this
  unfold Lossless
  decide +kernel

/-- Seeds that end a character, the empty one among them, lose nothing. -/
theorem lossless_of_boundary {seed : List TokenId}
    (h : endState bytes seed = .ground) (batches : List (List TokenId)) :
    Lossless bytes seed batches := by
  have hwindow : endState bytes (seedWindow seed) = .ground := by
    rw [← List.take_append_drop (seed.length - windowTokens) seed] at h
    exact endState_suffix h
  refine (lossless_iff bytes seed batches).mpr ⟨byteDecode bytes batches.flatten, ?_, ?_⟩
  · exact byteDecode_append h _
  · exact byteDecode_append hwindow _

end TurboServe.Runtime
