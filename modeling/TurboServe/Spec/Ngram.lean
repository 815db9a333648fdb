import TurboServe.Core.Sequence

/-!
# Prompt-lookup drafting

`find_ngram_continuation` of `engine/spec/ngram.py`: the tail of a sequence is looked up in the
sequence itself, longest tail first, and what followed its latest earlier occurrence is
proposed.
-/

namespace TurboServe.Spec

open TurboServe.Core

/-- The offsets at which the tail of length `size` recurs, as marks over the candidate starts:
one shifted comparison for each token of the tail. -/
def tailMatches (ids : List TokenId) (size : ℕ) : List Bool :=
  let span := ids.length - size
  let tail := ids.drop (ids.length - size)
  (List.range size).foldl
    (fun marks offset => List.zipWith (· && ·) marks
      (((ids.drop offset).take span).map fun id => some id == tail[offset]?))
    (List.replicate span true)

/-- The positions of the marks that are set, ascending. -/
def nonzero (marks : List Bool) : List ℕ :=
  (List.range marks.length).filter fun i => marks.getD i false

/-- The loop over the sizes, from `size` down to `minNgram`. -/
def ngramLoop (ids : List TokenId) (minNgram numTokens : ℕ) : ℕ → List TokenId
  | 0 => []
  | size + 1 =>
      if size + 1 < minNgram then []
      else if ids.length ≤ size + 1 then ngramLoop ids minNgram numTokens size
      else
        match (nonzero (tailMatches ids (size + 1))).getLast? with
        | none => ngramLoop ids minNgram numTokens size
        | some p => (ids.drop (p + (size + 1))).take numTokens

/-- `find_ngram_continuation` -/
def findNgramContinuation (tokens : List TokenId) (numTokens minNgram maxNgram : ℤ) :
    List TokenId :=
  if numTokens ≤ 0 ∨ minNgram < 1 ∨ maxNgram < minNgram then []
  else
    ngramLoop tokens minNgram.toNat numTokens.toNat
      (min maxNgram ((tokens.length : ℤ) - 1)).toNat

end TurboServe.Spec
