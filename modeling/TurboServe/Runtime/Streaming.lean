import TurboServe.Core.Types
import TurboServe.Lib.Occurrence

/-!
# Incremental detokenization and stop strings

`engine/runtime/streaming.py`. The tokenizer is outside the repository: what the
detokenizer needs of it is its `decode`, a parameter here. A detokenizer turns a
growing list of tokens into a growing text by decoding a window of the last few; a
matcher withholds the shortest suffix that could still grow into a stop string; the
two are combined by `StreamingDecoder`.
-/

namespace TurboServe.Runtime

open TurboServe.Core TurboServe.Lib

abbrev Text : Type := List Char

/-- `REPLACEMENT_CHAR` -/
def replacementChar : Char := '\uFFFD'

/-- Tokens kept in the re-decoded window. -/
def windowTokens : ℕ := 8

/-- What one batch of new tokens produced for the client. -/
structure DecodedDelta where
  text : Text
  stop : Option Text
  held : Text
deriving DecidableEq, Repr

/-- Whether a stop string fired on this batch. -/
def DecodedDelta.stopped (d : DecodedDelta) : Bool := d.stop.isSome

/-! ## §1  The detokenizer -/

structure IncrementalDetokenizer where
  tokens : List TokenId
  prefixOffset : ℕ
  readOffset : ℕ
  text : Text
deriving DecidableEq, Repr

namespace IncrementalDetokenizer

/-- `__init__`: the seed tokens fill the window without being emitted. -/
def create (initialTokenIds : List TokenId) : IncrementalDetokenizer where
  tokens := initialTokenIds
  prefixOffset := initialTokenIds.length - windowTokens
  readOffset := initialTokenIds.length
  text := []

/-- `tokens[prefix_offset : read_offset]` -/
def readWindow (d : IncrementalDetokenizer) : List TokenId :=
  (d.tokens.take d.readOffset).drop d.prefixOffset

/-- `tokens[prefix_offset :]` -/
def window (d : IncrementalDetokenizer) : List TokenId :=
  d.tokens.drop d.prefixOffset

/-- The offsets after text was emitted: the window moves up to what has been read and
is never longer than `_WINDOW_TOKENS`. -/
def advance (d : IncrementalDetokenizer) (delta : Text) : IncrementalDetokenizer where
  tokens := d.tokens
  prefixOffset :=
    if d.tokens.length - d.readOffset > windowTokens then
      d.tokens.length - windowTokens
    else d.readOffset
  readOffset := d.tokens.length
  text := d.text ++ delta

/-- Feed tokens; the text that became safe to emit. -/
def append (decode : List TokenId → Text) (d : IncrementalDetokenizer)
    (tokenIds : List TokenId) : Text × IncrementalDetokenizer :=
  if tokenIds = [] then ([], d)
  else
    let d := { d with tokens := d.tokens ++ tokenIds }
    let prefixText := decode d.readWindow
    let windowText := decode d.window
    if windowText.getLast? = some replacementChar then ([], d)
    else
      let delta :=
        if prefixText <+: windowText then windowText.drop prefixText.length
        else
          -- not prefix-stable: decode everything, diff against what was emitted
          let full := decode d.tokens
          if d.text <+: full then full.drop d.text.length else full
      (delta, d.advance delta)

/-- Emit whatever remains, even if it ends in an incomplete character. -/
def flush (decode : List TokenId → Text) (d : IncrementalDetokenizer) :
    Text × IncrementalDetokenizer :=
  if d.tokens.length ≤ d.readOffset then ([], d)
  else
    let windowText := decode d.window
    let prefixText := decode d.readWindow
    let delta :=
      if prefixText <+: windowText then windowText.drop prefixText.length else []
    (delta, { d with
      prefixOffset := d.readOffset
      readOffset := d.tokens.length
      text := d.text ++ delta })

/-- Tokens handed over batch by batch: all returned deltas, then the flush. -/
def feedAll (decode : List TokenId → Text) (d : IncrementalDetokenizer) :
    List (List TokenId) → Text
  | [] => (d.flush decode).1
  | batch :: rest =>
      (d.append decode batch).1 ++ (d.append decode batch).2.feedAll decode rest

end IncrementalDetokenizer

/-! ## §2  The stop-string matcher -/

structure StopStringMatcher where
  stop : List Text
  buffer : Text
  /-- `tuple(s for s in stop if s)` -/
  stop_ne_nil : ∀ s ∈ stop, s ≠ []

namespace StopStringMatcher

def create (stop : List Text) : StopStringMatcher where
  stop := stop.filter (· ≠ [])
  buffer := []
  stop_ne_nil := fun s hs => by simpa using (List.mem_filter.mp hs).2

def maxLen (m : StopStringMatcher) : ℕ := (m.stop.map List.length).foldr max 0

/-- Whether any stop string is configured. -/
def isActive (m : StopStringMatcher) : Bool := !m.stop.isEmpty

/-- One candidate of the search over the buffer: a strictly earlier match wins. -/
def consider (buffer : Text) (best : Option (ℕ × Text)) (candidate : Text) :
    Option (ℕ × Text) :=
  match strFind buffer candidate with
  | none => best
  | some index =>
      match best with
      | none => some (index, candidate)
      | some (earliest, matched) =>
          if index < earliest then some (index, candidate)
          else some (earliest, matched)

/-- The earliest complete match in the buffer. -/
def search (stop : List Text) (buffer : Text) : Option (ℕ × Text) :=
  stop.foldl (consider buffer) none

/-- Length of the longest buffer suffix that is a proper prefix of a stop string. -/
def partialSuffixLen (m : StopStringMatcher) : ℕ :=
  let limit := min m.buffer.length (m.maxLen - 1)
  let lengths := (List.range' 1 limit).reverse
  (lengths.find? fun length =>
    m.stop.any fun candidate =>
      decide (m.buffer.drop (m.buffer.length - length) <+: candidate)).getD 0

/-- Add text and return what may be emitted now. -/
def feed (m : StopStringMatcher) (text : Text) : DecodedDelta × StopStringMatcher :=
  if m.stop = [] then (⟨text, none, []⟩, m)
  else
    let m := { m with buffer := m.buffer ++ text }
    match search m.stop m.buffer with
    | some (earliest, matched) =>
        (⟨m.buffer.take earliest, some matched, []⟩, { m with buffer := [] })
    | none =>
        let keep := m.partialSuffixLen
        let emit := m.buffer.take (m.buffer.length - keep)
        let held := m.buffer.drop (m.buffer.length - keep)
        (⟨emit, none, held⟩, { m with buffer := held })

/-- Release the buffer unconditionally. -/
def flush (m : StopStringMatcher) : Text × StopStringMatcher :=
  (m.buffer, { m with buffer := [] })

/-- A text handed to the matcher chunk by chunk: what was emitted, the buffer flushed
at the end, and the stop string that ended it. -/
def feedAll (m : StopStringMatcher) : List Text → Text × Option Text
  | [] => (m.flush.1, none)
  | text :: rest =>
      match (m.feed text).1.stop with
      | some s => ((m.feed text).1.text, some s)
      | none =>
          let r := (m.feed text).2.feedAll rest
          ((m.feed text).1.text ++ r.1, r.2)

end StopStringMatcher

/-! ## §3  Both together -/

structure StreamingDecoder where
  detokenizer : IncrementalDetokenizer
  matcher : StopStringMatcher
  text : Text

namespace StreamingDecoder

def create (stop : List Text) (initialTokenIds : List TokenId) : StreamingDecoder where
  detokenizer := .create initialTokenIds
  matcher := .create stop
  text := []

/-- Detokenize new tokens and apply stop-string matching. -/
def feed (decode : List TokenId → Text) (d : StreamingDecoder)
    (tokenIds : List TokenId) : DecodedDelta × StreamingDecoder :=
  let appended := d.detokenizer.append decode tokenIds
  let delta := d.matcher.feed appended.1
  (delta.1, ⟨appended.2, delta.2, d.text ++ delta.1.text⟩)

/-- Flush both stages: the request ended for a reason other than a stop string. -/
def finish (decode : List TokenId → Text) (d : StreamingDecoder) :
    Text × StreamingDecoder :=
  let tail := d.detokenizer.flush decode
  let held := d.matcher.flush
  let pending := if d.matcher.isActive then held.1 ++ tail.1 else tail.1
  (pending, ⟨tail.2, if d.matcher.isActive then held.2 else d.matcher, d.text ++ pending⟩)

/-- A request's tokens fed batch by batch: the text the client got, with `finish` when
no stop string fired, and the stop string that did. -/
def feedAll (decode : List TokenId → Text) (d : StreamingDecoder) :
    List (List TokenId) → Text × Option Text
  | [] => ((d.finish decode).2.text, none)
  | batch :: rest =>
      match (d.feed decode batch).1.stop with
      | some s => ((d.feed decode batch).2.text, some s)
      | none => (d.feed decode batch).2.feedAll decode rest

end StreamingDecoder

end TurboServe.Runtime
