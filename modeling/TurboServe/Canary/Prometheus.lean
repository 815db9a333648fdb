import Mathlib.Data.Char
import Mathlib.Data.List.Lex
import Mathlib.Data.Prod.Lex

/-!
# Label selectors

`canary/prometheus.py`: how label values are escaped and selectors are rendered. A string is
the list of its characters, and a label map the list of its items.
-/

namespace TurboServe.Canary

/-! ## §1  Label maps -/

/-- A character of a label name. -/
def isNameChar (c : Char) : Bool := c.isAlphanum || c == '_'

/-- An identifier: letters, digits and underscores, and no digit in front. -/
def ValidName (name : List Char) : Prop :=
  name ≠ [] ∧ (∀ c ∈ name, isNameChar c = true) ∧ ∀ c ∈ name.head?, c.isDigit = false

/-- A label map: no name twice, and only valid ones. -/
structure LabelMap where
  items : List (List Char × List Char)
  nodup : (items.map Prod.fst).Nodup
  valid : ∀ x ∈ items, ValidName x.1

/-- `sorted(labels.items())` -/
def LabelMap.sorted (labels : LabelMap) : List (List Char × List Char) :=
  labels.items.mergeSort fun a b => decide (toLex a ≤ toLex b)

/-! ## §2  Rendering -/

/-- `str.replace` of one character. -/
def replace (c : Char) (new : List Char) (text : List Char) : List Char :=
  text.flatMap fun d => if d = c then new else [d]

/-- Escape a label value: backslash, double quote, newline. -/
def escapeLabelValue (value : List Char) : List Char :=
  replace '\n' ['\\', 'n'] (replace '"' ['\\', '"'] (replace '\\' ['\\', '\\'] value))

/-- How a label is matched. -/
inductive MatchOp : Type where
  | equal
  | regex
deriving DecidableEq

def MatchOp.text : MatchOp → List Char
  | .equal => ['=']
  | .regex => ['=', '~']

def renderLabel (op : MatchOp) (label : List Char × List Char) : List Char :=
  label.1 ++ op.text ++ '"' :: escapeLabelValue label.2 ++ ['"']

/-- Labels are rendered in order, so that equal selectors are one string. -/
def formatSelector (labels regex : LabelMap) : List Char :=
  let parts := labels.sorted.map (renderLabel .equal) ++ regex.sorted.map (renderLabel .regex)
  if parts = [] then [] else '{' :: [','].intercalate parts ++ ['}']

/-! ## §3  Reading a selector back -/

/-- A label matcher. -/
structure Matcher where
  name : List Char
  op : MatchOp
  value : List Char
deriving DecidableEq

/-- The character a backslash and `c` stand for. -/
def unescape (c : Char) : Option Char :=
  if c = 'n' then some '\n' else if c = '\\' ∨ c = '"' then some c else none

/-- The value of a literal behind its opening quote, and what follows the closing one. A raw
newline is illegal. -/
def readLiteral : List Char → Option (List Char × List Char)
  | [] => none
  | '"' :: rest => some ([], rest)
  | '\n' :: _ => none
  | ['\\'] => none
  | '\\' :: c :: rest =>
      match unescape c, readLiteral rest with
      | some d, some (value, rest) => some (d :: value, rest)
      | _, _ => none
  | c :: rest =>
      match readLiteral rest with
      | some (value, rest) => some (c :: value, rest)
      | none => none

/-- An operator and the quote behind it. -/
def readOp : List Char → Option (MatchOp × List Char)
  | '=' :: '~' :: '"' :: rest => some (.regex, rest)
  | '=' :: '"' :: rest => some (.equal, rest)
  | _ => none

/-- A matcher, and what follows it. -/
def readMatcher (text : List Char) : Option (Matcher × List Char) :=
  let name := text.takeWhile isNameChar
  if name = [] then none
  else
    match readOp (text.dropWhile isNameChar) with
    | none => none
    | some (op, rest) => (readLiteral rest).map fun x => (⟨name, op, x.1⟩, x.2)

/-- Matchers with commas between them, up to the brace that ends the text. -/
def readMatchers : ℕ → List Char → Option (List Matcher)
  | 0, _ => none
  | n + 1, text =>
      match readMatcher text with
      | some (m, ['}']) => some [m]
      | some (m, ',' :: rest) => (readMatchers n rest).map (m :: ·)
      | _ => none

def readSelector : List Char → Option (List Matcher)
  | [] => some []
  | '{' :: rest => readMatchers rest.length rest
  | _ => none

/-- The matchers a label map stands for, in the order of the rendering. -/
def LabelMap.matchers (op : MatchOp) (labels : LabelMap) : List Matcher :=
  labels.sorted.map fun x => ⟨x.1, op, x.2⟩

end TurboServe.Canary
