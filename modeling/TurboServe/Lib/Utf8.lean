import Mathlib

/-!
# UTF-8 decoding with replacement characters

A decoder that turns any bytes into text: a maximal prefix of a well-formed sequence
that is not continued becomes one U+FFFD, and so does a byte that begins nothing. It
is a machine that reads a byte at a time (`step`) and is either between characters
(`ground`) or inside one (`inside`); bytes that end inside a character get a final
U+FFFD.

The machine resynchronises: two runs over the same bytes, one of them from `ground`,
either are in the same state at the end or have read nothing but continuation bytes
of the other's character, and are at `ground` themselves.
-/

namespace TurboServe.Lib.Utf8

/-- U+FFFD, the replacement character. -/
def replacement : Char := '\uFFFD'

/-- The rest of a character: how many bytes are missing, the bounds of the next one,
and the bits read so far. The bounds lie within those of a continuation byte. -/
structure Pending where
  missing : ℕ
  lo : ℕ
  hi : ℕ
  bits : ℕ
  lo_ge : 0x80 ≤ lo
  hi_le : hi ≤ 0xBF
deriving DecidableEq

inductive State where
  | ground
  | inside (p : Pending)
deriving DecidableEq

/-- A character of `n + 1` bytes whose further bytes are unrestricted. -/
def State.need (n bits : ℕ) : State :=
  .inside ⟨n, 0x80, 0xBF, bits, le_rfl, le_rfl⟩

/-- The first byte of a character, read between characters. -/
def first (b : ℕ) : State × List Char :=
  if b ≤ 0x7F then (.ground, [Char.ofNat b])
  else if 0xC2 ≤ b ∧ b ≤ 0xDF then (.need 1 (b - 0xC0), [])
  else if b = 0xE0 then (.inside ⟨2, 0xA0, 0xBF, 0, by decide, by decide⟩, [])
  else if b = 0xED then (.inside ⟨2, 0x80, 0x9F, 0xD, by decide, by decide⟩, [])
  else if 0xE1 ≤ b ∧ b ≤ 0xEF then (.need 2 (b - 0xE0), [])
  else if b = 0xF0 then (.inside ⟨3, 0x90, 0xBF, 0, by decide, by decide⟩, [])
  else if b = 0xF4 then (.inside ⟨3, 0x80, 0x8F, 4, by decide, by decide⟩, [])
  else if 0xF1 ≤ b ∧ b ≤ 0xF3 then (.need 3 (b - 0xF0), [])
  else (.ground, [replacement])

/-- A byte the pending character accepts. -/
def continued (p : Pending) (b : ℕ) : State × List Char :=
  if p.missing ≤ 1 then (.ground, [Char.ofNat (p.bits * 64 + (b - 0x80))])
  else (.need (p.missing - 1) (p.bits * 64 + (b - 0x80)), [])

def step : State → UInt8 → State × List Char
  | .ground, b => first b.toNat
  | .inside p, b =>
      if p.lo ≤ b.toNat ∧ b.toNat ≤ p.hi then continued p b.toNat
      else ((first b.toNat).1, replacement :: (first b.toNat).2)

/-- The state after some bytes, and the characters complete by then. -/
def run : State → List UInt8 → State × List Char
  | q, [] => (q, [])
  | q, b :: bs =>
      let r := run (step q b).1 bs
      (r.1, (step q b).2 ++ r.2)

/-- What the end of the bytes adds. -/
def close : State → List Char
  | .ground => []
  | .inside _ => [replacement]

/-- All characters of the bytes, read from `q`. -/
def text (q : State) (bs : List UInt8) : List Char :=
  (run q bs).2 ++ close (run q bs).1

def decode (bs : List UInt8) : List Char := text .ground bs

/-! ## §1  Runs compose -/

theorem run_append (q : State) (bs cs : List UInt8) :
    run q (bs ++ cs) =
      ((run (run q bs).1 cs).1, (run q bs).2 ++ (run (run q bs).1 cs).2) := by
  induction bs generalizing q with
  | nil => rfl
  | cons b bs ih =>
      rw [List.cons_append, run, ih]
      simp only [run, List.append_assoc]

theorem text_append (q : State) (bs cs : List UInt8) :
    text q (bs ++ cs) = (run q bs).2 ++ text (run q bs).1 cs := by
  rw [text, run_append, text, List.append_assoc]

/-- At a character boundary the text splits. -/
theorem decode_append {bs : List UInt8} (h : (run .ground bs).1 = .ground)
    (cs : List UInt8) : decode (bs ++ cs) = decode bs ++ decode cs := by
  rw [decode, text_append, h]
  unfold decode text
  rw [h]
  simp only [close, List.append_nil]

/-! ## §2  No byte is silent -/

/-- A step that ends between characters has produced one. -/
theorem step_ne_nil {q : State} {b : UInt8} (h : (step q b).1 = .ground) :
    (step q b).2 ≠ [] := by
  have hfirst : (first b.toNat).1 = .ground → (first b.toNat).2 ≠ [] := by
    unfold first State.need
    split_ifs <;> simp
  cases q with
  | ground => exact hfirst h
  | inside p =>
      rw [step] at h ⊢
      split_ifs at h ⊢ with hin
      · unfold continued State.need at h ⊢
        split_ifs at h ⊢
        simp_all
      · simp

theorem text_eq_nil {q : State} {bs : List UInt8} (h : text q bs = []) :
    q = .ground ∧ bs = [] := by
  induction bs generalizing q with
  | nil =>
      cases q with
      | ground => exact ⟨rfl, rfl⟩
      | inside p => simp [text, run, close] at h
  | cons b bs ih =>
      have happ := text_append q [b] bs
      rw [List.singleton_append, h] at happ
      obtain ⟨hout, hrest⟩ := List.append_eq_nil_iff.mp happ.symm
      obtain ⟨hq, -⟩ := ih hrest
      have hout' : (step q b).2 = [] := by simpa [run] using hout
      exact absurd hout' (step_ne_nil hq)

/-- Bytes that end inside a character show it. -/
theorem ground_of_getLast? {q : State} {bs : List UInt8}
    (h : (text q bs).getLast? ≠ some replacement) : (run q bs).1 = .ground := by
  cases hq : (run q bs).1 with
  | ground => rfl
  | inside p =>
      exfalso
      apply h
      rw [text, hq]
      simp [close]

/-! ## §3  Resynchronisation -/

/-- A byte a pending character accepts begins no character. -/
theorem first_of_accepted {p : Pending} {b : ℕ} (h : p.lo ≤ b ∧ b ≤ p.hi) :
    first b = (.ground, [replacement]) := by
  have hlo := p.lo_ge
  have hhi := p.hi_le
  unfold first
  split_ifs <;> first | rfl | (exfalso; omega)

/-- Two runs over the same bytes, the second from `ground`: they have met, or the second
is at `ground` and everything it has read is replacement characters. -/
theorem run_meets (q : State) (bs : List UInt8) :
    (run q bs).1 = (run .ground bs).1 ∨
      (run .ground bs).1 = .ground ∧
        (run .ground bs).2 = List.replicate bs.length replacement := by
  induction bs generalizing q with
  | nil => exact .inr ⟨rfl, rfl⟩
  | cons b bs ih =>
      cases q with
      | ground => exact .inl rfl
      | inside p =>
          by_cases hin : p.lo ≤ b.toNat ∧ b.toNat ≤ p.hi
          · -- the byte goes on the pending character: the other run drops it
            have hother : step .ground b = (.ground, [replacement]) :=
              first_of_accepted hin
            rcases ih (step (.inside p) b).1 with hmeet | ⟨hground, hout⟩
            · refine .inl ?_
              rw [run, run, hother]
              exact hmeet
            · refine .inr ⟨?_, ?_⟩
              · rw [run, hother]
                exact hground
              · rw [run, hother]
                simp only
                rw [hout]
                rfl
          · -- the byte begins a character in both runs
            have hstep : step (.inside p) b =
                ((first b.toNat).1, replacement :: (first b.toNat).2) := if_neg hin
            refine .inl ?_
            rw [run, run, hstep]
            rfl

/-- A run that ends between characters did so from any later start. -/
theorem ground_of_suffix {q : State} {bs : List UInt8} (h : (run q bs).1 = .ground) :
    (run .ground bs).1 = .ground := by
  rcases run_meets q bs with hmeet | ⟨hground, -⟩
  · rw [← hmeet, h]
  · exact hground

/-- Inside a character at the end, a run has met every other. -/
theorem run_eq_of_inside {bs : List UInt8} (q : State)
    (h : (run .ground bs).1 ≠ .ground) : (run q bs).1 = (run .ground bs).1 := by
  rcases run_meets q bs with hmeet | ⟨hground, -⟩
  · exact hmeet
  · exact absurd hground h

/-- `é`, three stray continuation bytes, and an unfinished three-byte character. -/
example : decode [0xC3, 0xA9, 0x80, 0xA0, 0xBF, 0xE2, 0x82] =
    ['é', replacement, replacement, replacement, replacement] := by
  decide +kernel

end TurboServe.Lib.Utf8
