import Mathlib

/-!
# Fixed-width encodings of integers

The two's complement, little-endian encoding of an integer in `w` bytes, and the
concatenation of the encodings of a list. An encoding of known width at the end of a
string can be split off, so strings built from such pieces do not alias.
-/

namespace TurboServe.Lib.FixedWidth

/-! ## §1  Little-endian bytes -/

/-- The `w` low bytes of `n`, the lowest first. -/
def littleEndian : ℕ → ℕ → List UInt8
  | 0, _ => []
  | w + 1, n => UInt8.ofNat n :: littleEndian w (n / 256)

@[simp] theorem length_littleEndian (w n : ℕ) : (littleEndian w n).length = w := by
  induction w generalizing n with
  | zero => rfl
  | succ w ih => rw [littleEndian, List.length_cons, ih]

theorem littleEndian_inj {w n n' : ℕ} (hn : n < 256 ^ w) (hn' : n' < 256 ^ w)
    (h : littleEndian w n = littleEndian w n') : n = n' := by
  induction w generalizing n n' with
  | zero =>
      rw [pow_zero, Nat.lt_one_iff] at hn hn'
      rw [hn, hn']
  | succ w ih =>
      rw [littleEndian, littleEndian, List.cons.injEq] at h
      rw [pow_succ] at hn hn'
      have hlow : n % 256 = n' % 256 := by
        have := congrArg UInt8.toNat h.1
        simpa [UInt8.toNat_ofNat'] using this
      have hhigh : n / 256 = n' / 256 := by
        apply ih
        · exact Nat.div_lt_of_lt_mul (by rw [mul_comm]; exact hn)
        · exact Nat.div_lt_of_lt_mul (by rw [mul_comm]; exact hn')
        · exact h.2
      rw [← Nat.div_add_mod n 256, ← Nat.div_add_mod n' 256, hlow, hhigh]

/-! ## §2  Signed integers -/

/-- `w` bytes hold the integers from `-2^(8w-1)` up to, but not including,
`2^(8w-1)`. -/
def InRange (w : ℕ) (v : ℤ) : Prop := -2 ^ (8 * w - 1) ≤ v ∧ v < 2 ^ (8 * w - 1)

instance (w : ℕ) (v : ℤ) : Decidable (InRange w v) :=
  inferInstanceAs (Decidable (_ ∧ _))

/-- Two's complement: `v.to_bytes(w, "little", signed=True)` for a `v` in range. -/
def signedBytes (w : ℕ) (v : ℤ) : List UInt8 :=
  littleEndian w (v % 256 ^ w).toNat

@[simp] theorem length_signedBytes (w : ℕ) (v : ℤ) : (signedBytes w v).length = w :=
  length_littleEndian w _

theorem signedBytes_inj {w : ℕ} {v v' : ℤ} (hw : 0 < w) (hv : InRange w v)
    (hv' : InRange w v') (h : signedBytes w v = signedBytes w v') : v = v' := by
  have hpos : (0 : ℤ) < 256 ^ w := by positivity
  have hlt : ∀ x : ℤ, (x % 256 ^ w).toNat < 256 ^ w := by
    intro x
    have hx := Int.emod_lt_of_pos x hpos
    have hx' := Int.emod_nonneg x hpos.ne'
    zify
    rwa [Int.toNat_of_nonneg hx']
  have hmod : v % 256 ^ w = v' % 256 ^ w := by
    have := littleEndian_inj (hlt v) (hlt v') h
    rw [← Int.toNat_of_nonneg (Int.emod_nonneg v hpos.ne'), this,
      Int.toNat_of_nonneg (Int.emod_nonneg v' hpos.ne')]
  -- the range is as long as the modulus, so congruent values are equal
  have hlen : (256 : ℤ) ^ w = 2 * 2 ^ (8 * w - 1) := by
    rw [← pow_succ', show 8 * w - 1 + 1 = 8 * w by omega, pow_mul]
    norm_num
  obtain ⟨hv₁, hv₂⟩ := hv
  obtain ⟨hv₁', hv₂'⟩ := hv'
  obtain ⟨q, hq⟩ : (256 : ℤ) ^ w ∣ v - v' := Int.ModEq.dvd hmod.symm
  have hq0 : q = 0 := by
    by_contra hne
    have hone : 1 ≤ |q| := Int.one_le_abs hne
    have habs : |v - v'| = 256 ^ w * |q| := by
      rw [hq, abs_mul, abs_of_pos hpos]
    have hbig : (256 : ℤ) ^ w ≤ |v - v'| := by
      rw [habs]
      exact le_mul_of_one_le_right hpos.le hone
    rcases abs_cases (v - v') with ⟨h₁, _⟩ | ⟨h₁, _⟩ <;> linarith
  rw [hq0, mul_zero] at hq
  linarith

/-! ## §3  Concatenations -/

/-- The encodings of a list of integers, one after the other. -/
def concatBytes (w : ℕ) (vs : List ℤ) : List UInt8 := vs.flatMap (signedBytes w)

theorem length_concatBytes (w : ℕ) (vs : List ℤ) :
    (concatBytes w vs).length = w * vs.length := by
  induction vs with
  | nil => rfl
  | cons v vs ih =>
      rw [concatBytes, List.flatMap_cons, List.length_append, length_signedBytes,
        ← concatBytes, ih, List.length_cons]
      ring

theorem concatBytes_inj {w : ℕ} {vs vs' : List ℤ} (hw : 0 < w)
    (hvs : ∀ v ∈ vs, InRange w v) (hvs' : ∀ v ∈ vs', InRange w v)
    (h : concatBytes w vs = concatBytes w vs') : vs = vs' := by
  have hlen : vs.length = vs'.length := by
    have := congrArg List.length h
    rw [length_concatBytes, length_concatBytes] at this
    exact Nat.eq_of_mul_eq_mul_left hw this
  induction vs generalizing vs' with
  | nil => exact (List.length_eq_zero_iff.mp hlen.symm).symm
  | cons v vs ih =>
      cases vs' with
      | nil => cases hlen
      | cons v' vs' =>
          rw [List.forall_mem_cons] at hvs hvs'
          obtain ⟨hhead, htail⟩ := List.append_inj h (by
            rw [length_signedBytes, length_signedBytes])
          rw [signedBytes_inj hw hvs.1 hvs'.1 hhead,
            ih hvs.2 hvs'.2 htail (Nat.succ.inj hlen)]

end TurboServe.Lib.FixedWidth
