import TurboServe.Lib.Rounding

/-!
# Single precision

The numbers of single precision by value, with each operation the exact one, rounded. The two
zeros are one value here, and there is no overflow: a number may be as large as it likes.
-/

namespace TurboServe.Lib

/-- A rational that single precision holds. -/
structure Single where
  val : ℚ
  fixed : roundTo 2 24 (-149) val = val
deriving DecidableEq

namespace Single

theorem fixed_round (q : ℚ) :
    roundTo 2 24 (-149) (roundTo 2 24 (-149) q) = roundTo 2 24 (-149) q :=
  roundTo_roundTo Nat.one_lt_two (by decide) q

/-- The nearest number of single precision. -/
def ofRat (q : ℚ) : Single := ⟨roundTo 2 24 (-149) q, fixed_round q⟩

theorem val_injective : Function.Injective val := by
  rintro ⟨a, ha⟩ ⟨b, hb⟩ h
  cases h
  rfl

instance : Zero Single := ⟨ofRat 0⟩
instance : Mul Single := ⟨fun x y => ofRat (x.val * y.val)⟩
instance : Div Single := ⟨fun x y => ofRat (x.val / y.val)⟩
instance : Sub Single := ⟨fun x y => ofRat (x.val - y.val)⟩
instance : Add Single := ⟨fun x y => ofRat (x.val + y.val)⟩
instance : LinearOrder Single := LinearOrder.lift' val val_injective

/-! ## §1  What rounding leaves alone -/

@[simp] theorem ofRat_val (x : Single) : ofRat x.val = x := val_injective x.fixed

theorem val_zero : (0 : Single).val = 0 := by decide +kernel

theorem val_one : (ofRat 1).val = 1 := by decide +kernel

theorem mul_one_eq (x : Single) : x * ofRat 1 = x := by
  change ofRat (x.val * (ofRat 1).val) = x
  rw [val_one, mul_one, ofRat_val]

theorem div_one_eq (x : Single) : x / ofRat 1 = x := by
  change ofRat (x.val / (ofRat 1).val) = x
  rw [val_one, div_one, ofRat_val]

theorem sub_self_eq (x : Single) : x - x = 0 := by
  change ofRat (x.val - x.val) = ofRat 0
  rw [sub_self]

theorem zero_div_eq (x : Single) : 0 / x = 0 := by
  change ofRat ((0 : Single).val / x.val) = ofRat 0
  rw [val_zero, zero_div]

theorem ofRat_nonneg {q : ℚ} (h : 0 ≤ q) : 0 ≤ ofRat q := by
  change (0 : Single).val ≤ roundTo 2 24 (-149) q
  rw [val_zero]
  exact roundTo_nonneg h

/-- Double precision holds what single precision does. -/
theorem fixed_double (x : Single) : roundTo 2 53 (-1074) x.val = x.val :=
  roundTo_finer Nat.one_lt_two (by decide) (by decide) x.fixed

end Single

end TurboServe.Lib
