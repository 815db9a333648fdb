import Mathlib.Data.List.Basic

/-!
# Decimal numerals in strings

A numeral consists of digits only, so what precedes the last separator of a string that ends
in a numeral is determined, and so is the numeral.
-/

namespace TurboServe.Lib

section Split

variable {α : Type*} {x : α} {xs ys zs ws : List α}

/-- The first occurrence of a separator is where it is. -/
theorem append_cons_inj_left (hx : x ∉ xs) (hy : x ∉ ys) (h : xs ++ x :: zs = ys ++ x :: ws) :
    xs = ys ∧ zs = ws := by
  induction xs generalizing ys with
  | nil =>
      cases ys with
      | nil => exact ⟨rfl, (List.cons.inj h).2⟩
      | cons y ys => exact absurd (List.cons.inj h).1 fun hxy => hy (hxy ▸ List.mem_cons_self)
  | cons a xs ih =>
      cases ys with
      | nil => exact absurd (List.cons.inj h).1.symm fun hxa => hx (hxa ▸ List.mem_cons_self)
      | cons y ys =>
          obtain ⟨rfl, hrest⟩ := List.cons.inj h
          obtain ⟨rfl, hzs⟩ := ih (fun hm => hx (List.mem_cons_of_mem _ hm))
            (fun hm => hy (List.mem_cons_of_mem _ hm)) hrest
          exact ⟨rfl, hzs⟩

/-- And so is the last one. -/
theorem append_cons_inj_right (hz : x ∉ zs) (hw : x ∉ ws) (h : xs ++ x :: zs = ys ++ x :: ws) :
    xs = ys ∧ zs = ws := by
  have hreverse := congrArg List.reverse h
  rw [List.reverse_append, List.reverse_append, List.reverse_cons, List.reverse_cons,
    List.append_assoc, List.append_assoc, List.singleton_append, List.singleton_append]
    at hreverse
  obtain ⟨hzs, hxs⟩ := append_cons_inj_left (mt List.mem_reverse.mp hz)
    (mt List.mem_reverse.mp hw) hreverse
  exact ⟨List.reverse_inj.mp hxs, List.reverse_inj.mp hzs⟩

end Split

theorem isDigit_of_mem_toString {n : ℕ} {c : Char} (h : c ∈ (toString n).toList) :
    c.isDigit = true := by
  rw [Nat.toString_eq_ofList_toDigits, String.toList_ofList] at h
  exact Nat.isDigit_of_mem_toDigits (by decide) (by decide) h

theorem toString_injective {m n : ℕ} (h : toString m = toString n) : m = n := by
  have hlist := congrArg String.toList h
  rw [Nat.toString_eq_ofList_toDigits, Nat.toString_eq_ofList_toDigits, String.toList_ofList,
    String.toList_ofList] at hlist
  rw [← Nat.ofDigitChars_ten_toDigits (n := m), hlist, Nat.ofDigitChars_ten_toDigits]

/-- A numeral behind a separator that is no digit can be read off, and what is before it. -/
theorem numbered_inj {a b separator : String} {c : Char} (hseparator : separator.toList = [c])
    (hc : c.isDigit = false) {m n : ℕ}
    (h : a ++ separator ++ toString m = b ++ separator ++ toString n) : a = b ∧ m = n := by
  have hlist := congrArg String.toList h
  rw [String.toList_append, String.toList_append, String.toList_append, String.toList_append,
    hseparator, List.append_assoc, List.append_assoc, List.singleton_append,
    List.singleton_append] at hlist
  have hnot : ∀ k : ℕ, c ∉ (toString k).toList := by
    intro k hk
    rw [isDigit_of_mem_toString hk] at hc
    cases hc
  obtain ⟨hab, hmn⟩ := append_cons_inj_right (hnot m) (hnot n) hlist
  exact ⟨String.toList_inj.mp hab, toString_injective (String.toList_inj.mp hmn)⟩

end TurboServe.Lib
