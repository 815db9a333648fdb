import TurboServe.Spec.Ngram

/-!
# N-gram lookup equals its definition

The marks left by the shifted comparisons are the earlier occurrences of the tail; the last of
them is the most recent one, and the first size that has any is the longest.
-/

namespace TurboServe.Spec

open TurboServe.Core

variable {tokens : List TokenId} {size p : ℕ}

/-- The suffix of length `n` occurs at `p` already, with at least one token after it. -/
structure OccursEarlier (tokens : List TokenId) (n p : ℕ) : Prop where
  follows : p + n < tokens.length
  same : (tokens.drop p).take n = tokens.drop (tokens.length - n)

/-- The suffix of length `n` is the longest of those allowed that occurs earlier, and `p` is
its most recent occurrence. -/
structure BestMatch (tokens : List TokenId) (minNgram maxNgram : ℤ) (n p : ℕ) : Prop where
  longest : IsGreatest {n : ℕ | minNgram ≤ n ∧ n ≤ maxNgram ∧ ∃ p, OccursEarlier tokens n p} n
  recent : IsGreatest {p | OccursEarlier tokens n p} p

/-! ## §1  The marks -/

/-- Conjunctions of rows of marks: a position is set when it is in every row. -/
theorem foldl_marks {row : ℕ → List Bool} {span : ℕ} (n : ℕ)
    (hrow : ∀ offset < n, (row offset).length = span) :
    ((List.range n).foldl (fun marks offset => List.zipWith (· && ·) marks (row offset))
        (List.replicate span true)).length = span ∧
      ∀ p < span, ((List.range n).foldl
          (fun marks offset => List.zipWith (· && ·) marks (row offset))
          (List.replicate span true))[p]? = some true ↔
        ∀ offset < n, (row offset)[p]? = some true := by
  induction n with
  | zero =>
      refine ⟨List.length_replicate, fun p hp => ?_⟩
      simp only [List.range_zero, List.foldl_nil, List.getElem?_replicate_of_lt hp,
        Nat.not_lt_zero, false_implies, implies_true]
  | succ n ih =>
      obtain ⟨hlen, hmarks⟩ := ih fun offset ho => hrow offset (ho.trans n.lt_succ_self)
      have hn := hrow n n.lt_succ_self
      rw [List.range_succ, List.foldl_append]
      simp only [List.foldl_cons, List.foldl_nil]
      generalize (List.range n).foldl (fun marks offset => List.zipWith (· && ·) marks (row offset))
        (List.replicate span true) = marks at hlen hmarks
      refine ⟨by rw [List.length_zipWith, hlen, hn, min_self], fun p hp => ?_⟩
      have hleft : marks[p]? = some marks[p] := List.getElem?_eq_getElem (hlen ▸ hp)
      have hright : (row n)[p]? = some (row n)[p] := List.getElem?_eq_getElem (hn ▸ hp)
      have hboth : (List.zipWith (· && ·) marks (row n))[p]? = some true ↔
          marks[p]? = some true ∧ (row n)[p]? = some true := by
        rw [List.getElem?_zipWith, hleft, hright]
        simp only [Option.some.injEq, Bool.and_eq_true]
      rw [hboth, hmarks p hp]
      constructor
      · rintro ⟨hall, hlast⟩ offset ho
        rcases Nat.lt_succ_iff_lt_or_eq.mp ho with ho | rfl
        · exact hall offset ho
        · exact hlast
      · intro hall
        exact ⟨fun offset ho => hall offset (ho.trans n.lt_succ_self), hall n n.lt_succ_self⟩

theorem tailMatches_iff (hsize : size ≤ tokens.length) :
    (tailMatches tokens size).length = tokens.length - size ∧
      ∀ p < tokens.length - size, (tailMatches tokens size)[p]? = some true ↔
        (tokens.drop p).take size = tokens.drop (tokens.length - size) := by
  have hrow : ∀ offset < size, (((tokens.drop offset).take (tokens.length - size)).map
      fun id => some id == (tokens.drop (tokens.length - size))[offset]?).length =
        tokens.length - size := by
    intro offset ho
    rw [List.length_map, List.length_take, List.length_drop]
    omega
  obtain ⟨hlen, hmarks⟩ := foldl_marks size hrow
  refine ⟨hlen, fun p hp => (hmarks p hp).trans ?_⟩
  have hentry : ∀ offset < size, (((tokens.drop offset).take (tokens.length - size)).map
      fun id => some id == (tokens.drop (tokens.length - size))[offset]?)[p]? = some true ↔
        ((tokens.drop p).take size)[offset]? =
          (tokens.drop (tokens.length - size))[offset]? := by
    intro offset ho
    have hlt : offset + p < tokens.length := by omega
    rw [List.getElem?_map, List.getElem?_take_of_lt hp, List.getElem?_drop,
      List.getElem?_take_of_lt ho, List.getElem?_drop, List.getElem?_drop,
      Nat.add_comm p offset, List.getElem?_eq_getElem hlt, Option.map_some, Option.some_inj, beq_iff_eq]
  rw [List.ext_getElem?_iff]
  constructor
  · intro h offset
    by_cases ho : offset < size
    · exact (hentry offset ho).mp (h offset ho)
    · rw [List.getElem?_eq_none, List.getElem?_eq_none]
      · rw [List.length_drop]
        omega
      · rw [List.length_take]
        omega
  · exact fun h offset ho => (hentry offset ho).mpr (h offset)

/-- The marks are the earlier occurrences of the tail. -/
theorem tailMatches_occurs (hsize : size ≤ tokens.length) :
    (tailMatches tokens size)[p]? = some true ↔ OccursEarlier tokens size p := by
  obtain ⟨hlen, hmarks⟩ := tailMatches_iff hsize
  by_cases hp : p < tokens.length - size
  · rw [hmarks p hp]
    exact ⟨fun h => ⟨by omega, h⟩, fun h => h.same⟩
  · rw [List.getElem?_eq_none (by omega)]
    exact ⟨fun h => absurd h (by simp), fun h => absurd h.follows (by omega)⟩

/-! ## §2  The last mark -/

theorem mem_nonzero {marks : List Bool} {i : ℕ} : i ∈ nonzero marks ↔ marks[i]? = some true := by
  unfold nonzero
  rw [List.mem_filter, List.mem_range, List.getD_eq_getElem?_getD]
  constructor
  · rintro ⟨hlt, hset⟩
    rw [List.getElem?_eq_getElem hlt] at hset ⊢
    exact congrArg some hset
  · intro h
    refine ⟨(List.getElem?_eq_some_iff.mp h).1, ?_⟩
    rw [h]
    rfl

theorem nonzero_increasing (marks : List Bool) : (nonzero marks).Pairwise (· < ·) :=
  List.pairwise_lt_range.filter _

/-- Positions that ascend end with the greatest of them. -/
theorem getLast?_of_increasing {l : List ℕ} (h : l.Pairwise (· < ·)) :
    match l.getLast? with
    | none => ∀ i, i ∉ l
    | some last => IsGreatest {i | i ∈ l} last := by
  induction l using List.reverseRecOn with
  | nil => exact fun _ => List.not_mem_nil
  | append_singleton l last _ =>
      rw [List.getLast?_concat]
      refine ⟨List.mem_append_right _ List.mem_cons_self, fun i hi => ?_⟩
      rcases List.mem_append.mp hi with hi | hi
      · exact ((List.pairwise_append.mp h).2.2 i hi last List.mem_cons_self).le
      · exact (List.mem_singleton.mp hi).le

/-- What the loop makes of one size. -/
theorem lastMatch (hsize : size ≤ tokens.length) :
    match (nonzero (tailMatches tokens size)).getLast? with
    | none => ∀ p, ¬ OccursEarlier tokens size p
    | some p => IsGreatest {p | OccursEarlier tokens size p} p := by
  have hmem : ∀ p, p ∈ nonzero (tailMatches tokens size) ↔ OccursEarlier tokens size p :=
    fun p => mem_nonzero.trans (tailMatches_occurs hsize)
  have hlast := getLast?_of_increasing (nonzero_increasing (tailMatches tokens size))
  simp only [hmem] at hlast
  exact hlast

/-! ## §3  The longest tail -/

/-- What the sizes from `minNgram` to `size` make of the tokens. -/
def LookedUp (tokens : List TokenId) (minNgram numTokens size : ℕ) (result : List TokenId) :
    Prop :=
  ((∀ n, minNgram ≤ n → n ≤ size → ∀ p, ¬ OccursEarlier tokens n p) ∧ result = []) ∨
    ∃ n p, IsGreatest {n | minNgram ≤ n ∧ n ≤ size ∧ ∃ p, OccursEarlier tokens n p} n ∧
      IsGreatest {p | OccursEarlier tokens n p} p ∧
      result = (tokens.drop (p + n)).take numTokens

variable {minNgram numTokens : ℕ}

/-- A size without an occurrence leaves it to the smaller ones. -/
theorem LookedUp.succ {result : List TokenId} (h : LookedUp tokens minNgram numTokens size result)
    (hnone : ∀ p, ¬ OccursEarlier tokens (size + 1) p) :
    LookedUp tokens minNgram numTokens (size + 1) result := by
  rcases h with ⟨hall, hnil⟩ | ⟨n, p, ⟨⟨hlo, hhi, hocc⟩, hmax⟩, hrecent, hres⟩
  · refine Or.inl ⟨fun n hn hle => ?_, hnil⟩
    rcases Nat.le_succ_iff.mp hle with hle | rfl
    · exact hall n hn hle
    · exact hnone
  · refine Or.inr ⟨n, p, ⟨⟨hlo, hhi.trans size.le_succ, hocc⟩, ?_⟩, hrecent, hres⟩
    rintro n' ⟨hlo', hhi', q, hq⟩
    rcases Nat.le_succ_iff.mp hhi' with hhi' | rfl
    · exact hmax ⟨hlo', hhi', q, hq⟩
    · exact absurd hq (hnone q)

/-- The loop stops at the longest size that has an occurrence, and reads on behind the last. -/
theorem ngramLoop_spec (hmin : 1 ≤ minNgram) (size : ℕ) :
    LookedUp tokens minNgram numTokens size (ngramLoop tokens minNgram numTokens size) := by
  induction size with
  | zero => exact Or.inl ⟨fun n hn hle => absurd hn (by omega), rfl⟩
  | succ size ih =>
      rw [ngramLoop]
      split
      · exact Or.inl ⟨fun n hn hle => absurd hn (by omega), rfl⟩
      rename_i hlow
      split
      · rename_i hspan
        exact ih.succ fun p hp => absurd hp.follows (by omega)
      rename_i hspan
      have hlast := lastMatch (not_le.mp hspan).le
      cases hfound : (nonzero (tailMatches tokens (size + 1))).getLast? with
      | none =>
          rw [hfound] at hlast
          exact ih.succ hlast
      | some p =>
          rw [hfound] at hlast
          refine Or.inr ⟨size + 1, p, ⟨⟨not_lt.mp hlow, le_rfl, p, hlast.1⟩, ?_⟩, hlast, rfl⟩
          rintro n ⟨-, hle, -⟩
          exact hle

/-! ## §4  The function -/

/-- The sizes the loop tries are the ones allowed: a longer tail has no earlier occurrence. -/
theorem sizes_iff {lo hi : ℤ} {n : ℕ} (hlo : 1 ≤ lo) (hocc : ∃ p, OccursEarlier tokens n p) :
    (lo.toNat ≤ n ∧ n ≤ (min hi ((tokens.length : ℤ) - 1)).toNat) ↔ lo ≤ n ∧ n ≤ hi := by
  obtain ⟨p, hp⟩ := hocc
  have hfollows := hp.follows
  omega

/-- **N-gram lookup equals its definition**, wherever something may be proposed at all: the
tokens behind the most recent earlier occurrence of the longest tail that has one, and nothing
exactly when no tail has. -/
theorem findNgramContinuation_exact (tokens : List TokenId) (numTokens minNgram maxNgram : ℤ) :
    if numTokens < 1 ∨ minNgram < 1 then
      findNgramContinuation tokens numTokens minNgram maxNgram = []
    else
      (findNgramContinuation tokens numTokens minNgram maxNgram = [] ↔
        ¬ ∃ n : ℕ, minNgram ≤ n ∧ n ≤ maxNgram ∧ ∃ p, OccursEarlier tokens n p) ∧
      ((∃ n : ℕ, minNgram ≤ n ∧ n ≤ maxNgram ∧ ∃ p, OccursEarlier tokens n p) →
        ∃ n p, BestMatch tokens minNgram maxNgram n p ∧
          findNgramContinuation tokens numTokens minNgram maxNgram =
            (tokens.drop (p + n)).take numTokens.toNat) := by
  unfold findNgramContinuation
  by_cases hguard : numTokens < 1 ∨ minNgram < 1
  · rw [if_pos hguard, if_pos (by omega)]
  rw [if_neg hguard]
  push Not at hguard
  obtain ⟨hnum, hmin⟩ := hguard
  by_cases hempty : maxNgram < minNgram
  · rw [if_pos (Or.inr (Or.inr hempty))]
    have hnone : ¬ ∃ n : ℕ, minNgram ≤ n ∧ n ≤ maxNgram ∧ ∃ p, OccursEarlier tokens n p := by
      rintro ⟨n, hlo, hhi, -⟩
      omega
    exact ⟨⟨fun _ => hnone, fun _ => rfl⟩, fun h => absurd h hnone⟩
  rw [if_neg (by omega)]
  have hspec := @ngramLoop_spec tokens minNgram.toNat numTokens.toNat (by omega)
    (min maxNgram ((tokens.length : ℤ) - 1)).toNat
  rcases hspec with ⟨hnone, hres⟩ | ⟨n, p, ⟨⟨hlo, hhi, hocc⟩, hmax⟩, hrecent, hres⟩
  · have hnone' : ¬ ∃ n : ℕ, minNgram ≤ n ∧ n ≤ maxNgram ∧ ∃ p, OccursEarlier tokens n p := by
      rintro ⟨n, hlo, hhi, p, hp⟩
      obtain ⟨hlo', hhi'⟩ := (sizes_iff hmin ⟨p, hp⟩).mpr ⟨hlo, hhi⟩
      exact hnone n hlo' hhi' p hp
    exact ⟨⟨fun _ => hnone', fun _ => hres⟩, fun h => absurd h hnone'⟩
  · obtain ⟨hlo', hhi'⟩ := (sizes_iff hmin hocc).mp ⟨hlo, hhi⟩
    have hfollows := hrecent.1.follows
    have hsome : ngramLoop tokens minNgram.toNat numTokens.toNat
        (min maxNgram ((tokens.length : ℤ) - 1)).toNat ≠ [] := by
      rw [hres, Ne, List.take_eq_nil_iff, List.drop_eq_nil_iff]
      omega
    refine ⟨⟨fun hnil => absurd hnil hsome, fun h => absurd ⟨n, hlo', hhi', hocc⟩ h⟩,
      fun _ => ⟨n, p, ⟨⟨⟨hlo', hhi', hocc⟩, ?_⟩, hrecent⟩, hres⟩⟩
    rintro n' ⟨hn', hle', q, hq⟩
    obtain ⟨h₁, h₂⟩ := (sizes_iff hmin ⟨q, hq⟩).mpr ⟨hn', hle'⟩
    exact hmax ⟨h₁, h₂, q, hq⟩

/-- Nothing is proposed for a count of zero or with tails of no tokens allowed, although the
last token occurs earlier. -/
theorem lookup_guarded :
    findNgramContinuation [7, 7] 0 1 1 = [] ∧ findNgramContinuation [7, 7] 1 0 1 = [] ∧
      findNgramContinuation [7, 7] 1 1 1 = [7] ∧ OccursEarlier [7, 7] 1 0 :=
  ⟨by decide, by decide, by decide, ⟨by decide, rfl⟩⟩

end TurboServe.Spec
