import Mathlib

/-!
# Generators over a shared state

A generator runs until it yields, returns or raises. While it is suspended at a
yield the rest of the program may change the shared state, and its consumer may
close it there. Resources that generators hold while they are suspended are
counted over any number of them, interleaved in any order.
-/

namespace TurboServe.Lib

/-- A generator at the end of a stretch of its body: `onClose` is what its cleanup
does when it is closed at this yield, `resume` is the next stretch. -/
inductive Gen (σ o ε : Type) : Type where
  | done (s : σ)
  | raised (e : ε) (s : σ)
  | yielded (out : o) (s : σ) (onClose : σ → σ) (resume : σ → Gen σ o ε)

/-- How a consumer's use of a generator ended. -/
inductive Exit (ε : Type) : Type where
  | returned
  | raised (e : ε)
  | closed

namespace Gen

variable {σ o ε : Type}

/-- The shared state at the end of the stretch. -/
def state : Gen σ o ε → σ
  | done s => s
  | raised _ s => s
  | yielded _ s _ _ => s

/-- A consumer's run: `others k` is what happens to the shared state during suspension
`k`, and `closeAt k` is whether the consumer closes there. -/
def consume (others : ℕ → σ → σ) (closeAt : ℕ → Bool) (k : ℕ) :
    Gen σ o ε → List o × Exit ε × σ
  | done s => ([], .returned, s)
  | raised e s => ([], .raised e, s)
  | yielded out s onClose resume =>
      if closeAt k then ([out], .closed, onClose (others k s))
      else
        let r := consume others closeAt (k + 1) (resume (others k s))
        (out :: r.1, r.2)

/-- Whatever happens at its suspensions, the generator yields `outs` and ends so. -/
def Emits : Gen σ o ε → List o → Exit ε → Prop
  | done _, outs, exit => outs = [] ∧ exit = .returned
  | raised e _, outs, exit => outs = [] ∧ exit = .raised e
  | yielded out _ _ resume, outs, exit =>
      ∃ rest, outs = out :: rest ∧ ∀ s', Emits (resume s') rest exit

theorem Emits.consume {g : Gen σ o ε} {outs : List o} {exit : Exit ε}
    (h : g.Emits outs exit) (others : ℕ → σ → σ) (k : ℕ) :
    (g.consume others (fun _ => false) k).1 = outs ∧
      (g.consume others (fun _ => false) k).2.1 = exit := by
  induction g generalizing outs k with
  | done s => exact ⟨h.1.symm, h.2.symm⟩
  | raised e s => exact ⟨h.1.symm, h.2.symm⟩
  | yielded out s onClose resume ih =>
      obtain ⟨rest, rfl, hrest⟩ := h
      obtain ⟨h₁, h₂⟩ := ih _ (hrest (others k s)) (k + 1)
      exact ⟨congrArg (out :: ·) h₁, h₂⟩

/-- A consumer that closes early has a prefix. -/
theorem Emits.consume_prefix {g : Gen σ o ε} {outs : List o} {exit : Exit ε}
    (h : g.Emits outs exit) (others : ℕ → σ → σ) (closeAt : ℕ → Bool) (k : ℕ) :
    (g.consume others closeAt k).1 <+: outs := by
  induction g generalizing outs k with
  | done s => exact List.nil_prefix
  | raised e s => exact List.nil_prefix
  | yielded out s onClose resume ih =>
      obtain ⟨rest, rfl, hrest⟩ := h
      rw [Gen.consume]
      split
      · exact ⟨rest, rfl⟩
      · exact List.cons_prefix_cons.mpr ⟨rfl, ih _ (hrest (others k s)) (k + 1)⟩

/-- However it is consumed, it ends that way or by being closed. -/
theorem Emits.consume_exit {g : Gen σ o ε} {outs : List o} {exit : Exit ε}
    (h : g.Emits outs exit) (others : ℕ → σ → σ) (closeAt : ℕ → Bool) (k : ℕ) :
    (g.consume others closeAt k).2.1 = exit ∨
      (g.consume others closeAt k).2.1 = .closed := by
  induction g generalizing outs k with
  | done s => exact Or.inl h.2.symm
  | raised e s => exact Or.inl h.2.symm
  | yielded out s onClose resume ih =>
      obtain ⟨rest, rfl, hrest⟩ := h
      rw [Gen.consume]
      split
      · exact Or.inr rfl
      · exact ih _ (hrest (others k s)) (k + 1)

/-- After the first stretch nothing the generator does changes `f`. -/
def Steady {β : Type} (f : σ → β) : Gen σ o ε → Prop
  | done _ => True
  | raised _ _ => True
  | yielded _ _ onClose resume =>
      ∀ s', f (onClose s') = f s' ∧ f (resume s').state = f s' ∧ Steady f (resume s')

theorem Steady.consume {β : Type} {f : σ → β} {g : Gen σ o ε} (h : g.Steady f)
    (closeAt : ℕ → Bool) (k : ℕ) :
    f (g.consume (fun _ => id) closeAt k).2.2 = f g.state := by
  induction g generalizing k with
  | done s => rfl
  | raised e s => rfl
  | yielded out s onClose resume ih =>
      obtain ⟨hclose, hresume, hnext⟩ := h s
      rw [Gen.consume]
      split
      · exact hclose
      · exact (ih s hnext (k + 1)).trans hresume

/-- What `Emits` says, with suspensions that change the state only as `R` allows. -/
def EmitsWhile (R : σ → σ → Prop) : Gen σ o ε → List o → Exit ε → Prop
  | done _, outs, exit => outs = [] ∧ exit = .returned
  | raised e _, outs, exit => outs = [] ∧ exit = .raised e
  | yielded out s _ resume, outs, exit =>
      ∃ rest, outs = out :: rest ∧ ∀ s', R s s' → EmitsWhile R (resume s') rest exit

theorem EmitsWhile.consume {R : σ → σ → Prop} {g : Gen σ o ε} {outs : List o}
    {exit : Exit ε} (h : g.EmitsWhile R outs exit) (others : ℕ → σ → σ)
    (hothers : ∀ k s, R s (others k s)) (k : ℕ) :
    (g.consume others (fun _ => false) k).1 = outs ∧
      (g.consume others (fun _ => false) k).2.1 = exit := by
  induction g generalizing outs k with
  | done s => exact ⟨h.1.symm, h.2.symm⟩
  | raised e s => exact ⟨h.1.symm, h.2.symm⟩
  | yielded out s onClose resume ih =>
      obtain ⟨rest, rfl, hrest⟩ := h
      obtain ⟨h₁, h₂⟩ := ih _ (hrest (others k s) (hothers k s)) (k + 1)
      exact ⟨congrArg (out :: ·) h₁, h₂⟩

/-! ## §1  Yielding a list -/

/-- Yield each of a list, with one cleanup, and go on. -/
def yieldAll (onClose : σ → σ) (next : σ → Gen σ o ε) : List o → σ → Gen σ o ε
  | [], s => next s
  | out :: outs, s => .yielded out s onClose (yieldAll onClose next outs)

theorem emitsWhile_yieldAll {R : σ → σ → Prop} (onClose : σ → σ) (next : σ → Gen σ o ε)
    {P : σ → Prop} (hP : ∀ s s', P s → R s s' → P s') {rest : List o} {exit : Exit ε}
    (hnext : ∀ s, P s → (next s).EmitsWhile R rest exit) (outs : List o) {s : σ}
    (hs : P s) : (yieldAll onClose next outs s).EmitsWhile R (outs ++ rest) exit := by
  induction outs generalizing s with
  | nil => exact hnext s hs
  | cons out outs ih => exact ⟨outs ++ rest, rfl, fun s' hR => ih (hP s s' hs hR)⟩

/-- Closed inside the list, the state is what the cleanup makes of it. -/
theorem state_consume_yieldAll_of_closed (onClose : σ → σ) (next : σ → Gen σ o ε)
    (closeAt : ℕ → Bool) (outs : List o) (s : σ) {k : ℕ}
    (h : ∃ j, k ≤ j ∧ j < k + outs.length ∧ closeAt j = true) :
    ((yieldAll onClose next outs s).consume (fun _ => id) closeAt k).2.2 = onClose s := by
  induction outs generalizing k with
  | nil =>
      obtain ⟨j, h₁, h₂, -⟩ := h
      rw [List.length_nil] at h₂
      omega
  | cons out outs ih =>
      rw [yieldAll, Gen.consume]
      by_cases hk : closeAt k = true
      · rw [if_pos hk]
        rfl
      · rw [if_neg hk]
        obtain ⟨j, h₁, h₂, h₃⟩ := h
        have hne : j ≠ k := by
          rintro rfl
          exact hk h₃
        rw [List.length_cons] at h₂
        exact ih ⟨j, by omega, by omega, h₃⟩

/-- Not closed inside the list, it goes on. -/
theorem state_consume_yieldAll_of_open (onClose : σ → σ) (next : σ → Gen σ o ε)
    {closeAt : ℕ → Bool} (outs : List o) (s : σ) {k : ℕ}
    (h : ∀ j, k ≤ j → j < k + outs.length → closeAt j = false) :
    ((yieldAll onClose next outs s).consume (fun _ => id) closeAt k).2.2 =
      ((next s).consume (fun _ => id) closeAt (k + outs.length)).2.2 := by
  induction outs generalizing k with
  | nil => rfl
  | cons out outs ih =>
      rw [List.length_cons] at h ⊢
      rw [yieldAll, Gen.consume, h k (Nat.le_refl k) (by omega)]
      have hlen : k + (outs.length + 1) = k + 1 + outs.length := by omega
      rw [hlen]
      exact ih fun j h₁ h₂ => h j (by omega) (by omega)

/-- A generator that only yields a list and ends leaves its state, closed or not. -/
theorem state_consume_yieldAll_id (closeAt : ℕ → Bool) (outs : List o) (s : σ) (k : ℕ) :
    ((yieldAll id (fun s => (.done s : Gen σ o ε)) outs s).consume (fun _ => id)
      closeAt k).2.2 = s := by
  induction outs generalizing k with
  | nil => rfl
  | cons out outs ih =>
      rw [yieldAll, Gen.consume]
      split
      · rfl
      · exact ih (k + 1)

/-! ## §2  Logs -/

section Log

variable {α : Type} {f : σ → List α}

/-- From `s₀` on the generator itself appends `xs` to a log, whatever happens at its
suspensions. -/
def Appends (f : σ → List α) : Gen σ o ε → σ → List α → Prop
  | done s, s₀, xs => f s = f s₀ ++ xs
  | raised _ s, s₀, xs => f s = f s₀ ++ xs
  | yielded _ s _ resume, s₀, xs =>
      ∃ now later, xs = now ++ later ∧ f s = f s₀ ++ now ∧ ∀ s', Appends f (resume s') s' later

/-- A stretch that comes after an append. -/
theorem Appends.of_append {g : Gen σ o ε} {s₀ s₁ : σ} {before xs : List α}
    (hf : f s₁ = f s₀ ++ before) (h : g.Appends f s₁ xs) : g.Appends f s₀ (before ++ xs) := by
  cases g with
  | done s => exact (h.trans (by rw [hf])).trans (List.append_assoc ..)
  | raised e s => exact (h.trans (by rw [hf])).trans (List.append_assoc ..)
  | yielded out s onClose resume =>
      obtain ⟨now, later, rfl, hs, hlater⟩ := h
      refine ⟨before ++ now, later, (List.append_assoc ..).symm, ?_, hlater⟩
      rw [hs, hf, List.append_assoc]

/-- A stretch that comes after a change of something else. -/
theorem Appends.of_eq {g : Gen σ o ε} {s₀ s₁ : σ} {xs : List α} (hf : f s₁ = f s₀)
    (h : g.Appends f s₁ xs) : g.Appends f s₀ xs :=
  h.of_append (hf.trans (List.append_nil _).symm)

/-- Alone and not closed, that is what the log has grown by. -/
theorem Appends.consume {g : Gen σ o ε} {s₀ : σ} {xs : List α} (h : g.Appends f s₀ xs)
    (k : ℕ) : f (g.consume (fun _ => id) (fun _ => false) k).2.2 = f s₀ ++ xs := by
  induction g generalizing s₀ xs k with
  | done s => exact h
  | raised e s => exact h
  | yielded out s onClose resume ih =>
      obtain ⟨now, later, rfl, hs, hlater⟩ := h
      rw [← List.append_assoc, ← hs]
      exact ih s (hlater s) (k + 1)

/-- So there is only one such list. -/
theorem Appends.unique {g : Gen σ o ε} {s₀ : σ} {xs ys : List α} (h : g.Appends f s₀ xs)
    (h' : g.Appends f s₀ ys) : xs = ys :=
  List.append_cancel_left ((h.consume 0).symm.trans (h'.consume 0))

end Log

/-! ## §3  Resources -/

section Resources

variable {τ : Type} [DecidableEq τ] (f : τ → σ → ℕ)

/-- How many units of `u` a holder has: one of the resource it holds, if any. -/
def held (holder : Option τ) (u : τ) : ℕ := if holder = some u then 1 else 0

/-- From `s₀` to `s` the counts change as when a holder goes from `before` to `after`. -/
def Moves (before after : Option τ) (s₀ s : σ) : Prop :=
  ∀ u, f u s + held before u = f u s₀ + held after u

/-- A stretch that starts in `s₀` with `before` keeps the counts: the generator holds
`holder` at every yield and nothing once ended or closed. -/
def Counts (holder : Option τ) (before : Option τ) (s₀ : σ) : Gen σ o ε → Prop
  | done s => Moves f before none s₀ s
  | raised _ s => Moves f before none s₀ s
  | yielded _ s onClose resume =>
      Moves f before holder s₀ s ∧
      ∀ s', (∀ u, held holder u ≤ f u s') →
        Moves f holder none s' (onClose s') ∧ Counts holder holder s' (resume s')

variable {f}

theorem Moves.trans {a b c : Option τ} {s₀ s₁ s₂ : σ} (h₁ : Moves f a b s₀ s₁)
    (h₂ : Moves f b c s₁ s₂) : Moves f a c s₀ s₂ := by
  intro u
  have := h₁ u
  have := h₂ u
  omega

/-- A stretch that comes after a move. -/
theorem Counts.of_moves {holder a b : Option τ} {s₀ s₁ : σ} {g : Gen σ o ε}
    (hm : Moves f a b s₀ s₁) (h : Counts f holder b s₁ g) : Counts f holder a s₀ g := by
  cases g with
  | done s => exact hm.trans h
  | raised e s => exact hm.trans h
  | yielded out s onClose resume => exact ⟨hm.trans h.1, h.2⟩

/-- Alone, a generator leaves the counts as they were, wherever it is closed. -/
theorem Counts.consume {holder before : Option τ} {s₀ : σ} {g : Gen σ o ε}
    (h : Counts f holder before s₀ g) (hpre : ∀ u, held before u ≤ f u s₀)
    (closeAt : ℕ → Bool) (k : ℕ) :
    Moves f before none s₀ (g.consume (fun _ => id) closeAt k).2.2 := by
  induction g generalizing before s₀ k with
  | done s => exact h
  | raised e s => exact h
  | yielded out s onClose resume ih =>
      obtain ⟨hs, hnext⟩ := h
      have hheld : ∀ u, held holder u ≤ f u s := by
        intro u
        have := hs u
        have := hpre u
        omega
      obtain ⟨hclose, hresume⟩ := hnext s hheld
      rw [Gen.consume]
      split
      · exact hs.trans hclose
      · exact hs.trans (ih s hresume hheld (k + 1))

/-! ## §4  Many generators -/

/-- A suspended generator. -/
structure Live (σ o ε τ : Type) where
  holder : Option τ
  onClose : σ → σ
  resume : σ → Gen σ o ε

/-- What a stretch leaves among the suspended generators. -/
def Live.after (holder : Option τ) : Gen σ o ε → List (Live σ o ε τ)
  | done _ => []
  | raised _ _ => []
  | yielded _ _ onClose resume => [⟨holder, onClose, resume⟩]

variable (f) in
/-- One step of a program of generators: a new one starts, a suspended one goes on or
is closed, or something that leaves the counts alone happens. -/
inductive PoolStep (start : Option τ → σ → Gen σ o ε → Prop) :
    σ × List (Live σ o ε τ) → σ × List (Live σ o ε τ) → Prop where
  | start {s : σ} {live : List (Live σ o ε τ)} {holder : Option τ} {g : Gen σ o ε}
      (h : start holder s g) :
      PoolStep start (s, live) (g.state, live ++ Live.after holder g)
  | resume {s : σ} {l₁ l₂ : List (Live σ o ε τ)} {x : Live σ o ε τ} :
      PoolStep start (s, l₁ ++ x :: l₂)
        ((x.resume s).state, l₁ ++ Live.after x.holder (x.resume s) ++ l₂)
  | close {s : σ} {l₁ l₂ : List (Live σ o ε τ)} {x : Live σ o ε τ} :
      PoolStep start (s, l₁ ++ x :: l₂) (x.onClose s, l₁ ++ l₂)
  | other {s s' : σ} {live : List (Live σ o ε τ)} (h : ∀ u, f u s' = f u s) :
      PoolStep start (s, live) (s', live)

/-- The count of each resource is the number of suspended generators that hold it. -/
structure Counted (p : σ × List (Live σ o ε τ)) : Prop where
  count : ∀ u, f u p.1 = (p.2.map fun x => held x.holder u).sum
  counts : ∀ x ∈ p.2, ∀ s, (∀ u, held x.holder u ≤ f u s) →
    Moves f x.holder none s (x.onClose s) ∧ Counts f x.holder x.holder s (x.resume s)

/-- The stretch moves the counts by what it leaves suspended. -/
theorem Counts.state {holder before : Option τ} {s₀ : σ} {g : Gen σ o ε}
    (h : Counts f holder before s₀ g) (u : τ) :
    f u g.state + held before u =
      f u s₀ + ((Live.after holder g).map fun x => held x.holder u).sum := by
  cases g with
  | done s => simpa [Live.after, held, Gen.state] using h u
  | raised e s => simpa [Live.after, held, Gen.state] using h u
  | yielded out s onClose resume => simpa [Live.after, Gen.state] using h.1 u

theorem Counts.after {holder before : Option τ} {s₀ : σ} {g : Gen σ o ε}
    (h : Counts f holder before s₀ g) :
    ∀ x ∈ Live.after holder g, ∀ s, (∀ u, held x.holder u ≤ f u s) →
      Moves f x.holder none s (x.onClose s) ∧ Counts f x.holder x.holder s (x.resume s) := by
  intro x hx
  cases g with
  | done s => cases hx
  | raised e s => cases hx
  | yielded out s onClose resume =>
      rw [Live.after, List.mem_singleton] at hx
      subst hx
      exact h.2

theorem Counted.step {start : Option τ → σ → Gen σ o ε → Prop}
    (hstart : ∀ holder s g, start holder s g → Counts f holder none s g)
    {p p' : σ × List (Live σ o ε τ)} (h : Counted (f := f) p) (hs : PoolStep f start p p') :
    Counted (f := f) p' := by
  cases hs with
  | @start s live holder g hg =>
      have hc := hstart holder s g hg
      refine ⟨fun u => ?_, fun x hx => ?_⟩
      · have hu := hc.state u
        have hcount := h.count u
        simp only [held, reduceCtorEq, if_false, Nat.add_zero] at hu hcount
        simp only [List.map_append, List.sum_append]
        unfold held
        omega
      · rcases List.mem_append.mp hx with hx | hx
        · exact h.counts x hx
        · exact hc.after x hx
  | @resume s l₁ l₂ x =>
      have hx : x ∈ l₁ ++ x :: l₂ := List.mem_append_right _ List.mem_cons_self
      have hheld : ∀ u, held x.holder u ≤ f u s := by
        intro u
        have := h.count u
        simp only [List.map_append, List.map_cons, List.sum_append, List.sum_cons] at this
        omega
      have hc := (h.counts x hx s hheld).2
      refine ⟨fun u => ?_, fun y hy => ?_⟩
      · have := h.count u
        have := hc.state u
        simp only [List.map_append, List.map_cons, List.sum_append, List.sum_cons] at *
        omega
      · rcases List.mem_append.mp hy with hy | hy
        · rcases List.mem_append.mp hy with hy | hy
          · exact h.counts y (List.mem_append_left _ hy)
          · exact hc.after y hy
        · exact h.counts y (List.mem_append_right _ (List.mem_cons_of_mem _ hy))
  | @close s l₁ l₂ x =>
      have hx : x ∈ l₁ ++ x :: l₂ := List.mem_append_right _ List.mem_cons_self
      have hheld : ∀ u, held x.holder u ≤ f u s := by
        intro u
        have := h.count u
        simp only [List.map_append, List.map_cons, List.sum_append, List.sum_cons] at this
        omega
      have hc := (h.counts x hx s hheld).1
      refine ⟨fun u => ?_, fun y hy => ?_⟩
      · have := h.count u
        have hm := hc u
        have hnone : held (none : Option τ) u = 0 := rfl
        simp only [List.map_append, List.map_cons, List.sum_append, List.sum_cons] at *
        omega
      · rcases List.mem_append.mp hy with hy | hy
        · exact h.counts y (List.mem_append_left _ hy)
        · exact h.counts y (List.mem_append_right _ (List.mem_cons_of_mem _ hy))
  | other hf => exact ⟨fun u => (hf u).trans (h.count u), h.counts⟩

end Resources

end Gen

end TurboServe.Lib
