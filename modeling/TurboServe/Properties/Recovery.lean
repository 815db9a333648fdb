import TurboServe.Gateway.Health
import TurboServe.Gateway.Routing

/-!
# A failed replica stays out

After a transport failure no call gets the replica until a probe that began after the
failure has found it healthy, as long as no older probe's verdict brings it back.
-/

namespace TurboServe.Gateway

open TurboServe.Lib

namespace Health

/-- After place `n` a probe of the replica began, and it was positive. -/
def Proven (log : List HealthEvent) (n : ℕ) (name : String) : Prop :=
  ∃ b v : ℕ, n < b ∧ log[b]? = some (.probed name) ∧
    log[v]? = some (HealthEvent.verdict b name true)

/-- No call gets a replica between its failure and the positive verdict of a probe that
began after the failure. -/
def SafeReturns (log : List HealthEvent) : Prop :=
  ∀ (n m : ℕ) (name : String), log[n]? = some (.failed name) → log[m]? = some (.returned name) → n < m →
    Proven (log.take m) n name

/-- What brings a replica back: each of its failures came before the probe whose verdict
this is, or has been made up for by another probe. -/
def Timely (s : Health) : Input → Prop
  | .verdict i true _ => ∀ r, s.refreshes[i]? = some r → ∀ n,
      s.log[n]? = some (.failed r.name) → n < r.begun ∨ Proven s.log n r.name
  | _ => True

/-! ## §1  Logs -/

variable {log : List HealthEvent} {x y : HealthEvent} {n : ℕ} {name : String}

theorem getElem?_snoc (h : (log ++ [x])[n]? = some y) :
    log[n]? = some y ∨ n = log.length ∧ x = y := by
  rw [List.getElem?_append] at h
  split at h
  · exact Or.inl h
  · next hn =>
      have hlen : n - log.length = 0 := by
        by_contra hne
        rw [List.getElem?_eq_none (by simp; omega)] at h
        cases h
      rw [hlen] at h
      exact Or.inr ⟨by omega, Option.some.inj h⟩

theorem getElem?_snoc_of (h : log[n]? = some y) : (log ++ [x])[n]? = some y := by
  rw [List.getElem?_append_left (List.getElem?_eq_some_iff.mp h).1]
  exact h

theorem Proven.snoc (h : Proven log n name) : Proven (log ++ [x]) n name := by
  obtain ⟨b, v, hn, hb, hv⟩ := h
  exact ⟨b, v, hn, getElem?_snoc_of hb, getElem?_snoc_of hv⟩

theorem SafeReturns.snoc (h : SafeReturns log)
    (hx : ∀ name, x = .returned name → ∀ n, log[n]? = some (.failed name) →
      Proven log n name) : SafeReturns (log ++ [x]) := by
  intro n m name hn hm hlt
  rcases getElem?_snoc hm with hm | ⟨rfl, rfl⟩
  · have hlen : m < log.length := (List.getElem?_eq_some_iff.mp hm).1
    rw [List.take_append_of_le_length hlen.le]
    rcases getElem?_snoc hn with hn | ⟨rfl, -⟩
    · exact h n m name hn hm hlt
    · omega
  · rw [List.take_left]
    rcases getElem?_snoc hn with hn | ⟨rfl, -⟩
    · exact hx name rfl n hn
    · omega

/-! ## §2  The invariant -/

structure Sound (s : Health) : Prop where
  proven : ∀ e ∈ s.pool.entries, e.healthy = true → ∀ n,
    s.log[n]? = some (.failed e.name) → Proven s.log n e.name
  begun : ∀ r ∈ s.refreshes, s.log[r.begun]? = some (.probed r.name)
  safe : SafeReturns s.log

variable {s : Health} {ttl : ℚ}

/-- A step that logs `x`. A replica that is healthy after it was so before and has not
failed now, or is proven. -/
theorem Sound.snoc (h : s.Sound) {pool : ModelPool} {refreshes : List Refresh}
    (hpool : ∀ e ∈ pool.entries, e.healthy = true →
      (x ≠ .failed e.name ∧ ∃ e₀ ∈ s.pool.entries, e₀.healthy = true ∧ e₀.name = e.name) ∨
        ∀ n, (s.log ++ [x])[n]? = some (.failed e.name) → Proven (s.log ++ [x]) n e.name)
    (hrefreshes : ∀ r ∈ refreshes,
      r ∈ s.refreshes ∨ (s.log ++ [x])[r.begun]? = some (.probed r.name))
    (hx : ∀ name, x = .returned name → ∀ n, s.log[n]? = some (.failed name) →
      Proven s.log n name) : Sound ⟨pool, refreshes, s.log ++ [x]⟩ := by
  constructor
  · intro e he hhealthy n hn
    rcases hpool e he hhealthy with ⟨hne, e₀, he₀, hhealthy₀, hname⟩ | hproven
    · rcases getElem?_snoc hn with hn | ⟨-, hx'⟩
      · rw [← hname] at hn ⊢
        exact (h.proven e₀ he₀ hhealthy₀ n hn).snoc
      · exact absurd hx' hne
    · exact hproven n hn
  · intro r hr
    rcases hrefreshes r hr with hr | hr
    · exact getElem?_snoc_of (h.begun r hr)
    · exact hr
  · exact h.safe.snoc hx

theorem Sound.probe (h : s.Sound) (now : ℚ) (purpose : Purpose) (name : String)
    (rest : List String) : (s.probe now purpose name rest).Sound := by
  refine h.snoc (fun e he hhealthy => Or.inl ⟨nofun, e, he, hhealthy, rfl⟩) ?_ nofun
  intro r hr
  rcases List.mem_append.mp hr with hr | hr
  · exact Or.inl hr
  · obtain rfl := List.mem_singleton.mp hr
    exact Or.inr List.getElem?_concat_length

/-- A selected replica is healthy, and so proven. -/
theorem Sound.choose (h : s.Sound) (o : Outside) (purpose : Purpose) :
    (s.choose o purpose).Sound := by
  cases purpose with
  | report => exact h
  | select lane exclude =>
      simp only [Health.choose]
      split
      · next e he =>
          obtain ⟨l, hl⟩ := Request.mem_candidates_of_selectFrom he
          obtain ⟨hmem, hcond⟩ := List.mem_filter.mp hl
          rw [decide_eq_true_eq] at hcond
          refine h.snoc (fun e he hhealthy => Or.inl ⟨nofun, e, he, hhealthy, rfl⟩)
            (fun r hr => Or.inl hr) ?_
          rintro name ⟨rfl⟩ n hn
          exact h.proven e hmem hcond.2.1 n hn
      · exact h

theorem Sound.proceed (h : s.Sound) (o : Outside) (now : ℚ) (purpose : Purpose)
    (names : List String) : (s.proceed ttl o now purpose names).Sound := by
  unfold Health.proceed
  split
  · exact h.probe now purpose _ _
  · exact h.choose o purpose

/-- Entries after a change of the ones of one name. -/
theorem mem_updateNamed {p : ModelPool} {f : BackendEntry → BackendEntry}
    (hf : ∀ e, (f e).name = e.name) {e : BackendEntry}
    (he : e ∈ (p.updateNamed name f hf).entries) :
    ∃ e₀ ∈ p.entries, e₀.name = e.name ∧
      (e.name = name ∧ e = f e₀ ∨ e.name ≠ name ∧ e = e₀) := by
  obtain ⟨e₀, he₀, rfl⟩ := List.mem_map.mp he
  by_cases hname : e₀.name = name
  · refine ⟨e₀, he₀, ?_⟩
    rw [if_pos hname, hf]
    exact ⟨rfl, Or.inl ⟨hname, rfl⟩⟩
  · refine ⟨e₀, he₀, ?_⟩
    rw [if_neg hname]
    exact ⟨rfl, Or.inr ⟨hname, rfl⟩⟩

theorem Sound.applyVerdict (h : s.Sound) {i : ℕ} {r : Refresh} {healthy : Bool}
    (hr : s.refreshes[i]? = some r)
    (htimely : healthy = true → ∀ n, s.log[n]? = some (.failed r.name) →
      n < r.begun ∨ Proven s.log n r.name) :
    (s.applyVerdict i r healthy).Sound := by
  have hbegun := h.begun r (List.mem_of_getElem? hr)
  refine h.snoc ?_ (fun r' hr' => Or.inl (List.mem_of_mem_eraseIdx hr')) nofun
  intro e he hhealthy
  obtain ⟨e₀, he₀, hname, ⟨hthis, rfl⟩ | ⟨-, rfl⟩⟩ := mem_updateNamed _ he
  · -- the verdict is of this replica, so it is positive
    obtain rfl : healthy = true := hhealthy
    refine Or.inr fun n hn => ?_
    rcases getElem?_snoc hn with hn | ⟨-, hx⟩
    · rw [hthis] at hn ⊢
      rcases htimely rfl n hn with hlt | hproven
      · exact ⟨r.begun, s.log.length, hlt, getElem?_snoc_of hbegun,
          List.getElem?_concat_length⟩
      · exact hproven.snoc
    · cases hx
  · exact Or.inl ⟨nofun, e, he₀, hhealthy, rfl⟩

theorem Sound.markFailure (h : s.Sound) (name : String) (exc : BackendError) (at_ : ℚ) :
    (s.markFailure name exc at_).Sound := by
  unfold Health.markFailure
  split
  · exact h
  · refine h.snoc ?_ (fun r hr => Or.inl hr) nofun
    intro e he hhealthy
    obtain ⟨e₀, he₀, -, ⟨-, rfl⟩ | ⟨hother, rfl⟩⟩ := mem_updateNamed _ he
    · cases hhealthy
    · exact Or.inl ⟨fun hx => hother (HealthEvent.failed.inj hx).symm, e, he₀, hhealthy, rfl⟩

/-- Counting what a replica served changes nothing. -/
theorem Sound.count (h : s.Sound) (name : String) {f : BackendEntry → BackendEntry}
    (hf : ∀ e, (f e).name = e.name) (hhealthy : ∀ e, (f e).healthy = e.healthy) :
    Sound { s with pool := s.pool.updateNamed name f hf } := by
  refine ⟨?_, h.begun, h.safe⟩
  intro e he hup n hn
  obtain ⟨e₀, he₀, hname, ⟨-, rfl⟩ | ⟨-, rfl⟩⟩ := mem_updateNamed hf he
  · rw [hhealthy] at hup
    rw [hf] at hn ⊢
    exact h.proven e₀ he₀ hup n hn
  · exact h.proven e he₀ hup n hn

/-- The step lemma. -/
theorem Sound.step (h : s.Sound) {input : Input} (htimely : s.Timely input) :
    (s.step ttl input).Sound := by
  cases input with
  | refresh o purpose => exact h.proceed o o.now purpose _
  | verdict i healthy o =>
      simp only [Health.step]
      split
      · next r hr =>
          refine (h.applyVerdict hr ?_).proceed o r.now r.purpose r.rest
          rintro rfl
          exact htimely r hr
      · exact h
  | cancel i =>
      exact ⟨h.proven, fun r hr => h.begun r (List.mem_of_mem_eraseIdx hr), h.safe⟩
  | failure name exc at_ => exact h.markFailure name exc at_
  | call name => exact h.count name _ fun _ => rfl
  | complete name => exact h.count name _ fun _ => rfl

theorem sound_start (pool : ModelPool) : (start pool).Sound :=
  ⟨fun _ _ _ _ hn => (nomatch hn), fun _ hr => (nomatch hr), fun _ _ _ hn => (nomatch hn)⟩

end Health

/-! ## §3  Runs -/

/-- In a run whose positive verdicts are all timely, a replica that failed stays out until
it is proven healthy again. -/
theorem failed_stays_out (ttl : ℚ) (s : Health)
    (h : (healthRuns ttl Health.Timely).Reachable s) : Health.SafeReturns s.log := by
  have hinv : (healthRuns ttl Health.Timely).Invariant Health.Sound := by
    constructor
    · rintro s ⟨pool, rfl⟩
      exact Health.sound_start pool
    · rintro s s' - hs ⟨input, htimely, rfl⟩
      exact hs.step htimely
  exact (hinv.reachable h).safe

namespace Health

/-- One replica, never probed. -/
def single : ModelPool := ⟨"m", [{ name := "a" }], by decide⟩

def asked (now : ℚ) : Outside where
  now := now
  meanwhile := id
  probe := fun _ => true
  canaryWeight := none
  laneDraw := 0
  replicaDraw := 0
  failedAt := now
  firstAt := now
  endedAt := now

def refused : BackendError := { cls := .unavailable, message := "connection refused" }

/-- A failure, and a probe that begins once its verdict has expired. -/
def recovery : List Input :=
  [.refresh (asked 0) .report, .failure "a" refused 1, .refresh (asked 7) (.select none []),
    .cancel 0, .verdict 0 true (asked 7)]

/-- The only refresh in flight probes a replica that has not failed since. -/
theorem timely_of_begun {s : Health} (begun : ℕ) (hbegun : s.refreshes.map (·.begun) = [begun])
    (h : ∀ name, .failed name ∉ s.log.drop begun) (o : Outside) :
    s.Timely (.verdict 0 true o) := by
  intro r hr n hn
  left
  have hr' : r.begun = begun := by
    have hmap := congrArg (·[0]?) hbegun
    rw [List.getElem?_map, hr] at hmap
    exact Option.some.inj hmap
  by_contra hle
  rw [hr', not_lt] at hle
  refine h r.name (List.mem_of_getElem? (i := n - begun) ?_)
  rw [List.getElem?_drop, Nat.add_sub_cancel' hle]
  exact hn

/-- What the calls up to input number `k` leave. -/
def upTo (inputs : List Input) (k : ℕ) : Health :=
  (inputs.take k).foldl (fun s input => s.step 5 input) (start single)

/-- Two calls probe at once; the request of the faster one fails before the verdict of
the slower one, which returns the replica. -/
def slowProbe : List Input :=
  [.refresh (asked 0) (.select none []), .refresh (asked 0) (.select none []),
    .verdict 1 true (asked 0), .failure "a" refused 1, .verdict 0 true (asked 0)]

end Health

/-- The replica that failed is returned again once a later probe found it healthy. -/
theorem failed_stays_out_recovered :
    (Health.upTo Health.recovery 5).log = [.probed "a", .failed "a", .probed "a",
        .verdict 2 "a" true, .returned "a"] ∧
      Health.SafeReturns (Health.upTo Health.recovery 5).log := by
  refine ⟨by decide +kernel, failed_stays_out 5 _ ?_⟩
  have h₀ : (healthRuns 5 Health.Timely).Reachable (Health.upTo Health.recovery 0) :=
    .init ⟨Health.single, rfl⟩
  have h₁ : (healthRuns 5 Health.Timely).Reachable (Health.upTo Health.recovery 1) :=
    .step h₀ ⟨.refresh (Health.asked 0) .report, trivial, rfl⟩
  have h₂ : (healthRuns 5 Health.Timely).Reachable (Health.upTo Health.recovery 2) :=
    .step h₁ ⟨.failure "a" Health.refused 1, trivial, rfl⟩
  have h₃ : (healthRuns 5 Health.Timely).Reachable (Health.upTo Health.recovery 3) :=
    .step h₂ ⟨.refresh (Health.asked 7) (.select none []), trivial, rfl⟩
  have h₄ : (healthRuns 5 Health.Timely).Reachable (Health.upTo Health.recovery 4) :=
    .step h₃ ⟨.cancel 0, trivial, rfl⟩
  refine .step h₄ ⟨.verdict 0 true (Health.asked 7), ?_, rfl⟩
  refine Health.timely_of_begun 2 (by decide +kernel) ?_ _
  have hlog : (Health.upTo Health.recovery 4).log.drop 2 = [.probed "a"] := by decide +kernel
  rw [hlog]
  simp

/-- A slow probe that began before the failure brings the replica back. -/
theorem failed_comes_back :
    ¬ ∀ (ttl : ℚ) (s : Health), (healthRuns ttl fun _ _ => True).Reachable s →
      Health.SafeReturns s.log := by
  intro h
  have hreach : (healthRuns 5 fun _ _ => True).Reachable (Health.upTo Health.slowProbe 5) :=
    healthRuns_foldl (fun _ _ => trivial) (.init ⟨Health.single, rfl⟩) Health.slowProbe
  have hlog : (Health.upTo Health.slowProbe 5).log = [.probed "a", .probed "a",
      .verdict 1 "a" true, .returned "a", .failed "a", .verdict 0 "a" true,
      .returned "a"] := by decide +kernel
  have hsafe := h 5 _ hreach
  rw [hlog] at hsafe
  obtain ⟨b, v, hn, hb, -⟩ := hsafe 4 6 "a" rfl rfl (by decide)
  have hlt : b < 6 := (List.getElem?_eq_some_iff.mp hb).1
  obtain rfl : b = 5 := by omega
  cases hb

end TurboServe.Gateway
