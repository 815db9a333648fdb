import TurboServe.Gateway.Limits
import TurboServe.Lib.TokenFlow

/-!
# Rate limits

What a refused request leaves behind, how many requests a window admits, and when the
wait of a refusal is long enough.
-/

namespace TurboServe.Gateway

open TurboServe.Lib

/-! ## §1  Buckets -/

namespace TokenBucket

variable {b : TokenBucket}

/-- A bucket as a flow. -/
def flow (b : TokenBucket) : Flow ℚ := ⟨b.level, b.updated⟩

@[simp] theorem flow_refill (now : ℚ) :
    (b.refill now).flow = b.flow.advance b.capacity b.refillPerSecond now := by
  unfold refill flow Flow.advance
  by_cases h : b.updated < now
  · rw [if_pos (sub_pos.mpr h), if_pos h]
  · rw [if_neg (not_lt.mpr (sub_nonpos.mpr (not_lt.mp h))), if_neg h]

theorem flow_charge (amount now : ℚ) :
    (b.charge amount now).flow = ⟨(b.refill now).level - amount, (b.refill now).updated⟩ :=
  rfl

theorem updated_charge (amount now : ℚ) :
    (b.charge amount now).updated = (b.refill now).updated := rfl

theorem level_refill_le (h : b.level ≤ b.capacity) (now : ℚ) :
    (b.refill now).level ≤ b.capacity := by
  unfold refill
  split
  · exact min_le_left _ _
  · exact h

/-- Reading the level on the way changes nothing. -/
theorem refill_refill {s t : ℚ} (h : s ≤ t) : (b.refill s).refill t = b.refill t := by
  by_cases hs : s ≤ b.updated
  · rw [refill_of_le _ hs]
  · rw [not_le] at hs
    rcases h.eq_or_lt with rfl | hst
    · exact refill_of_le _ (by rw [updated_refill]; exact le_max_right _ _)
    · have hin : 0 ≤ (t - s) * b.refillPerSecond :=
        mul_nonneg (sub_nonneg.mpr h) b.refillPerSecond_pos.le
      have hlevel : min b.capacity (min b.capacity
            (b.level + (s - b.updated) * b.refillPerSecond) + (t - s) * b.refillPerSecond) =
          min b.capacity (b.level + (t - b.updated) * b.refillPerSecond) := by
        rw [← min_add_add_right, ← min_assoc, min_eq_left (le_add_of_nonneg_right hin)]
        ring_nf
      simp only [refill, if_pos (sub_pos.mpr hs), if_pos (sub_pos.mpr hst),
        if_pos (sub_pos.mpr (hs.trans hst)), hlevel]

/-- From `now`, when what lacks of `amount` has flowed in. -/
def recovery (b : TokenBucket) (amount now : ℚ) : ℚ :=
  (b.refill now).updated - now + (amount - (b.refill now).level) / b.refillPerSecond

/-- A bucket holds an amount later if it holds it already, or if the amount fits and the
bucket has recovered by then. -/
theorem le_level_refill_iff (hb : b.level ≤ b.capacity) {s t amount : ℚ} (hst : s ≤ t) :
    amount ≤ (b.refill t).level ↔
      amount ≤ (b.refill s).level ∨ amount ≤ b.capacity ∧ b.recovery amount s ≤ t - s := by
  have hlevel : (b.refill s).level ≤ b.capacity := level_refill_le hb s
  have hrate : 0 < b.refillPerSecond := b.refillPerSecond_pos
  rw [← refill_refill hst, recovery, ← capacity_refill b s, ← refillPerSecond_refill b s]
  rw [← capacity_refill b s] at hlevel
  rw [← refillPerSecond_refill b s] at hrate
  generalize b.refill s = g at hlevel hrate
  have hrecover : g.updated - s + (amount - g.level) / g.refillPerSecond ≤ t - s ↔
      amount ≤ g.level + (t - g.updated) * g.refillPerSecond := by
    rw [show g.updated - s + (amount - g.level) / g.refillPerSecond ≤ t - s ↔
      (amount - g.level) / g.refillPerSecond ≤ t - g.updated by constructor <;> intro h <;>
        linarith, div_le_iff₀ hrate, sub_le_iff_le_add']
  rw [hrecover]
  by_cases hlt : g.updated < t
  · have hin : 0 ≤ (t - g.updated) * g.refillPerSecond :=
      mul_nonneg (sub_nonneg.mpr hlt.le) hrate.le
    rw [refill, if_pos (sub_pos.mpr hlt), le_min_iff]
    constructor
    · exact Or.inr
    · rintro (h | h)
      · exact ⟨h.trans hlevel, h.trans (le_add_of_nonneg_right hin)⟩
      · exact h
  · rw [refill_of_le _ (not_lt.mp hlt)]
    constructor
    · exact Or.inl
    · rintro (h | ⟨-, h⟩)
      · exact h
      · have hout : (t - g.updated) * g.refillPerSecond ≤ 0 :=
          mul_nonpos_of_nonpos_of_nonneg (sub_nonpos.mpr (not_lt.mp hlt)) hrate.le
        exact h.trans (add_le_of_nonpos_right hout)

/-- The wait for a lacking amount is enough for the bucket if it has seen no later time
and the amount fits. -/
theorem le_level_wait_iff (hb : b.level ≤ b.capacity) {now amount : ℚ}
    (h : (b.refill now).level < amount) :
    amount ≤ (b.refill (now + (amount - (b.refill now).level) / b.refillPerSecond)).level ↔
      b.updated ≤ now ∧ amount ≤ b.capacity := by
  have hpos : 0 < (amount - (b.refill now).level) / b.refillPerSecond :=
    div_pos (sub_pos.mpr h) b.refillPerSecond_pos
  rw [le_level_refill_iff hb (le_add_of_nonneg_right hpos.le), recovery, updated_refill,
    add_sub_cancel_left, add_le_iff_nonpos_left, sub_nonpos, max_le_iff]
  constructor
  · rintro (hle | ⟨hcap, hup, -⟩)
    · exact absurd hle (not_le.mpr h)
    · exact ⟨hup, hcap⟩
  · rintro ⟨hup, hcap⟩
    exact Or.inr ⟨hcap, hup, le_rfl⟩

/-- The wait, of a bucket whose level has just been read. -/
theorem retryAfter_refill {amount now : ℚ} (h : (b.refill now).level < amount) :
    (b.refill now).retryAfter amount now =
      (amount - (b.refill now).level) / b.refillPerSecond := by
  unfold retryAfter
  rw [refill_refill le_rfl, if_neg (not_le.mpr (sub_pos.mpr h)), refillPerSecond_refill]

end TokenBucket

/-! ## §2  A check -/

namespace RequestLimiter

variable {l : RequestLimiter} {promptTokens : ℕ} {now : ℚ}

def RpmShort (l : RequestLimiter) (now : ℚ) : Prop :=
  ∃ b ∈ l.rpm, (b.refill now).level < 1

def TpmShort (l : RequestLimiter) (promptTokens : ℕ) (now : ℚ) : Prop :=
  0 < promptTokens ∧ ∃ b ∈ l.tpm, (b.refill now).level < promptTokens

@[simp] theorem rpm_readRpm : (l.readRpm now).rpm = l.rpm.map (·.refill now) := rfl

@[simp] theorem tpm_readRpm : (l.readRpm now).tpm = l.tpm := rfl

@[simp] theorem rpm_readTpm : (l.readTpm promptTokens now).rpm = l.rpm := by
  unfold readTpm
  split <;> rfl

theorem tpm_readTpm : (l.readTpm promptTokens now).tpm =
    if 0 < promptTokens then l.tpm.map (·.refill now) else l.tpm := by
  unfold readTpm
  split <;> rfl

/-- The three ways a check ends. -/
theorem checkRequest_cases (l : RequestLimiter) (promptTokens : ℕ) (now : ℚ) :
    (∃ b ∈ l.rpm, (b.refill now).level < 1 ∧
      l.checkRequest promptTokens now =
        (l.readRpm now).refuse .rpm ((b.refill now).retryAfter 1 now) l.tenant.rpm) ∨
    (¬ l.RpmShort now ∧ 0 < promptTokens ∧
      ∃ b ∈ l.tpm, (b.refill now).level < promptTokens ∧
        l.checkRequest promptTokens now =
          ((l.readRpm now).readTpm promptTokens now).refuse .tpm
            ((b.refill now).retryAfter promptTokens now) l.tenant.tpm) ∨
    (¬ l.RpmShort now ∧ ¬ l.TpmShort promptTokens now ∧
      l.checkRequest promptTokens now =
        (.ok (), ((l.readRpm now).readTpm promptTokens now).admittedRequest promptTokens now)) := by
  generalize hres : l.checkRequest promptTokens now = res
  unfold checkRequest at hres
  dsimp only at hres
  split at hres
  · next b hb =>
      obtain ⟨hmem, hlt⟩ := Option.filter_eq_some_iff.mp hb
      obtain ⟨b₀, hb₀, rfl⟩ := Option.map_eq_some_iff.mp hmem
      exact Or.inl ⟨b₀, hb₀, of_decide_eq_true hlt, hres.symm⟩
  · next hnone =>
      have hrpm : ¬ l.RpmShort now := by
        rintro ⟨b, hb, hlt⟩
        have hmem : b.refill now ∈ (l.readRpm now).rpm := Option.mem_map_of_mem _ hb
        exact absurd (decide_eq_true hlt) (Option.filter_eq_none_iff.mp hnone _ hmem)
      split at hres
      · next b hb =>
          obtain ⟨hmem, hlt⟩ := Option.filter_eq_some_iff.mp hb
          have hshort := of_decide_eq_true hlt
          rw [tpm_readTpm, if_pos hshort.1] at hmem
          obtain ⟨b₀, hb₀, rfl⟩ := Option.map_eq_some_iff.mp hmem
          rw [← hres]
          refine Or.inr (Or.inl ⟨hrpm, hshort.1, b₀, hb₀, hshort.2, ?_⟩)
          unfold readTpm
          rw [if_pos hshort.1]
          rfl
      · next hnone' =>
          refine Or.inr (Or.inr ⟨hrpm, ?_, hres.symm⟩)
          rintro ⟨hpos, b, hb, hlt⟩
          have hmem : b.refill now ∈ ((l.readRpm now).readTpm promptTokens now).tpm := by
            rw [tpm_readTpm, if_pos hpos]
            exact Option.mem_map_of_mem _ hb
          exact absurd (decide_eq_true ⟨hpos, hlt⟩)
            (Option.filter_eq_none_iff.mp hnone' _ hmem)

/-- A refusal reads levels and debits nothing. -/
theorem refused_buckets {e : RateLimitExceeded}
    (h : (l.checkRequest promptTokens now).1 = .error e) :
    (l.checkRequest promptTokens now).2.rpm = l.rpm.map (·.refill now) ∧
      ((l.checkRequest promptTokens now).2.tpm = l.tpm ∨
        (l.checkRequest promptTokens now).2.tpm = l.tpm.map (·.refill now)) := by
  rcases checkRequest_cases l promptTokens now with
    ⟨b, -, -, hres⟩ | ⟨-, hpos, b, -, -, hres⟩ | ⟨-, -, hres⟩
  · rw [hres]
    exact ⟨rfl, Or.inl rfl⟩
  · rw [hres]
    constructor
    · exact rpm_readTpm
    · exact Or.inr (tpm_readTpm.trans (if_pos hpos))
  · rw [hres] at h
    cases h

/-- So that each bucket is, at that time, what a refill makes of it. -/
theorem refused_refill {e : RateLimitExceeded}
    (h : (l.checkRequest promptTokens now).1 = .error e) :
    (l.checkRequest promptTokens now).2.rpm.map (·.refill now) =
        l.rpm.map (·.refill now) ∧
      (l.checkRequest promptTokens now).2.tpm.map (·.refill now) =
        l.tpm.map (·.refill now) := by
  have htwice : ∀ o : Option TokenBucket,
      (o.map (·.refill now)).map (·.refill now) = o.map (·.refill now) := by
    intro o
    rw [Option.map_map]
    exact congrArg (o.map ·) (funext fun b => b.refill_refill le_rfl)
  obtain ⟨hrpm, htpm⟩ := refused_buckets h
  constructor
  · rw [hrpm, htwice]
  · rcases htpm with htpm | htpm
    · rw [htpm]
    · rw [htpm, htwice]

theorem checkRequest_ok_iff : (l.checkRequest promptTokens now).1 = .ok () ↔
    ¬ l.RpmShort now ∧ ¬ l.TpmShort promptTokens now := by
  rcases checkRequest_cases l promptTokens now with
    ⟨b, hb, hlt, hres⟩ | ⟨-, hpos, b, hb, hlt, hres⟩ | ⟨hrpm, htpm, hres⟩
  · rw [hres]
    constructor
    · rintro ⟨⟩
    · rintro ⟨h, -⟩
      exact absurd ⟨b, hb, hlt⟩ h
  · rw [hres]
    constructor
    · rintro ⟨⟩
    · rintro ⟨-, h⟩
      exact absurd ⟨hpos, b, hb, hlt⟩ h
  · rw [hres]
    exact ⟨fun _ => ⟨hrpm, htpm⟩, fun _ => rfl⟩

/-- Later checks do not see a refused one. -/
theorem refused_invisible {e : RateLimitExceeded}
    (h : (l.checkRequest promptTokens now).1 = .error e) {later : ℚ} (hle : now ≤ later) :
    ((l.checkRequest promptTokens now).2.RpmShort later ↔ l.RpmShort later) ∧
      ((l.checkRequest promptTokens now).2.TpmShort promptTokens later ↔
        l.TpmShort promptTokens later) := by
  have hread : ∀ (o : Option TokenBucket) (amount : ℚ),
      (∃ b ∈ o.map (·.refill now), (b.refill later).level < amount) ↔
        ∃ b ∈ o, (b.refill later).level < amount := by
    intro o amount
    cases o with
    | none => simp
    | some b => simp [TokenBucket.refill_refill hle]
  obtain ⟨hrpm, htpm⟩ := refused_buckets h
  constructor
  · rw [RpmShort, hrpm, hread]
    rfl
  · rcases htpm with htpm | htpm
    · rw [TpmShort, htpm]
      rfl
    · rw [TpmShort, htpm, hread]
      rfl

/-! ## §3  Levels -/

/-- The bucket of a budget: its size is the budget's and its level is within it. -/
def Fits (limit : Option ℕ) (o : Option TokenBucket) : Prop :=
  ∀ b ∈ o, b.level ≤ b.capacity ∧
    ∃ n ∈ limit, b.capacity = n ∧ b.refillPerSecond = (n : ℚ) / 60

theorem Fits.refill {limit : Option ℕ} {o : Option TokenBucket} (h : Fits limit o)
    (now : ℚ) : Fits limit (o.map (·.refill now)) := by
  rintro b hb
  obtain ⟨b₀, hb₀, rfl⟩ := Option.map_eq_some_iff.mp hb
  obtain ⟨hle, n, hn, hcap, hrate⟩ := h b₀ hb₀
  refine ⟨?_, n, hn, ?_, ?_⟩
  · rw [TokenBucket.capacity_refill]
    exact TokenBucket.level_refill_le hle now
  · rw [TokenBucket.capacity_refill, hcap]
  · rw [TokenBucket.refillPerSecond_refill, hrate]

theorem Fits.charge {limit : Option ℕ} {o : Option TokenBucket} (h : Fits limit o)
    {amount : ℚ} (ha : 0 ≤ amount) (now : ℚ) :
    Fits limit (o.map (·.charge amount now)) := by
  rintro b hb
  obtain ⟨b₀, hb₀, rfl⟩ := Option.map_eq_some_iff.mp hb
  obtain ⟨hle, n, hn, hcap, hrate⟩ := h b₀ hb₀
  refine ⟨?_, n, hn, ?_, ?_⟩
  · have hlevel := TokenBucket.level_refill_le hle now
    rw [TokenBucket.capacity_charge]
    exact (sub_le_self _ ha).trans hlevel
  · rw [TokenBucket.capacity_charge, hcap]
  · rw [TokenBucket.refillPerSecond_charge, hrate]

/-- Both buckets are those of the tenant's record. -/
structure Sized (l : RequestLimiter) : Prop where
  rpm : Fits l.tenant.rpm l.rpm
  tpm : Fits l.tenant.tpm l.tpm

theorem Fits.perMinute (limit : Option ℕ) (h : ∀ n ∈ limit, 1 ≤ n) (now : ℚ) :
    Fits limit (limit.attach.map fun n => .perMinute n.1 (h n.1 n.2) now) := by
  rintro b hb
  obtain ⟨n, -, rfl⟩ := Option.map_eq_some_iff.mp hb
  exact ⟨le_rfl, n.1, n.2, rfl, rfl⟩

theorem Sized.create (tenant : Tenant) (now : ℚ) : (RequestLimiter.create tenant now).Sized :=
  ⟨Fits.perMinute _ tenant.rpm_pos now, Fits.perMinute _ tenant.tpm_pos now⟩

theorem Fits.chargeTokens {limit : Option ℕ} {t : TenantLimiter} (h : Fits limit t.tpm)
    (tokens : ℕ) (now : ℚ) : Fits limit (t.chargeTokens tokens now).tpm := by
  unfold TenantLimiter.chargeTokens
  split
  · exact h
  · next b hb =>
      split
      · exact h
      · rw [hb] at h
        exact h.charge (Nat.cast_nonneg tokens) now

theorem Sized.read (h : l.Sized) (promptTokens : ℕ) (now : ℚ) :
    ((l.readRpm now).readTpm promptTokens now).Sized := by
  have htenant : ((l.readRpm now).readTpm promptTokens now).tenant = l.tenant := by
    unfold readTpm
    split <;> rfl
  constructor
  · rw [htenant, rpm_readTpm]
    exact h.rpm.refill now
  · rw [htenant, tpm_readTpm]
    split
    · exact h.tpm.refill now
    · exact h.tpm

theorem Sized.checkRequest (h : l.Sized) (promptTokens : ℕ) (now : ℚ) :
    (l.checkRequest promptTokens now).2.Sized := by
  rcases checkRequest_cases l promptTokens now with
    ⟨b, -, -, hres⟩ | ⟨-, -, b, -, -, hres⟩ | ⟨-, -, hres⟩ <;> rw [hres]
  · exact ⟨h.rpm.refill now, h.tpm⟩
  · exact ⟨(h.read promptTokens now).rpm, (h.read promptTokens now).tpm⟩
  · exact ⟨(h.read promptTokens now).rpm.charge zero_le_one now,
      (h.read promptTokens now).tpm.chargeTokens promptTokens now⟩

/-- The step. -/
theorem Sized.apply (h : l.Sized) (c : Call) : (c.apply l).Sized := by
  cases c with
  | checkRequest promptTokens now => exact h.checkRequest promptTokens now
  | chargeTokens tokens now => exact ⟨h.rpm, h.tpm.chargeTokens tokens now⟩

/-- The run. -/
theorem Sized.foldl (h : l.Sized) (calls : List Call) : (calls.foldl Call.apply l).Sized := by
  induction calls generalizing l with
  | nil => exact h
  | cons c rest ih => exact ih (h.apply c)

theorem sized_after (tenant : Tenant) (start : ℚ) (calls : List Call) :
    (after tenant start calls).Sized := (Sized.create tenant start).foldl calls

/-! ## §4  Admissions -/

/-- An admitted request: its timestamp, and the latest timestamp so far. -/
structure Admission where
  stamp : ℚ
  clock : ℚ
deriving DecidableEq

/-- The timestamps of the checks. -/
def checkStamps (calls : List Call) : List ℚ :=
  calls.filterMap fun
    | .checkRequest _ now => some now
    | .chargeTokens _ _ => none

/-- The requests a run admits. The clock is that of the checks, from the construction
on. -/
def admissions : RequestLimiter → ℚ → List Call → List Admission
  | _, _, [] => []
  | l, clock, .checkRequest promptTokens now :: rest =>
      let later := admissions (l.checkRequest promptTokens now).2 (max clock now) rest
      match (l.checkRequest promptTokens now).1 with
      | .ok _ => ⟨now, max clock now⟩ :: later
      | .error _ => later
  | l, clock, .chargeTokens tokens now :: rest =>
      admissions (l.chargeTokens tokens now) clock rest

theorem admissions_refused {e : RateLimitExceeded}
    (h : (l.checkRequest promptTokens now).1 = .error e) (clock : ℚ) (rest : List Call) :
    admissions l clock (.checkRequest promptTokens now :: rest) =
      admissions (l.checkRequest promptTokens now).2 (max clock now) rest := by
  rw [admissions, h]

theorem admissions_admitted (h : (l.checkRequest promptTokens now).1 = .ok ())
    (clock : ℚ) (rest : List Call) :
    admissions l clock (.checkRequest promptTokens now :: rest) = ⟨now, max clock now⟩ ::
      admissions (l.checkRequest promptTokens now).2 (max clock now) rest := by
  rw [admissions, h]

/-- An admission found a request in the bucket and took it. -/
theorem admitted_rpm (h : (l.checkRequest promptTokens now).1 = .ok ()) :
    ¬ l.RpmShort now ∧ (l.checkRequest promptTokens now).2.rpm =
      l.rpm.map fun b => (b.refill now).charge 1 now := by
  rcases checkRequest_cases l promptTokens now with
    ⟨b, -, -, hres⟩ | ⟨-, -, b, -, -, hres⟩ | ⟨hrpm, -, hres⟩
  · rw [hres] at h
    cases h
  · rw [hres] at h
    cases h
  · refine ⟨hrpm, ?_⟩
    rw [hres]
    change Option.map _ ((l.readRpm now).readTpm promptTokens now).rpm = _
    rw [rpm_readTpm, rpm_readRpm, Option.map_map]
    rfl

/-- The request bucket is a flow. A refused check is a taker that wants nothing. -/
theorem admissions_eq_takes {b : TokenBucket} (h : l.rpm = some b) (calls : List Call) :
    ∃ events, (admissions l b.updated calls).map (·.clock) =
      takes b.capacity b.refillPerSecond b.flow events := by
  induction calls generalizing l b with
  | nil => exact ⟨[], rfl⟩
  | cons c rest ih =>
      cases c with
      | chargeTokens tokens now =>
          have hrpm : (l.chargeTokens tokens now).rpm = some b := h
          exact ih hrpm
      | checkRequest promptTokens now =>
          cases hres : (l.checkRequest promptTokens now).1 with
          | error e =>
              have hnext := (refused_buckets hres).1
              rw [h] at hnext
              obtain ⟨events, htakes⟩ := ih hnext
              refine ⟨(now, false) :: events, ?_⟩
              rw [TokenBucket.updated_refill, TokenBucket.capacity_refill,
                TokenBucket.refillPerSecond_refill, TokenBucket.flow_refill] at htakes
              rw [admissions_refused hres, takes_cons_of_unwanted, htakes]
          | ok u =>
              obtain ⟨hrpm, hnext⟩ := admitted_rpm hres
              rw [h] at hnext
              have hlevel : 1 ≤ (b.refill now).level :=
                not_lt.mp fun hlt => hrpm ⟨b, h, hlt⟩
              obtain ⟨events, htakes⟩ := ih hnext
              refine ⟨(now, true) :: events, ?_⟩
              rw [TokenBucket.flow_charge, TokenBucket.updated_charge,
                TokenBucket.capacity_charge, TokenBucket.refillPerSecond_charge,
                TokenBucket.refill_refill le_rfl, TokenBucket.updated_refill,
                TokenBucket.capacity_refill, TokenBucket.refillPerSecond_refill] at htakes
              rw [admissions_admitted hres, List.map_cons, htakes,
                takes_cons_of_wanted (by rwa [← TokenBucket.flow_refill]),
                ← TokenBucket.flow_refill]
              simp only [TokenBucket.flow, TokenBucket.updated_refill]

/-- Timestamps that do not go back are the clock. -/
theorem admissions_stamp (l : RequestLimiter) (clock : ℚ) (calls : List Call)
    (h : (clock :: checkStamps calls).Pairwise (· ≤ ·)) :
    ∀ x ∈ admissions l clock calls, x.clock = x.stamp := by
  induction calls generalizing l clock with
  | nil =>
      intro x hx
      cases hx
  | cons c rest ih =>
      cases c with
      | chargeTokens tokens now => exact ih (l.chargeTokens tokens now) clock h
      | checkRequest promptTokens now =>
          have hle : clock ≤ now := (List.pairwise_cons.mp h).1 now List.mem_cons_self
          have hrest : (now :: checkStamps rest).Pairwise (· ≤ ·) :=
            (List.pairwise_cons.mp h).2
          have hclock : max clock now = now := max_eq_right hle
          intro x hx
          cases hres : (l.checkRequest promptTokens now).1 with
          | error e =>
              rw [admissions_refused hres, hclock] at hx
              exact ih _ now hrest x hx
          | ok u =>
              rw [admissions_admitted hres, hclock, List.mem_cons] at hx
              rcases hx with rfl | hx
              · rfl
              · exact ih _ now hrest x hx

/-- Rate limiting is all or nothing and bounded, whatever the timestamps. The windows are
of the checks' clock, which is the timestamp itself where timestamps do not go back. -/
theorem rate_limits (tenant : Tenant) (start : ℚ) (calls : List Call) :
    (∀ promptTokens now e,
      ((after tenant start calls).checkRequest promptTokens now).1 = .error e →
        ((after tenant start calls).checkRequest promptTokens now).2.rpm.map (·.refill now) =
            (after tenant start calls).rpm.map (·.refill now) ∧
          ((after tenant start calls).checkRequest promptTokens now).2.tpm.map
              (·.refill now) = (after tenant start calls).tpm.map (·.refill now)) ∧
      (∀ b ∈ (after tenant start calls).rpm, b.level ≤ b.capacity) ∧
      (∀ b ∈ (after tenant start calls).tpm, b.level ≤ b.capacity) ∧
      (∀ b ∈ (create tenant start).rpm, ∀ a d : ℚ, 0 ≤ d →
        ((admissions (create tenant start) start calls).countP
          (fun x => a ≤ x.clock ∧ x.clock ≤ a + d) : ℚ) ≤
            b.capacity + b.refillPerSecond * d) ∧
      ((start :: checkStamps calls).Pairwise (· ≤ ·) →
        ∀ x ∈ admissions (create tenant start) start calls, x.clock = x.stamp) := by
  have hsized := sized_after tenant start calls
  refine ⟨fun promptTokens now e h => refused_refill h, fun b hb => (hsized.rpm b hb).1,
    fun b hb => (hsized.tpm b hb).1, ?_, admissions_stamp _ start calls⟩
  intro b hb a d hd
  obtain ⟨hfull, hstart⟩ : b.level = b.capacity ∧ b.updated = start := by
    obtain ⟨n, -, rfl⟩ := Option.map_eq_some_iff.mp hb
    exact ⟨rfl, rfl⟩
  obtain ⟨events, htakes⟩ := admissions_eq_takes hb calls
  have hnonneg : 0 ≤ b.flow.level := b.capacity_pos.le.trans_eq hfull.symm
  have hcount := countP_takes_le (a := a) b.refillPerSecond_pos.le hfull.le hnonneg hd events
  rw [← htakes, List.countP_map, hstart] at hcount
  exact hcount

/-- A tenant with one request and one token a minute. -/
def strictTenant : Tenant where
  tenantId := "t"
  rpm := some 1
  tpm := some 1
  maxConcurrency := none
  rpm_pos _ hn := Nat.lt_of_lt_of_eq Nat.one_pos (Option.some.inj hn)
  tpm_pos _ hn := Nat.lt_of_lt_of_eq Nat.one_pos (Option.some.inj hn)

/-- Where timestamps go back, a refused check in between refills the request bucket, and
one instant sees two admissions. -/
theorem rate_limits_clock_back :
    ¬ ∀ (tenant : Tenant) (start : ℚ) (calls : List Call),
      ∀ b ∈ (create tenant start).rpm, ∀ a d : ℚ, 0 ≤ d →
        ((admissions (create tenant start) start calls).countP
          (fun x => a ≤ x.stamp ∧ x.stamp ≤ a + d) : ℚ) ≤
            b.capacity + b.refillPerSecond * d := by
  intro h
  have hbound := h strictTenant 0
    [.checkRequest 0 0, .checkRequest 2 60, .checkRequest 0 0] _ rfl 0 0 le_rfl
  revert hbound
  decide +kernel

/-! ## §6  Waits -/

/-- When the wait of a refusal is long enough: the refusing bucket has seen no later
time, the amount fits it, and no other bucket recovers after it. -/
def RetryHonest (l : RequestLimiter) (promptTokens : ℕ) (now : ℚ) : Prop :=
  (∀ b ∈ l.rpm, (b.refill now).level < 1 → b.updated ≤ now ∧
    (0 < promptTokens → ∀ q ∈ l.tpm, promptTokens ≤ (q.refill now).level ∨
      promptTokens ≤ q.capacity ∧ q.recovery promptTokens now ≤ b.recovery 1 now)) ∧
  (¬ l.RpmShort now → ∀ q ∈ l.tpm, (q.refill now).level < promptTokens →
    q.updated ≤ now ∧ promptTokens ≤ q.capacity)

theorem not_rpmShort {b : TokenBucket} (hb : l.rpm = some b) :
    ¬ l.RpmShort now ↔ 1 ≤ (b.refill now).level := by
  simp [RpmShort, hb]

theorem not_tpmShort : ¬ l.TpmShort promptTokens now ↔
    (0 < promptTokens → ∀ q ∈ l.tpm, promptTokens ≤ (q.refill now).level) := by
  simp [TpmShort]

theorem Sized.one_le_capacity (h : l.Sized) {b : TokenBucket} (hb : b ∈ l.rpm) :
    1 ≤ b.capacity := by
  obtain ⟨-, n, hn, hcap, -⟩ := h.rpm b hb
  rw [hcap]
  exact_mod_cast l.tenant.rpm_pos n hn

theorem refuse_retryAfterS {limit : LimitName} {wait : ℚ} {value : Option ℕ}
    {e : RateLimitExceeded} (h : (l.refuse limit wait value).1 = .error e) :
    e.retryAfterS = max 0 wait := by
  cases h
  rfl

/-- The retry after a refusal by the request bucket `b`. -/
theorem retry_iff_of_rpm {b : TokenBucket} (hsized : l.Sized) (hb : l.rpm = some b)
    (hlt : (b.refill now).level < 1) {w : ℚ}
    (hw : w = (1 - (b.refill now).level) / b.refillPerSecond) :
    ¬ l.RpmShort (now + w) ∧ ¬ l.TpmShort promptTokens (now + w) ↔
      l.RetryHonest promptTokens now := by
  have hpos : 0 < w := by
    rw [hw]
    exact div_pos (sub_pos.mpr hlt) b.refillPerSecond_pos
  have hcap : 1 ≤ b.capacity := hsized.one_le_capacity hb
  rw [not_rpmShort hb, hw, TokenBucket.le_level_wait_iff (hsized.rpm b hb).1 hlt, ← hw,
    not_tpmShort]
  have hrecovery : b.updated ≤ now → b.recovery 1 now = w := by
    intro hup
    rw [TokenBucket.recovery, TokenBucket.updated_refill, max_eq_right hup, sub_self, zero_add,
      hw]
  have htpm : ∀ q ∈ l.tpm, (promptTokens : ℚ) ≤ (q.refill (now + w)).level ↔
      (promptTokens : ℚ) ≤ (q.refill now).level ∨
        promptTokens ≤ q.capacity ∧ q.recovery promptTokens now ≤ w := by
    intro q hq
    rw [TokenBucket.le_level_refill_iff (hsized.tpm q hq).1 (le_add_of_nonneg_right hpos.le),
      add_sub_cancel_left]
  constructor
  · rintro ⟨⟨hup, -⟩, hp⟩
    constructor
    · rintro b' hb' -
      obtain rfl : b = b' := Option.some.inj (hb.symm.trans hb')
      refine ⟨hup, fun hprompt q hq => ?_⟩
      rw [hrecovery hup]
      exact (htpm q hq).mp (hp hprompt q hq)
    · intro hnot
      exact absurd ⟨b, hb, hlt⟩ hnot
  · rintro ⟨hhonest, -⟩
    obtain ⟨hup, hp⟩ := hhonest b hb hlt
    refine ⟨⟨hup, hcap⟩, fun hprompt q hq => (htpm q hq).mpr ?_⟩
    rw [← hrecovery hup]
    exact hp hprompt q hq

/-- The retry after a refusal by the token bucket `q`. -/
theorem retry_iff_of_tpm {q : TokenBucket} (hsized : l.Sized) (hrpm : ¬ l.RpmShort now)
    (hprompt : 0 < promptTokens) (hq : l.tpm = some q)
    (hlt : (q.refill now).level < promptTokens) {w : ℚ}
    (hw : w = (promptTokens - (q.refill now).level) / q.refillPerSecond) :
    ¬ l.RpmShort (now + w) ∧ ¬ l.TpmShort promptTokens (now + w) ↔
      l.RetryHonest promptTokens now := by
  have hpos : 0 < w := by
    rw [hw]
    exact div_pos (sub_pos.mpr hlt) q.refillPerSecond_pos
  -- a request bucket that is not short now is not short later
  have hrpm' : ¬ l.RpmShort (now + w) := by
    rintro ⟨b, hb, hshort⟩
    have hone : 1 ≤ (b.refill now).level := (not_rpmShort hb).mp hrpm
    have hle := le_add_of_nonneg_right (a := now) hpos.le
    have hstill := (TokenBucket.le_level_refill_iff (hsized.rpm b hb).1 hle).mpr (Or.inl hone)
    exact absurd hshort (not_lt.mpr hstill)
  have hwait := TokenBucket.le_level_wait_iff (hsized.tpm q hq).1 hlt
  rw [← hw] at hwait
  rw [not_tpmShort]
  constructor
  · rintro ⟨-, hp⟩
    refine ⟨fun b hb hshort => absurd ⟨b, hb, hshort⟩ hrpm, ?_⟩
    rintro - q' hq' -
    obtain rfl : q = q' := Option.some.inj (hq.symm.trans hq')
    exact hwait.mp (hp hprompt q hq)
  · rintro ⟨-, hhonest⟩
    refine ⟨hrpm', ?_⟩
    rintro - q' hq'
    obtain rfl : q = q' := Option.some.inj (hq.symm.trans hq')
    exact hwait.mpr (hhonest hrpm q hq hlt)

theorem checkRequest_retry_iff {e : RateLimitExceeded} (hsized : l.Sized)
    (h : (l.checkRequest promptTokens now).1 = .error e) :
    ((l.checkRequest promptTokens now).2.checkRequest promptTokens
        (now + e.retryAfterS)).1 = .ok () ↔
      l.RetryHonest promptTokens now := by
  have hnonneg : 0 ≤ e.retryAfterS := by
    rcases checkRequest_cases l promptTokens now with
      ⟨b, -, -, hres⟩ | ⟨-, -, q, -, -, hres⟩ | ⟨-, -, hres⟩ <;> rw [hres] at h
    · exact (refuse_retryAfterS h).symm ▸ le_max_left _ _
    · exact (refuse_retryAfterS h).symm ▸ le_max_left _ _
    · cases h
  have hlater : now ≤ now + e.retryAfterS := le_add_of_nonneg_right hnonneg
  rw [checkRequest_ok_iff, (refused_invisible h hlater).1, (refused_invisible h hlater).2]
  rcases checkRequest_cases l promptTokens now with
    ⟨b, hb, hlt, hres⟩ | ⟨hrpm, hpos, q, hq, hlt, hres⟩ | ⟨-, -, hres⟩ <;> rw [hres] at h
  · have hw := refuse_retryAfterS h
    rw [TokenBucket.retryAfter_refill hlt, max_eq_right
      (div_nonneg (sub_nonneg.mpr hlt.le) b.refillPerSecond_pos.le)] at hw
    exact retry_iff_of_rpm hsized hb hlt hw
  · have hw := refuse_retryAfterS h
    rw [TokenBucket.retryAfter_refill hlt, max_eq_right
      (div_nonneg (sub_nonneg.mpr hlt.le) q.refillPerSecond_pos.le)] at hw
    exact retry_iff_of_tpm hsized hrpm hpos hq hlt hw
  · cases h

/-- A request refused at `now` with a wait is admitted after it, with no other call in
between, exactly if `RetryHonest`. -/
theorem retry_after_iff (tenant : Tenant) (start : ℚ) (calls : List Call)
    (promptTokens : ℕ) (now : ℚ) (e : RateLimitExceeded)
    (h : ((after tenant start calls).checkRequest promptTokens now).1 = .error e) :
    (((after tenant start calls).checkRequest promptTokens now).2.checkRequest promptTokens
        (now + e.retryAfterS)).1 = .ok () ↔
      (after tenant start calls).RetryHonest promptTokens now :=
  checkRequest_retry_iff (sized_after tenant start calls) h

/-- A second request within the second. -/
theorem retry_after_iff_burst :
    ((after strictTenant 0 [.checkRequest 0 0]).checkRequest 0 1).1 =
        .error ⟨"t", .rpm, 59, some 1⟩ ∧
      ((((after strictTenant 0 [.checkRequest 0 0]).checkRequest 0 1).2.checkRequest 0
          (1 + 59)).1 = .ok () ↔
        (after strictTenant 0 [.checkRequest 0 0]).RetryHonest 0 1) := by
  have h : ((after strictTenant 0 [.checkRequest 0 0]).checkRequest 0 1).1 =
      .error ⟨"t", .rpm, 59, some 1⟩ := by
    decide +kernel
  have hretry := retry_after_iff strictTenant 0 [.checkRequest 0 0] 0 1
    ⟨"t", .rpm, 59, some 1⟩ h
  dsimp only at hretry
  exact ⟨h, hretry⟩

/-- A prompt of more tokens than a minute's budget is told to wait, and refused again. -/
theorem retry_after_too_long :
    ¬ ∀ (tenant : Tenant) (start : ℚ) (calls : List Call) (promptTokens : ℕ) (now : ℚ)
      (e : RateLimitExceeded),
      ((after tenant start calls).checkRequest promptTokens now).1 = .error e →
        (((after tenant start calls).checkRequest promptTokens now).2.checkRequest
          promptTokens (now + e.retryAfterS)).1 = .ok () := by
  intro h
  have hretry := h strictTenant 0 [] 2 0 ⟨"t", .tpm, 60, some 1⟩ (by decide +kernel)
  revert hretry
  decide +kernel

end RequestLimiter

end TurboServe.Gateway
