import Mathlib

/-!
# Tenant quotas

`gateway/limits.py`: the token bucket and the concurrency slots of one tenant.
-/

namespace TurboServe.Gateway

/-! ## §1  Token buckets -/

/-- A continuously refilling allowance; the level may go negative. -/
structure TokenBucket where
  capacity : ℚ
  refillPerSecond : ℚ
  level : ℚ
  updated : ℚ
  capacity_pos : 0 < capacity
  refillPerSecond_pos : 0 < refillPerSecond
deriving DecidableEq

namespace TokenBucket

/-- The bucket of a budget per minute; its burst is the whole minute. -/
def perMinute (limit : ℕ) (h : 1 ≤ limit) (now : ℚ) : TokenBucket where
  capacity := limit
  refillPerSecond := limit / 60
  level := limit
  updated := now
  capacity_pos := Nat.cast_pos.mpr h
  refillPerSecond_pos := div_pos (Nat.cast_pos.mpr h) (by norm_num)

variable (b : TokenBucket)

def refill (now : ℚ) : TokenBucket :=
  if 0 < now - b.updated then
    { b with
      level := min b.capacity (b.level + (now - b.updated) * b.refillPerSecond)
      updated := now }
  else b

/-- Spend `amount` whether or not it is available. -/
def charge (amount now : ℚ) : TokenBucket :=
  { b.refill now with level := (b.refill now).level - amount }

/-- Seconds until `amount` could be spent, assuming no other traffic. -/
def retryAfter (amount now : ℚ) : ℚ :=
  let deficit := amount - (b.refill now).level
  if deficit ≤ 0 then 0 else deficit / b.refillPerSecond

@[simp] theorem capacity_refill (now : ℚ) : (b.refill now).capacity = b.capacity := by
  unfold refill
  split <;> rfl

@[simp] theorem refillPerSecond_refill (now : ℚ) :
    (b.refill now).refillPerSecond = b.refillPerSecond := by
  unfold refill
  split <;> rfl

@[simp] theorem capacity_charge (amount now : ℚ) :
    (b.charge amount now).capacity = b.capacity := capacity_refill b now

@[simp] theorem refillPerSecond_charge (amount now : ℚ) :
    (b.charge amount now).refillPerSecond = b.refillPerSecond :=
  refillPerSecond_refill b now

theorem updated_refill (now : ℚ) : (b.refill now).updated = max b.updated now := by
  unfold refill
  split
  · next h => exact (max_eq_right (sub_pos.mp h).le).symm
  · next h => exact (max_eq_left (by linarith)).symm

/-- A time that is not after the last refill changes nothing. -/
theorem refill_of_le {now : ℚ} (h : now ≤ b.updated) : b.refill now = b := by
  unfold refill
  rw [if_neg (by linarith)]

end TokenBucket

/-! ## §2  Tenants -/

/-- The live quota state of one tenant. -/
structure TenantLimiter where
  tenantId : String
  maxConcurrency : Option ℕ
  tpm : Option TokenBucket
  inFlight : ℕ
  rejected : ℕ
  tokensCharged : ℕ
  inFlight_le : ∀ m ∈ maxConcurrency, inFlight ≤ m
deriving DecidableEq

namespace TenantLimiter

variable (l : TenantLimiter)

/-- Take a concurrency slot if one is free. -/
def tryAcquireSlot : Option TenantLimiter :=
  if h : ∀ m ∈ l.maxConcurrency, l.inFlight < m then
    some { l with
      inFlight := l.inFlight + 1
      inFlight_le := fun m hm => h m hm }
  else none

/-- Give a slot back; never below zero. -/
def releaseSlot : TenantLimiter :=
  { l with
    inFlight := l.inFlight - 1
    inFlight_le := fun m hm => (Nat.sub_le _ _).trans (l.inFlight_le m hm) }

/-- The refusal that `slot` counts. -/
def reject : TenantLimiter := { l with rejected := l.rejected + 1 }

/-- Debit tokens produced after admission. -/
def chargeTokens (tokens : ℕ) (now : ℚ) : TenantLimiter :=
  match l.tpm with
  | none => l
  | some b =>
      if tokens = 0 then l
      else { l with
        tpm := some (b.charge tokens now), tokensCharged := l.tokensCharged + tokens }

end TenantLimiter

/-! ## §3  Admission -/

/-- Which quota refused the request. -/
inductive LimitName where
  | rpm
  | tpm
  | concurrency
deriving DecidableEq

structure RateLimitExceeded where
  tenantId : String
  limit : LimitName
  retryAfterS : ℚ
  limitValue : Option ℕ
deriving DecidableEq

/-- What a tenant's record says about rates. -/
structure Tenant where
  tenantId : String
  rpm : Option ℕ
  tpm : Option ℕ
  maxConcurrency : Option ℕ
  rpm_pos : ∀ n ∈ rpm, 1 ≤ n
  tpm_pos : ∀ n ∈ tpm, 1 ≤ n

/-- A tenant's limiter with what `check_request` reads beside the quota state. -/
structure RequestLimiter extends TenantLimiter where
  tenant : Tenant
  rpm : Option TokenBucket
  admitted : ℕ

namespace RequestLimiter

def create (tenant : Tenant) (now : ℚ) : RequestLimiter where
  tenantId := tenant.tenantId
  maxConcurrency := tenant.maxConcurrency
  tpm := tenant.tpm.attach.map fun n => .perMinute n.1 (tenant.tpm_pos n.1 n.2) now
  inFlight := 0
  rejected := 0
  tokensCharged := 0
  inFlight_le := fun m _ => Nat.zero_le m
  tenant := tenant
  rpm := tenant.rpm.attach.map fun n => .perMinute n.1 (tenant.rpm_pos n.1 n.2) now
  admitted := 0

variable (l : RequestLimiter)

/-- The exception and the refusal it counts. -/
def refuse (limit : LimitName) (retryAfterS : ℚ) (limitValue : Option ℕ) :
    Except RateLimitExceeded Unit × RequestLimiter :=
  (.error ⟨l.tenant.tenantId, limit, max 0 retryAfterS, limitValue⟩,
    { l with rejected := l.rejected + 1 })

/-- Debit both buckets. -/
def admittedRequest (promptTokens : ℕ) (now : ℚ) : RequestLimiter :=
  { l with
    toTenantLimiter := l.toTenantLimiter.chargeTokens promptTokens now
    rpm := l.rpm.map (·.charge 1 now)
    admitted := l.admitted + 1 }

/-- `l` with the request bucket's level read. -/
def readRpm (now : ℚ) : RequestLimiter := { l with rpm := l.rpm.map (·.refill now) }

/-- `l` with the token bucket's level read, which only a prompt asks for. -/
def readTpm (promptTokens : ℕ) (now : ℚ) : RequestLimiter :=
  if 0 < promptTokens then { l with tpm := l.tpm.map (·.refill now) } else l

/-- Admit one request or raise; only debits once both buckets pass. -/
def checkRequest (promptTokens : ℕ) (now : ℚ) :
    Except RateLimitExceeded Unit × RequestLimiter :=
  let l := l.readRpm now
  match l.rpm.filter (·.level < 1) with
  | some b => l.refuse .rpm (b.retryAfter 1 now) l.tenant.rpm
  | none =>
      let l := l.readTpm promptTokens now
      match l.tpm.filter fun b => 0 < promptTokens ∧ b.level < (promptTokens : ℚ) with
      | some b => l.refuse .tpm (b.retryAfter promptTokens now) l.tenant.tpm
      | none => (.ok (), l.admittedRequest promptTokens now)

/-- The completion's debit. -/
def chargeTokens (tokens : ℕ) (now : ℚ) : RequestLimiter :=
  { l with toTenantLimiter := l.toTenantLimiter.chargeTokens tokens now }

end RequestLimiter

/-! ## §4  Runs of calls -/

inductive Call where
  | checkRequest (promptTokens : ℕ) (now : ℚ)
  | chargeTokens (tokens : ℕ) (now : ℚ)

def Call.apply (l : RequestLimiter) : Call → RequestLimiter
  | .checkRequest promptTokens now => (l.checkRequest promptTokens now).2
  | .chargeTokens tokens now => l.chargeTokens tokens now

/-- The limiter of `tenant`, built at `start`, after `calls`. -/
def RequestLimiter.after (tenant : Tenant) (start : ℚ) (calls : List Call) :
    RequestLimiter :=
  calls.foldl Call.apply (.create tenant start)

end TurboServe.Gateway
