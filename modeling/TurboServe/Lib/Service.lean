import TurboServe.Lib.Transition

/-!
# Services that answer by key

A service takes requests, each under a key, and answers a request with outputs up to a last one.
It numbers the requests it accepts: a key can be used again, a number cannot. Here is what the
outputs of a list say about one key, and what a caller may rely on.
-/

namespace TurboServe.Lib

/-! ## §1  Outputs up to a last one -/

section Outputs

variable {O : Type*} (last : O → Bool)

/-- No output of the list is a last one. -/
def Ongoing (os : List O) : Prop := ∀ o ∈ os, last o = false

/-- The list ends with its only last output. -/
def Concluded (os : List O) : Prop :=
  ∃ before o, os = before ++ [o] ∧ last o = true ∧ Ongoing last before

variable {last} {os os' : List O} {o : O}

theorem ongoing_nil : Ongoing last ([] : List O) := by
  intro o ho
  cases ho

theorem Ongoing.append (h : Ongoing last os) (h' : Ongoing last os') :
    Ongoing last (os ++ os') := by
  intro o ho
  rcases List.mem_append.mp ho with ho | ho
  · exact h o ho
  · exact h' o ho

theorem Ongoing.left (h : Ongoing last (os ++ os')) : Ongoing last os :=
  fun o ho => h o (List.mem_append_left _ ho)

theorem concluded_singleton (h : last o = true) : Concluded last [o] :=
  ⟨[], o, rfl, h, ongoing_nil⟩

theorem Ongoing.conclude (h : Ongoing last os) (h' : Concluded last os') :
    Concluded last (os ++ os') := by
  obtain ⟨before, o, rfl, ho, hbefore⟩ := h'
  exact ⟨os ++ before, o, (List.append_assoc _ _ _).symm, ho, h.append hbefore⟩

/-- The first output of a list that concludes is its last one, or the rest concludes. -/
theorem Concluded.cons (h : Concluded last (o :: os)) :
    last o = true ∧ os = [] ∨ last o = false ∧ Concluded last os := by
  obtain ⟨before, x, heq, hx, hbefore⟩ := h
  cases before with
  | nil =>
      obtain ⟨rfl, rfl⟩ := List.cons.inj heq
      exact Or.inl ⟨hx, rfl⟩
  | cons y before =>
      obtain ⟨rfl, rfl⟩ := List.cons.inj heq
      exact Or.inr ⟨hbefore o List.mem_cons_self, before, x, rfl, hx,
        fun z hz => hbefore z (List.mem_cons_of_mem _ hz)⟩

theorem ongoing_map {P : Type*} {f : P → O} {ps : List P} :
    Ongoing last (ps.map f) ↔ Ongoing (fun p => last (f p)) ps :=
  List.forall_mem_map

theorem Concluded.map {P : Type*} {f : P → O} {ps : List P}
    (h : Concluded (fun p => last (f p)) ps) : Concluded last (ps.map f) := by
  obtain ⟨before, p, rfl, hp, hbefore⟩ := h
  exact ⟨before.map f, f p, List.map_append, hp, ongoing_map.mpr hbefore⟩

end Outputs

/-! ## §2  A batch of outputs -/

/-- Outputs, each with the number of the request it answers, while the requests under the keys
go from `job` to `job'`. -/
structure Batch {K O : Type*} (about : O → K) (last : O → Bool) (job : K → Option ℕ)
    (os : List (ℕ × O)) (job' : K → Option ℕ) : Prop where
  tagged : ∀ p ∈ os, job (about p.2) = some p.1
  going : ∀ k j, job' k = some j →
    job k = some j ∧ ∀ p ∈ os, about p.2 = k → last p.2 = false
  ended : ∀ k j, job k = some j → job' k = none →
    Concluded (fun p : ℕ × O => last p.2) (os.filter fun p => decide (p.1 = j))

namespace Batch

variable {K O : Type*} {about : O → K} {last : O → Bool} {job job₁ job₂ : K → Option ℕ}
  {os os₁ os₂ : List (ℕ × O)}

theorem nil : Batch about last job [] job where
  tagged p hp := absurd hp List.not_mem_nil
  going k j hk := ⟨hk, fun p hp => absurd hp List.not_mem_nil⟩
  ended k j hk hnone := by
    rw [hk] at hnone
    cases hnone

/-- Two batches, one after the other. -/
theorem append (h₁ : Batch about last job os₁ job₁) (h₂ : Batch about last job₁ os₂ job₂)
    (hinj : ∀ k k' j, job k = some j → job k' = some j → k = k') :
    Batch about last job (os₁ ++ os₂) job₂ where
  tagged p hp := by
    rcases List.mem_append.mp hp with hp | hp
    · exact h₁.tagged p hp
    · exact (h₁.going _ _ (h₂.tagged p hp)).1
  going k j hk := by
    obtain ⟨hmid, hsecond⟩ := h₂.going k j hk
    obtain ⟨hfirst, hbefore⟩ := h₁.going k j hmid
    refine ⟨hfirst, fun p hp hpk => ?_⟩
    rcases List.mem_append.mp hp with hp | hp
    · exact hbefore p hp hpk
    · exact hsecond p hp hpk
  ended k j hk hnone := by
    rw [List.filter_append]
    cases hmid : job₁ k with
    | none =>
        -- nothing of the second batch is about a request that has ended
        have hempty : os₂.filter (fun p => decide (p.1 = j)) = [] := by
          rw [List.filter_eq_nil_iff]
          intro p hp hpj
          obtain rfl : p.1 = j := of_decide_eq_true hpj
          have htag := h₂.tagged p hp
          have hkey := hinj _ _ _ (h₁.going _ _ htag).1 hk
          rw [hkey, hmid] at htag
          cases htag
        rw [hempty, List.append_nil]
        exact h₁.ended k j hk hmid
    | some j' =>
        obtain ⟨hfirst, hbefore⟩ := h₁.going k j' hmid
        obtain rfl := Option.some.inj (hfirst.symm.trans hk)
        refine Ongoing.conclude (fun p hp => ?_) (h₂.ended k j' hmid hnone)
        obtain ⟨hmem, hpj⟩ := List.mem_filter.mp hp
        obtain rfl : p.1 = j' := of_decide_eq_true hpj
        exact hbefore p hmem (hinj _ _ _ (h₁.tagged p hmem) hk)

/-- The outputs under the key of a request are the outputs with its number. -/
theorem filter_about [DecidableEq K] (h : Batch about last job os job₁)
    (hinj : ∀ k k' j, job k = some j → job k' = some j → k = k') {k : K} {j : ℕ}
    (hk : job k = some j) :
    os.filter (fun p => decide (about p.2 = k)) = os.filter fun p => decide (p.1 = j) := by
  refine List.filter_congr fun p hp => ?_
  have htag := h.tagged p hp
  refine decide_eq_decide.mpr ⟨fun hpk => ?_, fun hpj => ?_⟩
  · rw [hpk, hk] at htag
    exact (Option.some.inj htag).symm
  · rw [hpj] at htag
    exact hinj _ _ _ htag hk

/-- A request that goes on has got no last output. -/
theorem ongoing (h : Batch about last job os job₁)
    (hinj : ∀ k k' j, job k = some j → job k' = some j → k = k') {k : K} {j : ℕ}
    (hk : job₁ k = some j) :
    Ongoing (fun p : ℕ × O => last p.2) (os.filter fun p => decide (p.1 = j)) := by
  intro p hp
  obtain ⟨hmem, hpj⟩ := List.mem_filter.mp hp
  obtain ⟨hjob, hlast⟩ := h.going k j hk
  refine hlast p hmem (hinj _ _ _ (h.tagged p hmem) ?_)
  rw [of_decide_eq_true hpj]
  exact hjob

/-- Nobody else gets outputs. -/
theorem filter_eq_nil (h : Batch about last job os job₁) {j : ℕ} (hj : ∀ k, job k ≠ some j) :
    os.filter (fun p => decide (p.1 = j)) = [] := by
  rw [List.filter_eq_nil_iff]
  intro p hp hpj
  have htag := h.tagged p hp
  rw [of_decide_eq_true hpj] at htag
  exact hj _ htag

end Batch

/-! ## §3  Services -/

/-- The calls of a service: requests `R` under keys `K`, outputs `O`, exceptions `F`; `T` is what
a step depends on besides the service. -/
structure Service (E R K O F T : Type*) where
  key : R → K
  about : O → K
  last : O → Bool
  submit : E → R → Except F ℕ × E
  abort : E → K → Except F (Bool × E)
  busy : E → Bool
  step : E → T → Except F (List (ℕ × O) × E)

/-- What a caller relies on: `job` is the number of the request under a key, `next` is above
every number given out. -/
structure Service.Lawful {E R K O F T : Type*} [DecidableEq K] (S : Service E R K O F T)
    (Inv : E → Prop) (job : E → K → Option ℕ) (next : E → ℕ) : Prop where
  submit_ok : ∀ {e e' r j}, Inv e → S.submit e r = (.ok j, e') →
    Inv e' ∧ job e (S.key r) = none ∧ job e' = Function.update (job e) (S.key r) (some j) ∧
      next e ≤ j ∧ j < next e'
  submit_error : ∀ {e e' r f}, Inv e → S.submit e r = (.error f, e') →
    Inv e' ∧ job e' = job e ∧ next e ≤ next e'
  abort : ∀ {e} k, Inv e → ∃ was e', S.abort e k = .ok (was, e') ∧
    Inv e' ∧ job e' = Function.update (job e) k none ∧ next e' = next e
  step : ∀ {e e' t os}, Inv e → S.step e t = .ok (os, e') →
    Inv e' ∧ Batch S.about S.last (job e) os (job e') ∧ next e' = next e
  busy : ∀ {e}, Inv e → S.busy e = false → ∀ k, job e k = none
  job_lt : ∀ {e k j}, Inv e → job e k = some j → j < next e
  job_inj : ∀ {e k k' j}, Inv e → job e k = some j → job e k' = some j → k = k'

/-- A service with the requests it has accepted and the outputs it has given. -/
structure Service.History (E R O : Type*) where
  engine : E
  jobs : List (ℕ × R)
  outputs : List (ℕ × O)

namespace Service

variable {E R K O F T : Type*} (S : Service E R K O F T)

/-- One call. -/
inductive Call : History E R O → History E R O → Prop where
  | submit {h e' r j} (hok : S.submit h.engine r = (.ok j, e')) :
      Call h { h with engine := e', jobs := h.jobs ++ [(j, r)] }
  | refuse {h e' r f} (herr : S.submit h.engine r = (.error f, e')) :
      Call h { h with engine := e' }
  | abort {h e' k was} (hok : S.abort h.engine k = .ok (was, e')) :
      Call h { h with engine := e' }
  | step {h e' t os} (hok : S.step h.engine t = .ok (os, e')) :
      Call h { h with engine := e', outputs := h.outputs ++ os }

/-- Any calls, in any order, from a service that has nothing to do. -/
def calls (idle : E → Prop) : TransitionSystem (History E R O) where
  init h := idle h.engine ∧ h.jobs = [] ∧ h.outputs = []
  step := S.Call

end Service

end TurboServe.Lib
