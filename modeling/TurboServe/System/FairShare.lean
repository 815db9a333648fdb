import TurboServe.Invariants.Queue
import TurboServe.Lib.VirtualClock

/-!
# The waiting queue as a fair queue

Any sequence of `push`, `pop` and `remove` on `_WaitQueue` under `tenant_fair`,
with rational weights, is a run of the abstract fair queue: tenants are the
clients, virtual times the tags, an admission is a service.
-/

namespace TurboServe.Core

open Lib (FairState FairStep Stretch Level Within Restrained)

/-! ## §1  Runs of the queue -/

/-- One call on the queue; a sequence carries its tenant. -/
inductive QueueOp : Type where
  | push (i : SeqId)
  | pop
  | remove (i : SeqId)

/-- What a call leaves, and the tenant it admits. A `pop` of an empty queue
raises and changes nothing. -/
def QueueOp.run (tenantOf : SeqId → String) (q : WaitQueue ℚ) :
    QueueOp → WaitQueue ℚ × Option String
  | .push i => (q.push i (tenantOf i), none)
  | .pop =>
      match q.pop with
      | .ok r => (r.2, some (tenantOf r.1))
      | .error _ => (q, none)
  | .remove i => ((q.remove i (tenantOf i)).2, none)

/-- A sequence of calls: the queue it leaves and the tenants admitted, in order. -/
def runQueue (tenantOf : SeqId → String) (q : WaitQueue ℚ) :
    List QueueOp → WaitQueue ℚ × List String
  | [] => (q, [])
  | op :: ops =>
      let r := op.run tenantOf q
      let rest := runQueue tenantOf r.1 ops
      (rest.1, r.2.toList ++ rest.2)

namespace WaitQueue

variable (q : WaitQueue ℚ)

def tenants : List String := q.queues.map Prod.fst

/-- Whether a tenant has a sequence queued. -/
def backlogged (t : String) : Bool := decide (t ∈ q.tenants)

/-- `_vtime.get(tenant, 0.0)`. -/
def tagOf (t : String) : ℚ := (q.vtime t).getD 0

end WaitQueue

/-- Whether `t` is backlogged in every state of a sequence of calls. -/
def staysBacklogged (tenantOf : SeqId → String) (t : String) (q : WaitQueue ℚ) :
    List QueueOp → Bool
  | [] => q.backlogged t
  | op :: ops => q.backlogged t && staysBacklogged tenantOf t (op.run tenantOf q).1 ops

/-- The tenants backlogged in some state of a sequence of calls. -/
def everBacklogged (tenantOf : SeqId → String) (q : WaitQueue ℚ) :
    List QueueOp → Finset String
  | [] => q.tenants.toFinset
  | op :: ops => q.tenants.toFinset ∪ everBacklogged tenantOf (op.run tenantOf q).1 ops

/-- Every `push` that makes a tenant backlogged meets `check` where it is made. -/
def everyRestart (check : WaitQueue ℚ → String → Bool) (tenantOf : SeqId → String)
    (q : WaitQueue ℚ) : List QueueOp → Bool
  | [] => true
  | op :: ops =>
      (match op with
        | .push i => q.backlogged (tenantOf i) || check q (tenantOf i)
        | _ => true) && everyRestart check tenantOf (op.run tenantOf q).1 ops

/-- The clock is at most one quantum of `t` past every backlogged tenant. -/
def restartsWithin (q : WaitQueue ℚ) (t : String) : Bool :=
  q.tenants.all fun j => decide (q.now ≤ q.tagOf j + 1 / q.weightOf t)

/-- The same, and exactly one quantum past only those `t` sorts before. -/
def restartsBefore (q : WaitQueue ℚ) (t : String) : Bool :=
  q.tenants.all fun j => decide (q.now < q.tagOf j + 1 / q.weightOf t ∨
    (q.now = q.tagOf j + 1 / q.weightOf t ∧ t < j))

/-! ## §2  The abstraction -/

/-- The queue as the abstract fair queue sees it. -/
def WaitQueue.fairState (q : WaitQueue ℚ) : FairState ℚ String :=
  ⟨q.tagOf, q.now, q.tenants.toFinset⟩

theorem weightOf_pos {q : WaitQueue ℚ} (h : ∀ p ∈ q.weights, (0 : ℚ) < p.2) (t : String) :
    0 < q.weightOf t := by
  unfold WaitQueue.weightOf
  cases hl : q.weights.lookup t with
  | none => exact one_pos
  | some w =>
      obtain ⟨l₁, l₂, heq, -⟩ := List.lookup_eq_some_iff.mp hl
      exact h (t, w) (heq ▸ by simp)

theorem keyLt_iff {q : WaitQueue ℚ} {t t' : String} :
    q.keyLt t t' = true ↔ q.fairState.Before t t' := by
  unfold WaitQueue.keyLt FairState.Before
  show (if decide (q.tagOf t = q.tagOf t') then decide (t < t')
    else decide (q.tagOf t < q.tagOf t')) = true ↔ _
  by_cases heq : q.tagOf t = q.tagOf t'
  · simp [heq, WaitQueue.fairState]
  · simp [heq, WaitQueue.fairState]

/-- The tenant `pop` serves goes before every other backlogged one. -/
theorem nextTenant_first {q : WaitQueue ℚ} {t : String} (h : q.nextTenant = some t) :
    t ∈ q.tenants ∧ ∀ t' ∈ q.tenants, t' ≠ t → q.fairState.Before t t' := by
  have hfalse : ∀ a b, q.keyLt a b = false ↔
      q.tagOf b < q.tagOf a ∨ (q.tagOf a = q.tagOf b ∧ b ≤ a) := by
    intro a b
    rw [← Bool.not_eq_true, keyLt_iff]
    unfold FairState.Before WaitQueue.fairState
    constructor
    · intro hnot
      rcases lt_trichotomy (q.tagOf a) (q.tagOf b) with hlt | heq | hgt
      · exact absurd (Or.inl hlt) hnot
      · exact Or.inr ⟨heq, not_lt.mp fun hab => hnot (Or.inr ⟨heq, hab⟩)⟩
      · exact Or.inl hgt
    · rintro (hgt | ⟨heq, hle⟩) (hlt | ⟨heq', hlt⟩)
      · exact absurd hlt (not_lt.mpr hgt.le)
      · exact absurd heq' hgt.ne'
      · exact absurd heq hlt.ne
      · exact absurd hlt (not_lt.mpr hle)
  refine ⟨Lib.minBy_mem h, fun t' ht' hne => ?_⟩
  have hleast : q.keyLt t' t = false := by
    refine Lib.minBy_least (fun a b hab => ?_) (fun a b c hab hbc => ?_) h t' ht'
    · rcases keyLt_iff.mp hab with hlt | ⟨heq, hlt⟩
      · exact (hfalse b a).mpr (Or.inl hlt)
      · exact (hfalse b a).mpr (Or.inr ⟨heq.symm, hlt.le⟩)
    · rw [hfalse] at hab hbc ⊢
      rcases hab with h₁ | ⟨h₁, h₁'⟩ <;> rcases hbc with h₂ | ⟨h₂, h₂'⟩
      · exact Or.inl (h₂.trans h₁)
      · exact Or.inl (h₂ ▸ h₁)
      · exact Or.inl (h₁.symm ▸ h₂)
      · exact Or.inr ⟨h₁.trans h₂, h₂'.trans h₁'⟩
  rcases (hfalse t' t).mp hleast with hlt | ⟨heq, hle⟩
  · exact Or.inl hlt
  · exact Or.inr ⟨heq.symm, lt_of_le_of_ne hle (Ne.symm hne)⟩

/-! ## §3  Every call is a step -/

variable {q : WaitQueue ℚ} {tenantOf : SeqId → String}

theorem tenants_store {t : String} {ids : List SeqId} (ids' : List SeqId)
    (h : QueueInv q tenantOf) (hl : q.queues.lookup t = some ids) :
    ((WaitQueue.storeQueue q.queues t ids').map Prod.fst).toFinset =
      if ids' = [] then q.tenants.toFinset.erase t else q.tenants.toFinset := by
  obtain ⟨pre, post, hsplit, hpre, hpost⟩ := WaitQueue.split_of_lookup h.keys_nodup hl
  unfold WaitQueue.storeQueue WaitQueue.tenants
  rw [hsplit]
  split
  · rw [WaitQueue.delQueue_split hpre hpost]
    ext x
    simp only [List.map_append, List.map_cons, List.mem_toFinset, List.mem_append,
      List.mem_cons, Finset.mem_erase]
    constructor
    · intro hx
      refine ⟨?_, hx.imp_right Or.inr⟩
      rintro rfl
      exact hx.elim hpre hpost
    · rintro ⟨hne, hx | hx | hx⟩
      · exact Or.inl hx
      · exact absurd hx hne
      · exact Or.inr hx
  · rw [WaitQueue.setQueue_split hpre hpost]
    simp

/-- What a call keeps: the invariant, the policy and the weights; and it is a
step of the fair queue. -/
structure OpSpec (tenantOf : SeqId → String) (q : WaitQueue ℚ)
    (r : WaitQueue ℚ × Option String) : Prop where
  inv : QueueInv r.1 tenantOf
  fair : r.1.tenantFair = true
  weights_eq : r.1.weights = q.weights
  step : FairStep q.weightOf q.fairState r.2 r.1.fairState

theorem push_opSpec (h : QueueInv q tenantOf) (hfair : q.tenantFair = true) (i : SeqId) :
    OpSpec tenantOf q ((QueueOp.push i).run tenantOf q) := by
  have hinv := (WaitQueue.push_spec h (i := i) rfl).1
  cases hl : q.queues.lookup (tenantOf i) with
  | none =>
      have hkey := WaitQueue.lookup_eq_none_of_not_mem hl
      have hnot : tenantOf i ∉ q.fairState.active := fun hmem =>
        hkey (List.mem_toFinset.mp hmem)
      have hstate : (q.push i (tenantOf i)).fairState =
          ⟨Function.update q.fairState.tag (tenantOf i)
            (max (q.fairState.tag (tenantOf i)) q.fairState.clock), q.fairState.clock,
            insert (tenantOf i) q.fairState.active⟩ := by
        simp only [WaitQueue.fairState, WaitQueue.push, hfair, if_true, hl, FairState.mk.injEq]
        refine ⟨?_, trivial, ?_⟩
        · funext j
          by_cases hj : j = tenantOf i
          · subst hj
            simp only [WaitQueue.tagOf, Function.update_self, Option.getD_some]
            show (if _ < q.now then q.now else _) = max _ q.now
            split
            · next hlt => exact (max_eq_right (le_of_lt hlt)).symm
            · next hge => exact (max_eq_left (not_lt.mp hge)).symm
          · simp only [WaitQueue.tagOf, Function.update_of_ne hj]
        · ext x
          simp [WaitQueue.tenants]
      refine ⟨hinv, ?_, ?_, ?_⟩
      · simp [QueueOp.run, WaitQueue.push, hfair, hl]
      · simp [QueueOp.run, WaitQueue.push, hfair, hl]
      · show FairStep q.weightOf q.fairState none (q.push i (tenantOf i)).fairState
        rw [hstate]
        exact .join (tenantOf i) hnot
  | some ids =>
      have hstate : (q.push i (tenantOf i)).fairState = q.fairState := by
        obtain ⟨pre, post, hsplit, hpre, hpost⟩ := WaitQueue.split_of_lookup h.keys_nodup hl
        have hkeys : (WaitQueue.setQueue q.queues (tenantOf i) (ids ++ [i])).map Prod.fst =
            q.queues.map Prod.fst := by
          rw [hsplit, WaitQueue.setQueue_split hpre hpost]
          simp
        simp only [WaitQueue.fairState, WaitQueue.push, hfair, if_true, hl,
          WaitQueue.tenants, hkeys]
        rfl
      refine ⟨hinv, ?_, ?_, ?_⟩
      · simp [QueueOp.run, WaitQueue.push, hfair, hl]
      · simp [QueueOp.run, WaitQueue.push, hfair, hl]
      · show FairStep q.weightOf q.fairState none (q.push i (tenantOf i)).fairState
        rw [hstate]
        exact .stay _

theorem remove_opSpec (h : QueueInv q tenantOf) (hfair : q.tenantFair = true) (i : SeqId) :
    OpSpec tenantOf q ((QueueOp.remove i).run tenantOf q) := by
  have hinv := (WaitQueue.remove_spec h i).1
  cases hl : q.queues.lookup (tenantOf i) with
  | none =>
      have hsame : (q.remove i (tenantOf i)).2 = q := by
        simp [WaitQueue.remove, hfair, hl]
      refine ⟨hinv, ?_, ?_, ?_⟩ <;> simp only [QueueOp.run, hsame]
      · exact hfair
      · exact .stay _
  | some ids =>
      by_cases hi : i ∈ ids
      · have hq : (q.remove i (tenantOf i)).2 = { q with
            queues := WaitQueue.storeQueue q.queues (tenantOf i) (ids.erase i) } := by
          simp [WaitQueue.remove, hfair, hl, hi]
        refine ⟨hinv, ?_, ?_, ?_⟩ <;> simp only [QueueOp.run, hq]
        · exact hfair
        · have hactive := tenants_store (ids.erase i) h hl
          show FairStep q.weightOf q.fairState none ⟨q.tagOf, q.now,
            ((WaitQueue.storeQueue q.queues (tenantOf i) (ids.erase i)).map
              Prod.fst).toFinset⟩
          rw [hactive]
          split
          · exact .leave (s := q.fairState) (tenantOf i)
          · exact .stay q.fairState
      · have hsame : (q.remove i (tenantOf i)).2 = q := by
          simp [WaitQueue.remove, hfair, hl, hi]
        refine ⟨hinv, ?_, ?_, ?_⟩ <;> simp only [QueueOp.run, hsame]
        · exact hfair
        · exact .stay _

/-- What `pop` does to the queue when it succeeds. -/
theorem pop_cases (h : QueueInv q tenantOf) (hfair : q.tenantFair = true) :
    (QueueOp.pop.run tenantOf q = (q, none)) ∨
      ∃ t i rest, q.nextTenant = some t ∧ q.queues.lookup t = some (i :: rest) ∧
        tenantOf i = t ∧ QueueOp.pop.run tenantOf q = ({ q with
          queues := WaitQueue.storeQueue q.queues t rest
          vtime := Function.update q.vtime t (some (q.tagOf t + 1 / q.weightOf t))
          now := q.tagOf t + 1 / q.weightOf t }, some t) := by
  cases ht : q.nextTenant with
  | none =>
      left
      simp [QueueOp.run, WaitQueue.pop, hfair, ht]
  | some t =>
      right
      have hkey : t ∈ q.queues.map Prod.fst := Lib.minBy_mem ht
      obtain ⟨ids, hl⟩ := Option.isSome_iff_exists.mp (WaitQueue.lookup_isSome_of_mem hkey)
      obtain ⟨pre, post, hsplit, -, -⟩ := WaitQueue.split_of_lookup h.keys_nodup hl
      have hmem : (t, ids) ∈ q.queues := hsplit ▸ by simp
      obtain ⟨v, hv⟩ := Option.isSome_iff_exists.mp (h.vtime _ hmem)
      cases ids with
      | nil => exact absurd rfl (h.nonempty _ hmem)
      | cons i rest =>
          have htenant : tenantOf i = t := h.tenant _ hmem i List.mem_cons_self
          refine ⟨t, i, rest, rfl, hl, htenant, ?_⟩
          have hv' : q.vtime t = some v := hv
          have htag : q.tagOf t = v := by rw [WaitQueue.tagOf, hv', Option.getD_some]
          simp only [QueueOp.run, WaitQueue.pop, hfair, if_true, ht, hl, hv', htenant, htag]
          rfl

theorem pop_opSpec (h : QueueInv q tenantOf) (hfair : q.tenantFair = true) :
    OpSpec tenantOf q (QueueOp.pop.run tenantOf q) := by
  rcases pop_cases h hfair with hsame | ⟨t, i, rest, ht, hl, -, hrun⟩
  · rw [hsame]
    exact ⟨h, hfair, rfl, .stay _⟩
  · rw [hrun]
    obtain ⟨hin, hfirst⟩ := nextTenant_first ht
    refine ⟨?_, hfair, rfl, ?_⟩
    · refine WaitQueue.store_inv h hl (fun j hj => List.mem_cons_of_mem _ hj) rfl rfl ?_
      intro u hu
      by_cases hut : u = t
      · subst hut
        simp
      · simpa [Function.update_of_ne hut] using hu
    · have hactive := tenants_store rest h hl
      have htag : (fun u => (Function.update q.vtime t
          (some (q.tagOf t + 1 / q.weightOf t)) u).getD 0) =
          Function.update q.fairState.tag t (q.fairState.tag t + 1 / q.weightOf t) := by
        funext u
        by_cases hut : u = t
        · subst hut
          simp [WaitQueue.fairState]
        · simp [Function.update_of_ne hut, WaitQueue.fairState, WaitQueue.tagOf]
      show FairStep q.weightOf q.fairState (some t) ⟨fun u => (Function.update q.vtime t
        (some (q.tagOf t + 1 / q.weightOf t)) u).getD 0, q.tagOf t + 1 / q.weightOf t,
        ((WaitQueue.storeQueue q.queues t rest).map Prod.fst).toFinset⟩
      rw [hactive, htag]
      refine .serve t _ (List.mem_toFinset.mpr hin)
        (fun j hj hne => hfirst j (List.mem_toFinset.mp hj) hne) ?_ ?_
      · split
        · exact Finset.erase_subset _ _
        · exact Finset.Subset.refl _
      · intro j hj hne
        split
        · exact Finset.mem_erase.mpr ⟨hne, hj⟩
        · exact hj

theorem run_opSpec (h : QueueInv q tenantOf) (hfair : q.tenantFair = true)
    (op : QueueOp) : OpSpec tenantOf q (op.run tenantOf q) := by
  cases op with
  | push i => exact push_opSpec h hfair i
  | pop => exact pop_opSpec h hfair
  | remove i => exact remove_opSpec h hfair i

/-! ## §4  Runs are stretches -/

theorem weightOf_eq {q q' : WaitQueue ℚ} (h : q'.weights = q.weights) :
    q'.weightOf = q.weightOf := by
  funext t
  rw [WaitQueue.weightOf, WaitQueue.weightOf, h]

/-- A tenant that becomes backlogged was pushed. -/
theorem joined_of_push (h : QueueInv q tenantOf) (hfair : q.tenantFair = true)
    {op : QueueOp} {t : String} (ht : t ∈ (op.run tenantOf q).1.fairState.active)
    (hnot : t ∉ q.fairState.active) : ∃ i, op = .push i ∧ tenantOf i = t := by
  cases op with
  | push i =>
      refine ⟨i, rfl, ?_⟩
      by_contra hne
      apply hnot
      simp only [QueueOp.run, WaitQueue.push, hfair, if_true, WaitQueue.fairState,
        WaitQueue.tenants] at ht ⊢
      split at ht
      · simp only [List.map_append, List.toFinset_append, Finset.mem_union,
          List.mem_toFinset] at ht ⊢
        refine ht.resolve_right fun hm => hne ?_
        exact (List.mem_singleton.mp hm).symm
      · next ids hl =>
          obtain ⟨pre, post, hsplit, hpre, hpost⟩ :=
            WaitQueue.split_of_lookup h.keys_nodup hl
          rw [hsplit, WaitQueue.setQueue_split hpre hpost] at ht
          rw [hsplit]
          simpa using ht
  | pop =>
      exfalso
      rcases pop_cases h hfair with hsame | ⟨u, i, rest, -, hl, -, hrun⟩
      · rw [hsame] at ht
        exact hnot ht
      · rw [hrun] at ht
        have hactive := tenants_store rest h hl
        simp only [WaitQueue.fairState, WaitQueue.tenants, hactive] at ht hnot
        split at ht
        · exact hnot (Finset.mem_of_mem_erase ht)
        · exact hnot ht
  | remove i =>
      exfalso
      cases hl : q.queues.lookup (tenantOf i) with
      | none => exact hnot (by simpa [QueueOp.run, WaitQueue.remove, hfair, hl] using ht)
      | some ids =>
          by_cases hi : i ∈ ids
          · have hactive := tenants_store (ids.erase i) h hl
            simp only [QueueOp.run, WaitQueue.remove, hfair, if_true, hl, hi,
              WaitQueue.fairState, WaitQueue.tenants, hactive] at ht hnot
            split at ht
            · exact hnot (Finset.mem_of_mem_erase ht)
            · exact hnot ht
          · exact hnot (by simpa [QueueOp.run, WaitQueue.remove, hfair, hl, hi] using ht)

/-- What a restart check has to imply for the abstract queue. -/
def Restrains (check : WaitQueue ℚ → String → Bool) (R : String → String → Prop) : Prop :=
  ∀ (q : WaitQueue ℚ) t, check q t = true → ∀ j ∈ q.tenants,
    Within q.weightOf R q.now (q.tagOf j) t j

theorem restartsWithin_restrains : Restrains restartsWithin fun _ _ => True := by
  intro q t h j hj
  have hle := of_decide_eq_true (List.all_eq_true.mp h j hj)
  rcases lt_or_eq_of_le hle with hlt | heq
  · exact Or.inl hlt
  · exact Or.inr ⟨heq, trivial⟩

theorem restartsBefore_restrains : Restrains restartsBefore (· < ·) := by
  intro q t h j hj
  have hkey := of_decide_eq_true (List.all_eq_true.mp h j hj)
  exact hkey

/-- A run whose restarts are restrained is a stretch of the fair queue. -/
theorem stretch_of_run {check : WaitQueue ℚ → String → Bool} {R : String → String → Prop}
    (hcheck : Restrains check R) (always : Finset String) (ops : List QueueOp)
    (h : QueueInv q tenantOf) (hfair : q.tenantFair = true)
    (hrestart : everyRestart check tenantOf q ops = true)
    (hstays : ∀ t ∈ always, staysBacklogged tenantOf t q ops = true) :
    Stretch q.weightOf R always q.fairState (runQueue tenantOf q ops).2
      (everBacklogged tenantOf q ops) (runQueue tenantOf q ops).1.fairState := by
  induction ops generalizing q with
  | nil =>
      refine .start fun t ht => ?_
      exact List.mem_toFinset.mpr (of_decide_eq_true (hstays t ht))
  | cons op ops ih =>
      have hspec := run_opSpec h hfair op
      simp only [everyRestart, Bool.and_eq_true] at hrestart
      obtain ⟨hhere, hlater⟩ := hrestart
      have hrest := ih hspec.inv hspec.fair hlater fun t ht => by
        have hboth := hstays t ht
        simp only [staysBacklogged, Bool.and_eq_true] at hboth
        exact hboth.2
      rw [weightOf_eq hspec.weights_eq] at hrest
      refine .cons hspec.step (fun t ht hnot j hj => ?_) (fun t ht => ?_) hrest
      · obtain ⟨i, rfl, rfl⟩ := joined_of_push h hfair ht hnot
        refine hcheck q _ ?_ j (List.mem_toFinset.mp hj)
        rcases Bool.or_eq_true_iff.mp hhere with hin | hok
        · exact absurd (List.mem_toFinset.mpr (of_decide_eq_true hin)) hnot
        · exact hok
      · have hboth := hstays t ht
        simp only [staysBacklogged, Bool.and_eq_true] at hboth
        exact List.mem_toFinset.mpr (of_decide_eq_true hboth.1)

theorem everyRestart_append {check : WaitQueue ℚ → String → Bool}
    (before ops : List QueueOp) :
    everyRestart check tenantOf q (before ++ ops) =
      (everyRestart check tenantOf q before &&
        everyRestart check tenantOf (runQueue tenantOf q before).1 ops) := by
  induction before generalizing q with
  | nil => rfl
  | cons op before ih =>
      rw [List.cons_append]
      simp only [everyRestart, ih, runQueue, Bool.and_assoc]

theorem run_keeps (ops : List QueueOp) (h : QueueInv q tenantOf)
    (hfair : q.tenantFair = true) :
    QueueInv (runQueue tenantOf q ops).1 tenantOf ∧
      (runQueue tenantOf q ops).1.tenantFair = true ∧
      (runQueue tenantOf q ops).1.weights = q.weights := by
  induction ops generalizing q with
  | nil => exact ⟨h, hfair, rfl⟩
  | cons op ops ih =>
      have hspec := run_opSpec h hfair op
      obtain ⟨hinv, hfair', hweights⟩ := ih hspec.inv hspec.fair
      exact ⟨hinv, hfair', hweights.trans hspec.weights_eq⟩

/-- A new queue is level: every tag and the clock are zero. -/
theorem new_level {weights : List (String × ℚ)} (hw : ∀ p ∈ weights, (0 : ℚ) < p.2)
    (R : String → String → Prop) :
    Level (WaitQueue.new true weights).weightOf R (WaitQueue.new true weights).fairState := by
  refine ⟨fun i j hj => ?_, fun i => ?_⟩
  · have hin : j ∈ (WaitQueue.new true weights : WaitQueue ℚ).tenants :=
      List.mem_toFinset.mp hj
    cases hin
  · have hpos := weightOf_pos (q := WaitQueue.new true weights) hw i
    show (0 : ℚ) < 0 + 1 / _
    rw [zero_add]
    exact one_div_pos.mpr hpos

/-- A run from a new queue whose restarts are restrained ends level. -/
theorem level_of_run {check : WaitQueue ℚ → String → Bool} {R : String → String → Prop}
    (hcheck : Restrains check R) (hR : ∀ i j, i < j → R i j)
    {weights : List (String × ℚ)} (hw : ∀ p ∈ weights, (0 : ℚ) < p.2)
    (ops : List QueueOp)
    (hrestart : everyRestart check tenantOf (WaitQueue.new true weights) ops = true) :
    Level (WaitQueue.new true weights).weightOf R
      (runQueue tenantOf (WaitQueue.new true weights) ops).1.fairState := by
  have hnew := (WaitQueue.new_inv (W := ℚ) tenantOf true weights).1
  have hrun := stretch_of_run hcheck ∅ ops hnew rfl hrestart (by simp)
  exact hrun.level (weightOf_pos hw) hR (new_level hw R)

end TurboServe.Core
