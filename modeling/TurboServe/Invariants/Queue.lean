import TurboServe.Core.WaitQueue

/-!
# The waiting queue's invariant

What `_WaitQueue` keeps true of its tenant deques, and what each operation does
to the list of queued sequences: `push` adds one at the back of its deque,
`peek` and `pop` agree on the head, `remove` erases one and moves nothing else.
-/

namespace TurboServe.Core

/-- Keys are distinct, no deque is empty, every sequence is in its own tenant's
deque, and every backlogged tenant has a virtual time. Under `fcfs` there are no
tenant deques at all. -/
structure QueueInv {W : Type} (q : WaitQueue W) (tenantOf : SeqId → String) : Prop where
  fcfs : q.tenantFair = false → q.queues = []
  keys_nodup : (q.queues.map Prod.fst).Nodup
  nonempty : ∀ p ∈ q.queues, p.2 ≠ []
  tenant : ∀ p ∈ q.queues, ∀ i ∈ p.2, tenantOf i = p.1
  vtime : ∀ p ∈ q.queues, (q.vtime p.1).isSome

/-- The invariant reads the tenants of queued sequences only. -/
theorem QueueInv.congr {W : Type} {q : WaitQueue W} {tenantOf tenantOf' : SeqId → String}
    (h : QueueInv q tenantOf) (heq : ∀ i ∈ q.toList, tenantOf' i = tenantOf i) :
    QueueInv q tenantOf' := by
  refine { h with tenant := fun p hp i hi => (heq i ?_).trans (h.tenant p hp i hi) }
  cases hf : q.tenantFair with
  | false => simp [h.fcfs hf] at hp
  | true =>
      simp only [WaitQueue.toList, hf, if_true, List.mem_flatMap]
      exact ⟨p, hp, hi⟩

namespace WaitQueue

variable {W : Type}

/-! ## §1  Deques in an association list -/

theorem split_of_lookup {queues : List (String × List SeqId)} {t : String}
    {ids : List SeqId} (hnd : (queues.map Prod.fst).Nodup)
    (h : queues.lookup t = some ids) :
    ∃ pre post, queues = pre ++ (t, ids) :: post ∧
      t ∉ pre.map Prod.fst ∧ t ∉ post.map Prod.fst := by
  induction queues with
  | nil => cases h
  | cons p queues ih =>
      rw [List.map_cons, List.nodup_cons] at hnd
      by_cases hp : p.1 = t
      · subst hp
        rw [List.lookup_cons_self] at h
        obtain rfl := Option.some.inj h
        exact ⟨[], queues, rfl, by simp, hnd.1⟩
      · have hne : (t == p.1) = false := by simpa using Ne.symm hp
        rw [List.lookup_cons, hne] at h
        obtain ⟨pre, post, rfl, hpre, hpost⟩ := ih hnd.2 h
        exact ⟨p :: pre, post, rfl, by simp [Ne.symm hp, hpre], hpost⟩

theorem lookup_isSome_of_mem {queues : List (String × List SeqId)} {t : String}
    (h : t ∈ queues.map Prod.fst) : (queues.lookup t).isSome := by
  induction queues with
  | nil => cases h
  | cons p queues ih =>
      rw [List.lookup_cons]
      by_cases hp : t = p.1
      · simp [hp]
      · have hne : (t == p.1) = false := by simpa using hp
        rw [List.map_cons, List.mem_cons] at h
        simpa [hne] using ih (h.resolve_left hp)

theorem lookup_eq_none_of_not_mem {queues : List (String × List SeqId)} {t : String}
    (h : queues.lookup t = none) : t ∉ queues.map Prod.fst := fun hmem => by
  have := lookup_isSome_of_mem hmem
  rw [h] at this
  cases this

theorem map_eq_self_of_keys {queues : List (String × List SeqId)} {t : String}
    (ids : List SeqId) (h : t ∉ queues.map Prod.fst) : setQueue queues t ids = queues := by
  unfold setQueue
  conv_rhs => rw [← List.map_id queues]
  refine List.map_congr_left fun p hp => ?_
  have hpt : p.1 ≠ t := fun hpt => h (hpt ▸ List.mem_map_of_mem hp)
  rw [if_neg hpt]
  rfl

theorem filter_eq_self_of_keys {queues : List (String × List SeqId)} {t : String}
    (h : t ∉ queues.map Prod.fst) : delQueue queues t = queues := by
  refine List.filter_eq_self.mpr fun p hp => decide_eq_true ?_
  exact fun hpt => h (hpt ▸ List.mem_map_of_mem hp)

section Store

variable {pre post : List (String × List SeqId)} {t : String} {ids : List SeqId}
  (hpre : t ∉ pre.map Prod.fst) (hpost : t ∉ post.map Prod.fst)

include hpre hpost

theorem setQueue_split (ids' : List SeqId) :
    setQueue (pre ++ (t, ids) :: post) t ids' = pre ++ (t, ids') :: post := by
  have h₁ := map_eq_self_of_keys ids' hpre
  have h₂ := map_eq_self_of_keys ids' hpost
  simp only [setQueue] at h₁ h₂ ⊢
  simp only [List.map_append, List.map_cons, h₁, h₂, if_true]

theorem delQueue_split : delQueue (pre ++ (t, ids) :: post) t = pre ++ post := by
  have h₁ := filter_eq_self_of_keys hpre
  have h₂ := filter_eq_self_of_keys hpost
  simp only [delQueue] at h₁ h₂ ⊢
  rw [List.filter_append, List.filter_cons_of_neg (by simp), h₁, h₂]

/-- Storing what is left of one deque, read as the list of all of them. -/
theorem storeQueue_flatMap (ids' : List SeqId) :
    (storeQueue (pre ++ (t, ids) :: post) t ids').flatMap Prod.snd =
      pre.flatMap Prod.snd ++ (ids' ++ post.flatMap Prod.snd) := by
  unfold storeQueue
  split
  · next h => simp [delQueue_split hpre hpost, h]
  · simp [setQueue_split hpre hpost]

theorem storeQueue_mem (ids' : List SeqId) {p : String × List SeqId}
    (hp : p ∈ storeQueue (pre ++ (t, ids) :: post) t ids') :
    p ∈ pre ++ (t, ids) :: post ∨ p = (t, ids') ∧ ids' ≠ [] := by
  unfold storeQueue at hp
  split at hp
  · rw [delQueue_split hpre hpost] at hp
    refine Or.inl ?_
    simp only [List.mem_append, List.mem_cons] at hp ⊢
    tauto
  · next h =>
      rw [setQueue_split hpre hpost] at hp
      simp only [List.mem_append, List.mem_cons] at hp ⊢
      tauto

theorem storeQueue_keys_nodup (ids' : List SeqId)
    (hnd : ((pre ++ (t, ids) :: post).map Prod.fst).Nodup) :
    ((storeQueue (pre ++ (t, ids) :: post) t ids').map Prod.fst).Nodup := by
  unfold storeQueue
  split
  · rw [delQueue_split hpre hpost]
    refine hnd.sublist (List.Sublist.map _ ?_)
    exact (List.sublist_cons_self _ _).append_left pre
  · rw [setQueue_split hpre hpost]
    simpa using hnd

end Store

/-! ## §2  One specification for each operation -/

section Ops

variable {q : WaitQueue W} {tenantOf : SeqId → String}

/-- Replacing one deque by a part of it. -/
theorem store_inv (h : QueueInv q tenantOf) {t : String} {ids ids' : List SeqId}
    (hl : q.queues.lookup t = some ids) (hsub : ∀ i ∈ ids', i ∈ ids)
    {q' : WaitQueue W} (hq : q'.queues = storeQueue q.queues t ids')
    (hf : q'.tenantFair = q.tenantFair)
    (hv : ∀ s, (q.vtime s).isSome → (q'.vtime s).isSome) : QueueInv q' tenantOf := by
  obtain ⟨pre, post, hsplit, hpre, hpost⟩ := split_of_lookup h.keys_nodup hl
  have hmem : (t, ids) ∈ q.queues := hsplit ▸ by simp
  have hcases : ∀ p ∈ q'.queues, p ∈ q.queues ∨ p = (t, ids') ∧ ids' ≠ [] := by
    intro p hp
    rw [hq, hsplit] at hp
    rw [hsplit]
    exact storeQueue_mem hpre hpost ids' hp
  refine { fcfs := ?_, keys_nodup := ?_, nonempty := ?_, tenant := ?_, vtime := ?_ }
  · intro hfalse
    rw [h.fcfs (hf ▸ hfalse)] at hmem
    cases hmem
  · rw [hq, hsplit]
    exact storeQueue_keys_nodup hpre hpost ids' (hsplit ▸ h.keys_nodup)
  · intro p hp
    rcases hcases p hp with hp | ⟨rfl, hne⟩
    · exact h.nonempty p hp
    · exact hne
  · intro p hp i hi
    rcases hcases p hp with hp | ⟨rfl, -⟩
    · exact h.tenant p hp i hi
    · exact h.tenant _ hmem i (hsub i hi)
  · intro p hp
    rcases hcases p hp with hp | ⟨rfl, -⟩
    · exact hv _ (h.vtime p hp)
    · exact hv t (h.vtime (t, ids) hmem)

variable [VirtualTime W]

theorem push_spec (h : QueueInv q tenantOf) {i : SeqId} {t : String}
    (ht : tenantOf i = t) :
    QueueInv (q.push i t) tenantOf ∧ (q.push i t).toList.Perm (i :: q.toList) := by
  by_cases hf : q.tenantFair = true
  · cases hl : q.queues.lookup t with
    | none =>
        have hkey := lookup_eq_none_of_not_mem hl
        simp only [push, toList, hf, if_true, hl]
        refine ⟨{ fcfs := by simp, keys_nodup := ?_, nonempty := ?_, tenant := ?_,
                  vtime := ?_ }, ?_⟩
        · rw [List.map_append]
          refine List.Nodup.append h.keys_nodup (List.nodup_singleton _) ?_
          intro s hs hs'
          rw [List.mem_singleton.mp hs'] at hs
          exact hkey hs
        · intro p hp
          rcases List.mem_append.mp hp with hp | hp
          · exact h.nonempty p hp
          · simp [List.mem_singleton.mp hp]
        · intro p hp j hj
          rcases List.mem_append.mp hp with hp | hp
          · exact h.tenant p hp j hj
          · rw [List.mem_singleton.mp hp] at hj ⊢
            rw [List.mem_singleton.mp hj, ht]
        · intro p hp
          by_cases hpt : p.1 = t
          · simp [hpt]
          · rcases List.mem_append.mp hp with hp | hp
            · simpa [hpt] using h.vtime p hp
            · exact absurd (by simp [List.mem_singleton.mp hp]) hpt
        · rw [List.flatMap_append]
          exact List.perm_append_comm
    | some ids =>
        obtain ⟨pre, post, hsplit, hpre, hpost⟩ := split_of_lookup h.keys_nodup hl
        have hmem : (t, ids) ∈ q.queues := hsplit ▸ by simp
        have hcases : ∀ p ∈ setQueue q.queues t (ids ++ [i]),
            p ∈ q.queues ∨ p = (t, ids ++ [i]) := by
          intro p hp
          rw [hsplit, setQueue_split hpre hpost] at hp
          rw [hsplit]
          simp only [List.mem_append, List.mem_cons] at hp ⊢
          tauto
        simp only [push, toList, hf, if_true, hl]
        refine ⟨{ fcfs := by simp, keys_nodup := ?_, nonempty := ?_, tenant := ?_,
                  vtime := ?_ }, ?_⟩
        · have hnd := h.keys_nodup
          rw [hsplit] at hnd
          rw [hsplit, setQueue_split hpre hpost]
          simpa using hnd
        · intro p hp
          rcases hcases p hp with hp | rfl
          · exact h.nonempty p hp
          · simp
        · intro p hp j hj
          rcases hcases p hp with hp | rfl
          · exact h.tenant p hp j hj
          · rcases List.mem_append.mp hj with hj | hj
            · exact h.tenant _ hmem j hj
            · rw [List.mem_singleton.mp hj, ht]
        · intro p hp
          rcases hcases p hp with hp | rfl
          · exact h.vtime p hp
          · exact h.vtime (t, ids) hmem
        · simp only [hsplit, setQueue_split hpre hpost, List.flatMap_append,
            List.flatMap_cons, List.append_assoc, List.singleton_append]
          rw [← List.append_assoc, ← List.append_assoc]
          exact List.perm_middle
  · have hf' : q.tenantFair = false := by simpa using hf
    simp only [push, toList, hf', Bool.false_eq_true, if_false]
    refine ⟨{ h with fcfs := fun _ => h.fcfs hf' }, ?_⟩
    exact List.perm_append_comm

omit [VirtualTime W] in
/-- `remove` erases the sequence and keeps the order of the rest. -/
theorem remove_spec (h : QueueInv q tenantOf) (i : SeqId) :
    QueueInv (q.remove i (tenantOf i)).2 tenantOf ∧
      (q.remove i (tenantOf i)).2.toList = q.toList.erase i := by
  by_cases hf : q.tenantFair = true
  · cases hl : q.queues.lookup (tenantOf i) with
    | none =>
        have hkey := lookup_eq_none_of_not_mem hl
        have hnot : i ∉ q.toList := by
          intro hi
          simp only [toList, hf, if_true, List.mem_flatMap] at hi
          obtain ⟨p, hp, hi⟩ := hi
          exact hkey (h.tenant p hp i hi ▸ List.mem_map_of_mem hp)
        simp only [remove, hf, if_true, hl]
        exact ⟨h, (List.erase_of_not_mem hnot).symm⟩
    | some ids =>
        obtain ⟨pre, post, hsplit, hpre, hpost⟩ := split_of_lookup h.keys_nodup hl
        have hout : ∀ p ∈ pre ++ post, i ∉ p.2 := by
          intro p hp hi
          have hpq : p ∈ q.queues := by
            rw [hsplit]
            simp only [List.mem_append, List.mem_cons] at hp ⊢
            tauto
          have hkey := h.tenant p hpq i hi
          rcases List.mem_append.mp hp with hp | hp
          · exact hpre (hkey ▸ List.mem_map_of_mem hp)
          · exact hpost (hkey ▸ List.mem_map_of_mem hp)
        have hlist : q.toList =
            pre.flatMap Prod.snd ++ (ids ++ post.flatMap Prod.snd) := by
          simp [toList, hf, hsplit]
        have hipre : i ∉ pre.flatMap Prod.snd := by
          simp only [List.mem_flatMap, not_exists, not_and]
          exact fun p hp => hout p (List.mem_append_left _ hp)
        have hipost : i ∉ post.flatMap Prod.snd := by
          simp only [List.mem_flatMap, not_exists, not_and]
          exact fun p hp => hout p (List.mem_append_right _ hp)
        by_cases hi : i ∈ ids
        · simp only [remove, hf, if_true, hl, hi]
          refine ⟨store_inv h hl (fun j hj => List.mem_of_mem_erase hj) rfl hf.symm
            fun _ hs => hs, ?_⟩
          simp only [toList, hf, if_true, hsplit, storeQueue_flatMap hpre hpost]
          simp only [List.flatMap_append, List.flatMap_cons]
          rw [List.erase_append_right _ hipre, List.erase_append_left _ hi]
        · simp only [remove, hf, if_true, hl, hi, if_false]
          refine ⟨h, (List.erase_of_not_mem ?_).symm⟩
          rw [hlist]
          simp only [List.mem_append, not_or]
          exact ⟨hipre, hi, hipost⟩
  · have hf' : q.tenantFair = false := by simpa using hf
    by_cases hi : i ∈ q.fifo
    · simp only [remove, toList, hf', Bool.false_eq_true, if_false, hi, if_true]
      exact ⟨{ h with fcfs := fun _ => h.fcfs hf' }, trivial⟩
    · simp only [remove, toList, hf', Bool.false_eq_true, if_false, hi]
      exact ⟨h, (List.erase_of_not_mem hi).symm⟩

/-- `peek` never fails; what it shows is what `pop` then takes. -/
theorem peek_spec (h : QueueInv q tenantOf) (hnd : q.toList.Nodup) :
    (q.peek = .ok none ∧ q.toList = []) ∨
      ∃ i q', q.peek = .ok (some i) ∧ i ∈ q.toList ∧ q.pop = .ok (i, q') ∧
        QueueInv q' tenantOf ∧ q'.toList = q.toList.erase i := by
  by_cases hf : q.tenantFair = true
  · cases ht : q.nextTenant with
    | none =>
        have hnil : q.queues = [] := by
          simpa [nextTenant] using ht
        left
        simp [peek, hf, ht, toList, hnil]
    | some t =>
        have hkey : t ∈ q.queues.map Prod.fst := Lib.minBy_mem ht
        obtain ⟨ids, hl⟩ := Option.isSome_iff_exists.mp (lookup_isSome_of_mem hkey)
        obtain ⟨pre, post, hsplit, hpre, hpost⟩ := split_of_lookup h.keys_nodup hl
        have hmem : (t, ids) ∈ q.queues := hsplit ▸ by simp
        obtain ⟨v, hv⟩ := Option.isSome_iff_exists.mp (h.vtime _ hmem)
        have hne := h.nonempty _ hmem
        cases ids with
        | nil => exact absurd rfl hne
        | cons i rest =>
            have hlist : q.toList =
                pre.flatMap Prod.snd ++ (i :: rest ++ post.flatMap Prod.snd) := by
              simp [toList, hf, hsplit]
            have hipre : i ∉ pre.flatMap Prod.snd := by
              rw [hlist] at hnd
              have hdisj := List.disjoint_of_nodup_append hnd
              exact fun hi => hdisj hi (by simp)
            right
            refine ⟨i, { q with
                queues := storeQueue q.queues t rest
                vtime := Function.update q.vtime t
                  (some (VirtualTime.charge v (q.weightOf t)))
                now := VirtualTime.charge v (q.weightOf t) }, ?_, ?_, ?_, ?_, ?_⟩
            · simp only [peek, hf, if_true, ht, hl]
            · rw [hlist]
              simp
            · simp only [pop, hf, if_true, ht, hl, show q.vtime t = some v from hv]
            · refine store_inv h hl (fun j hj => List.mem_cons_of_mem _ hj) rfl rfl ?_
              intro s hs
              by_cases hst : s = t <;> simp [hst, hs]
            · simp only [toList, hf, if_true, hsplit, storeQueue_flatMap hpre hpost]
              simp only [List.flatMap_append, List.flatMap_cons]
              rw [List.erase_append_right _ hipre]
              simp
  · have hf' : q.tenantFair = false := by simpa using hf
    cases hq : q.fifo with
    | nil =>
        left
        simp [peek, toList, hf', hq]
    | cons i rest =>
        right
        refine ⟨i, { q with fifo := rest }, ?_, ?_, ?_, { h with }, ?_⟩ <;>
          simp [peek, pop, toList, hf', hq]

theorem new_inv (tenantOf : SeqId → String) (fair : Bool) (weights : List (String × W)) :
    QueueInv (WaitQueue.new fair weights) tenantOf ∧
      (WaitQueue.new fair weights).toList = [] := by
  refine ⟨⟨fun _ => rfl, List.nodup_nil, by simp [new], by simp [new], by simp [new]⟩, ?_⟩
  simp [new, toList]

variable (q tenantOf) in
theorem clear_inv : QueueInv q.clear tenantOf ∧ q.clear.toList = [] := by
  refine ⟨⟨fun _ => rfl, List.nodup_nil, by simp [clear], by simp [clear],
    by simp [clear]⟩, ?_⟩
  simp [clear, toList]

end Ops

end WaitQueue

end TurboServe.Core
