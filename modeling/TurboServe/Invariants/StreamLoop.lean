import TurboServe.Invariants.Streams

/-!
# What the loop does to the streams

A new stream, the queued requests, the queued aborts, the deltas of a step, and the end of the
loop: each keeps `Sound`, and the calls it makes are calls of the engine.
-/

namespace TurboServe.Runtime

open TurboServe.Core TurboServe.Lib

namespace AsyncLLMEngine

variable {E F T : Type} {S : Service E Scheduler.Request String RequestOutput F T}
  {Inv : E → Prop} {job : E → String → Option ℕ} {next : E → ℕ} {careful : Prop}
  {s s' : AsyncLLMEngine E F} {queue : List PendingRequest} {n : ℕ}

/-! ## §1  Arrival -/

theorem start_spec (s : AsyncLLMEngine E F) : ∃ loop, s.start = { s with loop := loop } ∧
    (loop ≠ .gone ↔ s.loop ≠ .gone) := by
  unfold start
  split
  · rename_i hstop
    refine ⟨.waiting, rfl, ?_⟩
    rw [hstop]
    exact iff_of_true (by decide) (by decide)
  · exact ⟨s.loop, rfl, Iff.rfl⟩

theorem Sound.start (h : Sound Inv job next careful s queue) :
    Sound Inv job next careful s.start queue := by
  obtain ⟨loop, heq, hloop⟩ := start_spec s
  rw [heq]
  exact ⟨h.inv, h.table, fun n hn => (h.told n hn).congr Iff.rfl rfl rfl rfl id rfl id, h.job_lt,
    h.job_inj, h.outputs_lt, fun hgone => h.alive (hloop.mp hgone),
    fun hh => ⟨(h.matched hh).nodup, (h.matched hh).queued, (h.matched hh).held,
      (h.matched hh).known⟩⟩

/-- The stream that `generate` opens. -/
def openStream (s : AsyncLLMEngine E F) (r : Scheduler.Request) : AsyncLLMEngine E F :=
  { s with
    streams := Function.update s.streams r.requestId (some s.numOpened)
    opened := Function.update s.opened s.numOpened (.create r)
    numOpened := s.numOpened + 1
    pending := s.pending ++ [⟨r, s.numOpened⟩] }

/-- `generate` raises and opens nothing, or opens a stream under an id that has none. -/
theorem generate_cases (s : AsyncLLMEngine E F) (r : Scheduler.Request) :
    (s.generate r).2 = s ∨ (s.generate r).2 = s.start ∨
      s.isHealthy = true ∧ s.start.streams r.requestId = none ∧
        (s.generate r).2 = s.start.openStream r := by
  unfold generate
  split
  · exact Or.inl rfl
  rename_i hclosed
  split
  · exact Or.inl rfl
  rename_i herror
  simp only
  split
  · exact Or.inr (Or.inl rfl)
  · rename_i hnone
    refine Or.inr (Or.inr ⟨?_, Option.not_isSome_iff_eq_none.mp hnone, rfl⟩)
    rw [isHealthy, herror, Bool.eq_false_iff.mpr hclosed]
    rfl

section OpenStream

variable {r : Scheduler.Request}

theorem openStream_opened_of_lt {m : ℕ} (hm : m < s.numOpened) :
    (s.openStream r).opened m = s.opened m :=
  Function.update_of_ne hm.ne _ _

theorem openStream_opened_self : (s.openStream r).opened s.numOpened = .create r :=
  Function.update_self _ _ _

theorem openStream_streams_self :
    (s.openStream r).streams r.requestId = some s.numOpened :=
  Function.update_self _ _ _

theorem openStream_requestId {m : ℕ} (hm : m < s.numOpened) :
    (s.openStream r).requestId m = s.requestId m := by
  rw [requestId, openStream_opened_of_lt hm]
  rfl

theorem openStream_streams_cases {id : String} {m : ℕ}
    (hm : (s.openStream r).streams id = some m) :
    id = r.requestId ∧ m = s.numOpened ∨ s.streams id = some m := by
  by_cases hr : id = r.requestId
  · rw [hr, openStream_streams_self] at hm
    exact .inl ⟨hr, (Option.some.inj hm).symm⟩
  · refine .inr (Eq.trans ?_ hm)
    exact (Function.update_of_ne hr _ _).symm

theorem openStream_streams_of (hnone : s.streams r.requestId = none) {id : String} {m : ℕ}
    (hm : s.streams id = some m) : (s.openStream r).streams id = some m := by
  refine (Function.update_of_ne ?_ _ _).trans hm
  rintro rfl
  rw [hnone] at hm
  cases hm

/-- A stream there was is open when it was, which takes another id. -/
theorem openStream_open {m : ℕ} (hm : m < s.numOpened) (hopen : (s.openStream r).Open m) :
    s.requestId m ≠ r.requestId ∧ s.Open m := by
  rw [Open, openStream_requestId hm] at hopen
  refine ⟨fun heq => ?_, ?_⟩
  · rw [heq, openStream_streams_self] at hopen
    exact hm.ne' (Option.some.inj hopen)
  · rcases openStream_streams_cases hopen with ⟨-, heq⟩ | hopen
    · exact absurd heq hm.ne
    · exact hopen

/-- The streams there were are told what they were, and the new one has been told nothing. -/
theorem Sound.told_openStream (h : Sound Inv job next careful s queue)
    (hnone : s.streams r.requestId = none) {m : ℕ} (hm : m < s.numOpened + 1) :
    (s.openStream r).Told careful m := by
  rcases Nat.lt_succ_iff_lt_or_eq.mp hm with hlt | rfl
  · have hold := openStream_opened_of_lt (r := r) hlt
    refine (h.told m hlt).congr ?_ (by rw [hold]) (by rw [hold]) (by rw [hold])
      (by rw [hold]; exact id) (madeFor_congr (by rw [hold]) rfl) id
    refine ⟨fun hopen => (openStream_open hlt hopen).2, fun hopen => ?_⟩
    rw [Open, openStream_requestId hlt]
    exact openStream_streams_of hnone hopen
  · have hmade : (s.openStream r).madeFor s.numOpened = [] :=
      madeFor_of_none (by rw [openStream_opened_self]; rfl)
    refine .going ?_ ?_ (by rw [hmade]; exact ongoing_nil)
    · rw [Open, requestId, openStream_opened_self]
      exact openStream_streams_self
    · rw [hmade, openStream_opened_self]
      rfl

/-- A new stream waits behind the queue. -/
theorem Matched.openStream (h : s.Matched job queue)
    (hlt : ∀ id m, s.streams id = some m → m < s.numOpened)
    (hnone : s.streams r.requestId = none) :
    (s.openStream r).Matched job (queue ++ [⟨r, s.numOpened⟩]) := by
  obtain ⟨hnd, hqueued, hheld, hknown⟩ := h
  have hold : ∀ item ∈ queue, item.stream < s.numOpened := fun item hitem =>
    hlt _ _ (hqueued item hitem).1
  refine ⟨?_, ?_, ?_, ?_⟩
  · rw [List.map_append, List.map_singleton]
    refine List.Nodup.append hnd (List.nodup_singleton _) ?_
    intro m hm hm'
    obtain ⟨item, hitem, rfl⟩ := List.mem_map.mp hm
    exact absurd (List.mem_singleton.mp hm') (hold item hitem).ne
  · intro item hitem
    rcases List.mem_append.mp hitem with hitem | hitem
    · obtain ⟨hstream, hrest⟩ := hqueued item hitem
      rw [openStream_opened_of_lt (hold item hitem)]
      exact ⟨openStream_streams_of hnone hstream, hrest⟩
    · obtain rfl := List.mem_singleton.mp hitem
      rw [openStream_opened_self]
      exact ⟨openStream_streams_self, rfl, rfl⟩
  · intro id m hm
    rw [List.map_append, List.map_singleton, List.mem_append, List.mem_singleton]
    rcases openStream_streams_cases hm with ⟨-, rfl⟩ | hm
    · exact .inl (.inr rfl)
    · rw [openStream_opened_of_lt (hlt id m hm)]
      exact (hheld id m hm).imp_left .inl
  · intro id j hj
    obtain ⟨m, hm, hjob⟩ := hknown id j hj
    refine ⟨m, openStream_streams_of hnone hm, ?_⟩
    rw [openStream_opened_of_lt (hlt id m hm)]
    exact hjob

theorem Sound.openStream (h : Sound Inv job next careful s queue)
    (hnone : s.streams r.requestId = none) :
    Sound Inv job next careful (s.openStream r) (queue ++ [⟨r, s.numOpened⟩]) := by
  have hlt : ∀ id m, s.streams id = some m → m < s.numOpened := fun id m hm => (h.table id m hm).1
  refine ⟨h.inv, ?_, fun m hm => h.told_openStream hnone hm, ?_, ?_, h.outputs_lt, h.alive,
    fun hh => (h.matched hh).openStream hlt hnone⟩
  · intro id m hm
    rcases openStream_streams_cases hm with ⟨rfl, rfl⟩ | hm
    · refine ⟨Nat.lt_succ_self _, ?_, ?_⟩
      · rw [requestId, openStream_opened_self]
        rfl
      · rw [openStream_opened_self]
        rfl
    · obtain ⟨hlt, hrid, hfin⟩ := h.table id m hm
      rw [openStream_requestId hlt, openStream_opened_of_lt hlt]
      exact ⟨Nat.lt_succ_of_lt hlt, hrid, hfin⟩
  -- the new stream has no request of the engine yet
  · intro m hm j hj
    rcases Nat.lt_succ_iff_lt_or_eq.mp hm with hlt | rfl
    · rw [openStream_opened_of_lt hlt] at hj ⊢
      exact h.job_lt m hlt j hj
    · rw [openStream_opened_self] at hj
      cases hj
  · intro m hm m' hm' j hj hj'
    rcases Nat.lt_succ_iff_lt_or_eq.mp hm with hlt | rfl
    · rcases Nat.lt_succ_iff_lt_or_eq.mp hm' with hlt' | rfl
      · rw [openStream_opened_of_lt hlt] at hj
        rw [openStream_opened_of_lt hlt'] at hj'
        exact h.job_inj m hlt m' hlt' j hj hj'
      · rw [openStream_opened_self] at hj'
        cases hj'
    · rw [openStream_opened_self] at hj
      cases hj

end OpenStream

/-! ## §2  The queued requests -/

/-- The engine has no request under the id of a stream without a number. -/
theorem Matched.job_of_waiting (h : s.Matched job queue) {id : String}
    (hstream : s.streams id = some n) (hnone : (s.opened n).job = none) :
    job s.engine id = none := by
  cases hj : job s.engine id with
  | none => rfl
  | some j =>
      obtain ⟨m, hm, hjob⟩ := h.known id j hj
      obtain rfl := Option.some.inj (hm.symm.trans hstream)
      rw [hnone] at hjob
      cases hjob

/-- The engine still has the request of an open stream with a number. -/
theorem Matched.job_of_working (h : s.Matched job queue) {id : String} {j : ℕ}
    (hstream : s.streams id = some n) (hj : (s.opened n).job = some j) :
    job s.engine id = some j := by
  rcases h.held id n hstream with hmem | ⟨j', hj', hlive⟩
  · obtain ⟨item, hitem, rfl⟩ := List.mem_map.mp hmem
    rw [(h.queued item hitem).2.2] at hj
    cases hj
  · rw [hj] at hj'
    cases hj'
    exact hlive

section Handed

variable {item : PendingRequest} {j : ℕ} {e : E} {m : ℕ}

theorem handed_opened_of_ne (hm : m ≠ item.stream) :
    (s.handed item j e).opened m = s.opened m :=
  Function.update_of_ne hm _ _

theorem handed_opened_self : (s.handed item j e).opened item.stream =
    { s.opened item.stream with job := some j } :=
  Function.update_self _ _ _

theorem handed_requestId (s : AsyncLLMEngine E F) (item : PendingRequest) (j : ℕ) (e : E)
    (m : ℕ) : (s.handed item j e).requestId m = s.requestId m := by
  by_cases hm : m = item.stream
  · rw [hm, requestId, handed_opened_self]
    rfl
  · rw [requestId, handed_opened_of_ne hm]
    rfl

/-- A number that the engine has not given out yet belongs to no stream and to no output. -/
theorem Sound.unused (h : Sound Inv job next careful s queue) (hle : next s.engine ≤ j) :
    (∀ m < s.numOpened, (s.opened m).job ≠ some j) ∧
      s.served.outputs.filter (fun p => decide (p.1 = j)) = [] := by
  refine ⟨fun m hm hj => absurd (h.job_lt m hm j hj).1 (not_lt.mpr hle), ?_⟩
  rw [List.filter_eq_nil_iff]
  intro p hp hpj
  rw [← of_decide_eq_true hpj] at hle
  exact absurd (h.outputs_lt p hp) (not_lt.mpr hle)

theorem Sound.told_handed (h : Sound Inv job next careful s queue) (hle : next s.engine ≤ j)
    (hopen : s.Open item.stream) (hnojob : (s.opened item.stream).job = none)
    (hm : m < s.numOpened) : (s.handed item j e).Told careful m := by
  by_cases hms : m = item.stream
  · subst hms
    have hmade : (s.handed item j e).madeFor item.stream = [] := by
      rw [madeFor_of_job (by rw [handed_opened_self])]
      exact congrArg (List.map Prod.snd) (h.unused hle).2
    obtain ⟨hitems, -⟩ := (h.told _ hm).items_of_open hopen
    refine .going ?_ ?_ (by rw [hmade]; exact ongoing_nil)
    · rw [Open, handed_requestId]
      exact hopen
    · rw [hmade, handed_opened_self]
      rw [madeFor_of_none hnojob] at hitems
      exact hitems
  · refine (h.told m hm).congr ?_ (by rw [handed_opened_of_ne hms])
      (by rw [handed_opened_of_ne hms]) (by rw [handed_opened_of_ne hms])
      (by rw [handed_opened_of_ne hms]; exact id)
      (madeFor_congr (by rw [handed_opened_of_ne hms]) rfl) id
    rw [Open, Open, handed_requestId]
    exact Iff.rfl

theorem Sound.job_inj_handed (h : Sound Inv job next careful s queue)
    (hle : next s.engine ≤ j) {m' j' : ℕ} (hm : m < s.numOpened) (hm' : m' < s.numOpened)
    (hj : ((s.handed item j e).opened m).job = some j')
    (hj' : ((s.handed item j e).opened m').job = some j') : m = m' := by
  obtain ⟨hfresh, -⟩ := h.unused hle
  by_cases hms : m = item.stream
  · by_cases hms' : m' = item.stream
    · rw [hms, hms']
    · rw [hms, handed_opened_self] at hj
      rw [handed_opened_of_ne hms'] at hj'
      cases hj
      exact absurd hj' (hfresh m' hm')
  · rw [handed_opened_of_ne hms] at hj
    by_cases hms' : m' = item.stream
    · rw [hms', handed_opened_self] at hj'
      cases hj'
      exact absurd hj (hfresh m hm)
    · rw [handed_opened_of_ne hms'] at hj'
      exact h.job_inj m hm m' hm' j' hj hj'

/-- The stream of the request leaves the queue and gets its number. -/
theorem Matched.handed (h : s.Matched job (item :: queue))
    (hid : ∀ id n, s.streams id = some n → s.requestId n = id)
    (hjob : job e = Function.update (job s.engine) item.request.requestId (some j)) :
    (s.handed item j e).Matched job queue := by
  obtain ⟨hnd, hqueued, hheld, hknown⟩ := h
  obtain ⟨hstream, hrequest, hnojob⟩ := hqueued item List.mem_cons_self
  have hrest : ∀ other ∈ queue, other.stream ≠ item.stream := fun other hmem heq =>
    (List.nodup_cons.mp hnd).1 (List.mem_map.mpr ⟨other, hmem, heq⟩)
  have hjobs : ∀ id, job (s.handed item j e).engine id =
      if id = item.request.requestId then some j else job s.engine id := by
    intro id
    show job e id = _
    rw [hjob, Function.update_apply]
  refine ⟨(List.nodup_cons.mp hnd).2, ?_, ?_, ?_⟩
  · intro other hmem
    rw [handed_opened_of_ne (hrest other hmem)]
    exact hqueued other (List.mem_cons_of_mem _ hmem)
  · intro id m hm
    rw [hjobs]
    by_cases hms : m = item.stream
    · subst hms
      have hrid := hid id _ hm
      rw [requestId, hrequest] at hrid
      rw [if_pos hrid.symm, handed_opened_self]
      exact Or.inr ⟨j, rfl, rfl⟩
    · rw [handed_opened_of_ne hms]
      have hne : id ≠ item.request.requestId := by
        rintro rfl
        exact hms (Option.some.inj (hm.symm.trans hstream))
      rw [if_neg hne]
      rcases hheld id m hm with hmem | hjob'
      · refine Or.inl ?_
        rw [List.map_cons] at hmem
        exact (List.mem_cons.mp hmem).resolve_left hms
      · exact Or.inr hjob'
  · intro id j' hj'
    rw [hjobs] at hj'
    split at hj'
    · rename_i hrid
      cases hj'
      refine ⟨item.stream, ?_, by rw [handed_opened_self]⟩
      rw [hrid]
      exact hstream
    · obtain ⟨m, hm, hmjob⟩ := hknown id j' hj'
      refine ⟨m, hm, ?_⟩
      rw [handed_opened_of_ne fun heq => by rw [heq, hnojob] at hmjob; cases hmjob]
      exact hmjob

/-- The engine takes the first queued request. -/
theorem Sound.handed (hS : EngineLaws S Inv job next)
    (h : Sound Inv job next careful s (item :: queue)) (hhealth : s.isHealthy = true)
    (hok : S.submit s.engine item.request = (.ok j, e)) :
    Sound Inv job next careful (s.handed item j e) queue := by
  obtain ⟨hinv, -, hjob, hle, hlt⟩ := hS.lawful.submit_ok h.inv hok
  rw [hS.key_eq] at hjob
  obtain ⟨hstream, hrequest, hnojob⟩ := (h.matched hhealth).queued item List.mem_cons_self
  have hopen : s.Open item.stream := by
    rw [Open, requestId, hrequest]
    exact hstream
  have hnext : next s.engine ≤ next e := hle.trans hlt.le
  refine ⟨hinv, ?_, fun m hm => h.told_handed hle hopen hnojob hm, ?_,
    fun m hm m' hm' j' hj hj' => h.job_inj_handed hle hm hm' hj hj',
    fun p hp => (h.outputs_lt p hp).trans_le hnext, h.alive,
    fun _ => (h.matched hhealth).handed (fun id m hm => (h.table id m hm).2.1) hjob⟩
  · intro id m hm
    obtain ⟨hmlt, hrid, hfin⟩ := h.table id m hm
    refine ⟨hmlt, (handed_requestId s item j e m).trans hrid, ?_⟩
    by_cases hms : m = item.stream
    · rw [hms] at hfin ⊢
      rw [handed_opened_self]
      exact hfin
    · rw [handed_opened_of_ne hms]
      exact hfin
  · intro m hm j' hj'
    by_cases hms : m = item.stream
    · subst hms
      rw [handed_opened_self] at hj' ⊢
      cases hj'
      refine ⟨hlt, ?_⟩
      show (j, (s.opened item.stream).request) ∈ s.served.jobs ++ [(j, item.request)]
      rw [hrequest]
      exact List.mem_append_right _ (List.mem_singleton_self _)
    · rw [handed_opened_of_ne hms] at hj' ⊢
      obtain ⟨hjlt, hmem⟩ := h.job_lt m hm j' hj'
      exact ⟨hjlt.trans_le hnext, List.mem_append_left _ hmem⟩

end Handed

/-- The engine after a call that changes none of its requests. -/
def withEngine (s : AsyncLLMEngine E F) (e : E) : AsyncLLMEngine E F :=
  { s with served := { s.served with engine := e } }

theorem Sound.withEngine {e : E} (h : Sound Inv job next careful s queue) (hinv : Inv e)
    (hjob : job e = job s.engine) (hnext : next s.engine ≤ next e) :
    Sound Inv job next careful (s.withEngine e) queue where
  inv := hinv
  table := h.table
  told n hn := (h.told n hn).congr Iff.rfl rfl rfl rfl id rfl id
  job_lt n hn j hj := ⟨(h.job_lt n hn j hj).1.trans_le hnext, (h.job_lt n hn j hj).2⟩
  job_inj := h.job_inj
  outputs_lt p hp := (h.outputs_lt p hp).trans_le hnext
  alive := h.alive
  matched hh := by
    obtain ⟨hnd, hqueued, hheld, hknown⟩ := h.matched hh
    refine ⟨hnd, hqueued, ?_, ?_⟩
    · show ∀ id n, s.streams id = some n →
        n ∈ queue.map (·.stream) ∨ ∃ j, (s.opened n).job = some j ∧ job e id = some j
      rw [hjob]
      exact hheld
    · show ∀ id j, job e id = some j → ∃ n, s.streams id = some n ∧ (s.opened n).job = some j
      rw [hjob]
      exact hknown

theorem drop_streams_eq_some {id k : String} :
    (s.drop id).streams k = some n ↔ s.streams k = some n ∧ k ≠ id := by
  show Function.update s.streams id none k = some n ↔ _
  rw [Function.update_apply]
  split
  · rename_i hk
    exact iff_of_false (Option.some_ne_none n).symm fun h => h.2 hk
  · rename_i hk
    exact (and_iff_left hk).symm

/-- The stream of `id` gets its end, and the engine has no request under `id` any more. -/
def shut (s : AsyncLLMEngine E F) (e : E) (id : String) (n : ℕ) (item : StreamItem F) :
    AsyncLLMEngine E F :=
  ((s.withEngine e).drop id).put n item

section Shut

variable {e : E} {id : String} {item : StreamItem F} {queue' : List PendingRequest}

theorem shut_opened_of_ne {m : ℕ} (hm : m ≠ n) : (s.shut e id n item).opened m = s.opened m :=
  Function.update_of_ne hm _ _

theorem shut_opened_self : (s.shut e id n item).opened n =
    { s.opened n with items := (s.opened n).items ++ [item] } :=
  Function.update_self _ _ _

theorem shut_requestId (m : ℕ) : (s.shut e id n item).requestId m = s.requestId m := by
  by_cases hm : m = n
  · rw [hm, requestId, shut_opened_self]
    rfl
  · rw [requestId, shut_opened_of_ne hm]
    rfl

theorem shut_job (m : ℕ) : ((s.shut e id n item).opened m).job = (s.opened m).job := by
  by_cases hm : m = n
  · rw [hm, shut_opened_self]
  · rw [shut_opened_of_ne hm]

theorem shut_streams_eq_some {k : String} {m : ℕ} :
    (s.shut e id n item).streams k = some m ↔ k ≠ id ∧ s.streams k = some m :=
  drop_streams_eq_some.trans and_comm

theorem not_open_shut (hid : s.requestId n = id) : ¬(s.shut e id n item).Open n := by
  rw [Open, shut_requestId, hid, shut_streams_eq_some]
  exact fun h => h.1 rfl

/-- What is left of the queue waits, and the other requests of the engine stay. -/
theorem Matched.shut (h : s.Matched job queue) (hstream : s.streams id = some n)
    (hone : ∀ k, s.streams k = some n → k = id)
    (hjob : job e = Function.update (job s.engine) id none) (hsub : queue'.Sublist queue)
    (hgone : n ∉ queue'.map (·.stream))
    (hrest : ∀ m ∈ queue.map (·.stream), m = n ∨ m ∈ queue'.map (·.stream)) :
    (s.shut e id n item).Matched job queue' := by
  obtain ⟨hnd, hqueued, hheld, hknown⟩ := h
  have hjobs : ∀ k, k ≠ id → job (s.shut e id n item).engine k = job s.engine k := fun k hk => by
    show job e k = _
    rw [hjob, Function.update_of_ne hk]
  refine ⟨hnd.sublist (hsub.map _), ?_, ?_, ?_⟩
  · intro other hmem
    obtain ⟨hostream, horequest, hojob⟩ := hqueued other (hsub.subset hmem)
    have hon : other.stream ≠ n := fun heq => hgone (List.mem_map.mpr ⟨other, hmem, heq⟩)
    rw [shut_opened_of_ne hon]
    refine ⟨shut_streams_eq_some.mpr ⟨?_, hostream⟩, horequest, hojob⟩
    rintro heq
    rw [heq, hstream] at hostream
    exact hon (Option.some.inj hostream).symm
  · intro k m hm
    obtain ⟨hk, hold⟩ := shut_streams_eq_some.mp hm
    have hmn : m ≠ n := by
      rintro rfl
      exact hk (hone k hold)
    rw [shut_job, hjobs k hk]
    exact (hheld k m hold).imp_left fun hmem => (hrest m hmem).resolve_left hmn
  · intro k j hj
    by_cases hk : k = id
    · have hnone : job (s.shut e id n item).engine k = none := by
        show job e k = none
        rw [hjob, hk, Function.update_self]
      rw [hnone] at hj
      cases hj
    · rw [hjobs k hk] at hj
      obtain ⟨m, hm, hmjob⟩ := hknown k j hj
      exact ⟨m, shut_streams_eq_some.mpr ⟨hk, hm⟩, (shut_job m).trans hmjob⟩

theorem Sound.shut (h : Sound Inv job next careful s queue) (hhealth : s.isHealthy = true)
    (hstream : s.streams id = some n) (hinv : Inv e) (hnext : next s.engine ≤ next e)
    (hjob : job e = Function.update (job s.engine) id none) (hsub : queue'.Sublist queue)
    (hgone : n ∉ queue'.map (·.stream))
    (hrest : ∀ m ∈ queue.map (·.stream), m = n ∨ m ∈ queue'.map (·.stream))
    (htold : (s.shut e id n item).Told careful n) :
    Sound Inv job next careful (s.shut e id n item) queue' := by
  obtain ⟨hnlt, hnid, hnfin⟩ := h.table id n hstream
  have hone : ∀ k, s.streams k = some n → k = id := fun k hk =>
    (h.table k n hk).2.1.symm.trans hnid
  refine ⟨hinv, ?_, ?_, ?_, ?_, fun p hp => (h.outputs_lt p hp).trans_le hnext, h.alive,
    fun _ => (h.matched hhealth).shut hstream hone hjob hsub hgone hrest⟩
  · intro k m hm
    obtain ⟨hk, hold⟩ := shut_streams_eq_some.mp hm
    have hmn : m ≠ n := by
      rintro rfl
      exact hk (hone k hold)
    rw [shut_requestId, shut_opened_of_ne hmn]
    exact h.table k m hold
  · intro m hm
    by_cases hmn : m = n
    · rw [hmn]
      exact htold
    have hother : (s.shut e id n item).opened m = s.opened m := shut_opened_of_ne hmn
    refine (h.told m hm).congr ?_ (by rw [hother]) (by rw [hother]) (shut_job m)
      (by rw [hother]; exact fun h => h) (madeFor_congr (shut_job m) rfl) fun h => h
    rw [Open, Open, shut_requestId, shut_streams_eq_some]
    refine ⟨And.right, fun hopen => ⟨?_, hopen⟩⟩
    rintro heq
    rw [heq, hstream] at hopen
    exact hmn (Option.some.inj hopen).symm
  · intro m hm j hj
    rw [shut_job] at hj
    obtain ⟨hlt, hmem⟩ := h.job_lt m hm j hj
    refine ⟨hlt.trans_le hnext, ?_⟩
    by_cases hmn : m = n
    · subst hmn
      rw [shut_opened_self]
      exact hmem
    · rw [shut_opened_of_ne hmn]
      exact hmem
  · intro m hm m' hm' j hj hj'
    rw [shut_job] at hj hj'
    exact h.job_inj m hm m' hm' j hj hj'

end Shut

/-- A refused request fails its own stream only. -/
theorem Sound.refused (hS : EngineLaws S Inv job next) {item : PendingRequest} {fault : F} {e : E}
    (h : Sound Inv job next careful s (item :: queue)) (hhealth : s.isHealthy = true)
    (herr : S.submit s.engine item.request = (.error fault, e)) :
    Sound Inv job next careful (s.refused item fault e) queue := by
  obtain ⟨hinv, hjob, hnext⟩ := hS.lawful.submit_error h.inv herr
  have hmatched := h.matched hhealth
  obtain ⟨hstream, hrequest, hnojob⟩ := hmatched.queued item List.mem_cons_self
  obtain ⟨hlt, hid, -⟩ := h.table _ _ hstream
  have hnone : job s.engine item.request.requestId = none :=
    hmatched.job_of_waiting hstream hnojob
  have hself : (s.refused item fault e).opened item.stream =
      { s.opened item.stream with items := (s.opened item.stream).items ++ [.rejected fault] } :=
    shut_opened_self
  refine h.shut hhealth hstream hinv hnext ?_ (List.sublist_cons_self _ _)
    (List.nodup_cons.mp hmatched.nodup).1 (fun m hm => List.mem_cons.mp hm) ?_
  · rw [hjob]
    exact (Function.update_eq_self_iff.mpr hnone.symm).symm
  · refine .rejected (not_open_shut hid) ((congrArg Stream.job hself).trans hnojob) fault ?_
    obtain ⟨hitems, -⟩ := (h.told _ hlt).items_of_open (by rw [Open, hid]; exact hstream)
    rw [madeFor_of_none hnojob] at hitems
    refine (congrArg Stream.items hself).trans ?_
    show (s.opened item.stream).items ++ _ = _
    rw [hitems]
    rfl

/-- Every queued request is handed over or refused. -/
theorem Sound.drainPending (hS : EngineLaws S Inv job next)
    (h : Sound Inv job next careful s queue) (hhealth : s.isHealthy = true) :
    Sound Inv job next careful (drainPending S s queue) [] := by
  induction queue generalizing s with
  | nil => exact h
  | cons item rest ih =>
      rw [AsyncLLMEngine.drainPending]
      split
      · rename_i hok
        exact ih (h.handed hS hhealth hok) hhealth
      · rename_i herr
        exact ih (h.refused hS hhealth herr) hhealth

/-! ## §3  The queued aborts -/

/-- One abort: the engine's request and the stream under `id` end together. -/
theorem Sound.aborted {id : String} {e : E} (h : Sound Inv job next careful s [])
    (hhealth : s.isHealthy = true) (hinv : Inv e)
    (hjob : job e = Function.update (job s.engine) id none) (hnext : next e = next s.engine)
    (hcause : careful → ∀ n, s.streams id = some n → (s.opened n).gaveUp = true) :
    Sound Inv job next careful ((s.withEngine e).endStream id) [] := by
  unfold endStream
  split
  · rename_i hnone
    refine h.withEngine hinv ?_ hnext.ge
    rw [hjob]
    -- a request of the engine has a stream
    refine Function.update_eq_self_iff.mpr ?_
    cases hj : job s.engine id with
    | none => rfl
    | some j =>
        obtain ⟨m, hm, -⟩ := (h.matched hhealth).known id j hj
        have hnone' : s.streams id = none := hnone
        rw [hnone'] at hm
        cases hm
  · rename_i n hstream
    obtain ⟨hlt, hid, hfin⟩ := h.table id n hstream
    have hfin' : ((s.withEngine e).opened n).finished = false := hfin
    rw [if_neg (by rw [hfin']; exact Bool.false_ne_true)]
    refine h.shut hhealth hstream hinv hnext.ge hjob (List.Sublist.refl _) List.not_mem_nil
      (fun m hm => absurd hm List.not_mem_nil) ?_
    have hself : (s.shut e id n (.output (abortOutput id))).opened n =
        { s.opened n with items := (s.opened n).items ++ [.output (abortOutput id)] } :=
      shut_opened_self
    have hmade : (s.shut e id n (.output (abortOutput id))).madeFor n = s.madeFor n :=
      madeFor_congr (by rw [hself]) rfl
    obtain ⟨hitems, hgo⟩ := (h.told n hlt).items_of_open (by rw [Open, hid]; exact hstream)
    refine .aborted (not_open_shut hid) ?_ (by rw [hmade]; exact hgo) fun hc => ?_
    · rw [requestId, hself, hmade, ← hitems]
      exact congrArg (fun k => (s.opened n).items ++ [.output (abortOutput k)]) hid.symm
    · rw [hself]
      exact hcause hc n hstream

theorem endStream_streams {id : String} {k : String} {n : ℕ}
    (h : (s.endStream id).streams k = some n) : s.streams k = some n ∧ k ≠ id := by
  unfold endStream at h
  split at h
  · rename_i hnone
    refine ⟨h, ?_⟩
    rintro rfl
    rw [hnone] at h
    cases h
  · have hdrop : (s.drop id).streams k = some n := by
      split at h
      · exact h
      · exact h
    exact drop_streams_eq_some.mp hdrop

theorem endStream_gaveUp (s : AsyncLLMEngine E F) (id : String) (m : ℕ) :
    ((s.endStream id).opened m).gaveUp = (s.opened m).gaveUp := by
  unfold endStream
  split
  · rfl
  · rename_i n hstream
    split
    · rfl
    · show (Function.update s.opened n _ m).gaveUp = _
      by_cases hm : m = n
      · rw [hm, Function.update_self]
        rfl
      · rw [Function.update_of_ne hm]

/-- The queued aborts never fail. -/
theorem Sound.drainAborts (hS : EngineLaws S Inv job next) {ids : List String}
    (h : Sound Inv job next careful s []) (hhealth : s.isHealthy = true)
    (hcause : careful → ∀ id ∈ ids, ∀ n, s.streams id = some n → (s.opened n).gaveUp = true) :
    ∃ s', drainAborts S s ids = (none, s') ∧ Sound Inv job next careful s' [] ∧
      s'.isHealthy = true := by
  induction ids generalizing s with
  | nil => exact ⟨s, rfl, h, hhealth⟩
  | cons id rest ih =>
      obtain ⟨was, e, hok, hinv, hjob, hnext⟩ := hS.lawful.abort id h.inv
      rw [AsyncLLMEngine.drainAborts]
      simp only [hok]
      have hnow := h.aborted hhealth hinv hjob hnext fun hc => hcause hc id List.mem_cons_self
      have hhealth' : ((s.withEngine e).endStream id).isHealthy = true := by
        rw [← hhealth]
        unfold endStream
        split
        · rfl
        · split <;> rfl
      refine ih hnow hhealth' fun hc k hk n hn => ?_
      rw [endStream_gaveUp]
      exact hcause hc k (List.mem_cons_of_mem _ hk) n (endStream_streams hn).1

/-! ## §4  The deltas of a step -/

/-- The deltas under a request id. -/
def deltasFor (id : String) (os : List RequestOutput) : List RequestOutput :=
  os.filter fun o => decide (o.requestId = id)

theorem deltasFor_cons_self {id : String} {o : RequestOutput} {os : List RequestOutput}
    (h : o.requestId = id) : deltasFor id (o :: os) = o :: deltasFor id os :=
  List.filter_cons_of_pos (decide_eq_true h)

theorem deltasFor_cons_of_ne {id : String} {o : RequestOutput} {os : List RequestOutput}
    (h : o.requestId ≠ id) : deltasFor id (o :: os) = deltasFor id os :=
  List.filter_cons_of_neg (by rw [decide_eq_true_eq]; exact h)

/-- Nothing changes but the streams and their table. -/
structure StreamsOnly (s s' : AsyncLLMEngine E F) : Prop where
  served_eq : s'.served = s.served
  pending_eq : s'.pending = s.pending
  aborting_eq : s'.aborting = s.aborting
  numOpened_eq : s'.numOpened = s.numOpened
  loop_eq : s'.loop = s.loop
  health_eq : s'.isHealthy = s.isHealthy

/-- What `_dispatch` does to the streams, by what each is in the table. -/
structure Dispatched (s : AsyncLLMEngine E F) (os : List RequestOutput)
    (s' : AsyncLLMEngine E F) : Prop where
  absent : ∀ id, s.streams id = none → s'.streams id = none
  closed : ∀ n, ¬s.Open n → s'.opened n = s.opened n
  ongoing : ∀ id n, s.streams id = some n → Ongoing RequestOutput.finished (deltasFor id os) →
    s'.streams id = some n ∧ s'.opened n = { s.opened n with
      items := (s.opened n).items ++ (deltasFor id os).map .output }
  concluded : ∀ id n, s.streams id = some n →
    Concluded RequestOutput.finished (deltasFor id os) →
    s'.streams id = none ∧ s'.opened n = { s.opened n with
      items := (s.opened n).items ++ (deltasFor id os).map .output
      finished := true }

/-- A delta with a stream. -/
def delivered (s : AsyncLLMEngine E F) (n : ℕ) (o : RequestOutput) : AsyncLLMEngine E F :=
  if o.finished then
    ((s.put n (.output o)).setStream n
      { (s.put n (.output o)).opened n with finished := true }).drop o.requestId
  else s.put n (.output o)

theorem delivered_opened_of_ne {o : RequestOutput} {m : ℕ} (hm : m ≠ n) :
    (s.delivered n o).opened m = s.opened m := by
  unfold delivered
  split
  · exact (Function.update_of_ne hm _ _).trans (Function.update_of_ne hm _ _)
  · exact Function.update_of_ne hm _ _

theorem delivered_opened_self {o : RequestOutput} : (s.delivered n o).opened n =
    { s.opened n with
      items := (s.opened n).items ++ [.output o]
      finished := (s.opened n).finished || o.finished } := by
  have hput : (s.put n (.output o)).opened n =
      { s.opened n with items := (s.opened n).items ++ [.output o] } := Function.update_self _ _ _
  unfold delivered
  split
  · rename_i hfin
    refine (Function.update_self _ _ _).trans ?_
    rw [hput, hfin, Bool.or_true]
  · rename_i hfin
    rw [hput, Bool.eq_false_iff.mpr hfin, Bool.or_false]

theorem delivered_requestId (s : AsyncLLMEngine E F) (n : ℕ) (o : RequestOutput) (m : ℕ) :
    (s.delivered n o).requestId m = s.requestId m := by
  unfold requestId
  by_cases hm : m = n
  · rw [hm, delivered_opened_self]
  · rw [delivered_opened_of_ne hm]

theorem delivered_streams {o : RequestOutput} {id : String} (hid : o.requestId ≠ id) :
    (s.delivered n o).streams id = s.streams id := by
  unfold delivered
  split
  · exact Function.update_of_ne hid.symm _ _
  · rfl

theorem delivered_streams_self {o : RequestOutput} (hstream : s.streams o.requestId = some n) :
    (s.delivered n o).streams o.requestId = if o.finished then none else some n := by
  unfold delivered
  split
  · exact Function.update_self _ _ _
  · exact hstream

theorem dispatch_cons {o : RequestOutput} {os : List RequestOutput} :
    s.dispatch (o :: os) = match s.streams o.requestId with
      | none => s.dispatch os
      | some n => (s.delivered n o).dispatch os := by
  rw [dispatch]
  cases s.streams o.requestId with
  | none => rfl
  | some n =>
      simp only [delivered]
      split <;> rfl

theorem streamsOnly_dispatch (os : List RequestOutput) (s : AsyncLLMEngine E F) :
    StreamsOnly s (s.dispatch os) := by
  induction os generalizing s with
  | nil => exact ⟨rfl, rfl, rfl, rfl, rfl, rfl⟩
  | cons o os ih =>
      rw [dispatch_cons]
      split
      · exact ih s
      · rename_i n _
        have hone : StreamsOnly s (s.delivered n o) := by
          unfold delivered
          split <;> exact ⟨rfl, rfl, rfl, rfl, rfl, rfl⟩
        have hrest := ih (s.delivered n o)
        exact ⟨hrest.served_eq.trans hone.served_eq, hrest.pending_eq.trans hone.pending_eq,
          hrest.aborting_eq.trans hone.aborting_eq, hrest.numOpened_eq.trans hone.numOpened_eq,
          hrest.loop_eq.trans hone.loop_eq, hrest.health_eq.trans hone.health_eq⟩

section Dispatch

variable {o : RequestOutput} {os : List RequestOutput} {m : ℕ}

theorem dispatched_nil (s : AsyncLLMEngine E F) : Dispatched s [] s where
  absent _ h := h
  closed _ _ := rfl
  ongoing id n hn _ := by
    refine ⟨hn, ?_⟩
    show s.opened n = { s.opened n with items := (s.opened n).items ++ [] }
    rw [List.append_nil]
  concluded id n _ hend := by
    obtain ⟨before, o, heq, -⟩ := hend
    exact absurd heq.symm (List.append_ne_nil_of_right_ne_nil _ (List.cons_ne_nil _ _))

/-- A delta whose consumer is gone. -/
theorem Dispatched.skip (h : Dispatched s os s') (hstream : s.streams o.requestId = none) :
    Dispatched s (o :: os) s' := by
  have hne : ∀ id n, s.streams id = some n → o.requestId ≠ id := by
    rintro id n hn rfl
    rw [hstream] at hn
    cases hn
  refine ⟨h.absent, h.closed, fun id n hn => ?_, fun id n hn => ?_⟩
  · rw [deltasFor_cons_of_ne (hne id n hn)]
    exact h.ongoing id n hn
  · rw [deltasFor_cons_of_ne (hne id n hn)]
    exact h.concluded id n hn

/-- The table of the stream a delta goes to. -/
theorem delivered_named (hid : ∀ id n, s.streams id = some n → s.requestId n = id)
    (hstream : s.streams o.requestId = some m) {id : String}
    (hn : (s.delivered m o).streams id = some n) : (s.delivered m o).requestId n = id := by
  rw [delivered_requestId]
  by_cases hoid : o.requestId = id
  · rw [← hoid, delivered_streams_self hstream] at hn
    split at hn
    · cases hn
    · rw [← Option.some.inj hn, hid _ _ hstream, hoid]
  · rw [delivered_streams hoid] at hn
    exact hid id n hn

/-- A stream that was closed before a delta of another one. -/
theorem Dispatched.closed_deliver (h : Dispatched (s.delivered m o) os s')
    (hm : s.requestId m = o.requestId) (hstream : s.streams o.requestId = some m)
    (hclosed : ¬s.Open n) : s'.opened n = s.opened n := by
  have hnm : n ≠ m := by
    rintro rfl
    rw [Open, hm] at hclosed
    exact hclosed hstream
  rw [h.closed n ?_, delivered_opened_of_ne hnm]
  rw [Open, delivered_requestId]
  intro hopen
  by_cases hoid : o.requestId = s.requestId n
  · rw [← hoid, delivered_streams_self hstream] at hopen
    split at hopen
    · cases hopen
    · exact hnm (Option.some.inj hopen).symm
  · rw [delivered_streams hoid] at hopen
    exact hclosed hopen

/-- The stream a delta goes to, when no last delta comes. -/
theorem Dispatched.ongoing_deliver (h : Dispatched (s.delivered m o) os s')
    (hstream : s.streams o.requestId = some m)
    (hgo : Ongoing RequestOutput.finished (o :: deltasFor o.requestId os)) :
    s'.streams o.requestId = some m ∧ s'.opened m = { s.opened m with
      items := (s.opened m).items ++ (o :: deltasFor o.requestId os).map .output } := by
  have hfin : o.finished = false := hgo o List.mem_cons_self
  have hopen : (s.delivered m o).streams o.requestId = some m := by
    rw [delivered_streams_self hstream, hfin]
    rfl
  obtain ⟨hstays, hvalue⟩ := h.ongoing _ m hopen fun x hx => hgo x (List.mem_cons_of_mem _ hx)
  refine ⟨hstays, ?_⟩
  rw [hvalue, delivered_opened_self, hfin, Bool.or_false, List.map_cons, List.append_assoc]
  rfl

/-- The stream a delta goes to, when the last delta comes: this one or a later one. -/
theorem Dispatched.concluded_deliver (h : Dispatched (s.delivered m o) os s')
    (hm : s.requestId m = o.requestId) (hstream : s.streams o.requestId = some m)
    (hend : Concluded RequestOutput.finished (o :: deltasFor o.requestId os)) :
    s'.streams o.requestId = none ∧ s'.opened m = { s.opened m with
      items := (s.opened m).items ++ (o :: deltasFor o.requestId os).map .output
      finished := true } := by
  rcases hend.cons with ⟨hfin, hnil⟩ | ⟨hfin, hend⟩
  · have hgone : (s.delivered m o).streams o.requestId = none := by
      rw [delivered_streams_self hstream, hfin]
      rfl
    have hclosed : ¬(s.delivered m o).Open m := by
      rw [Open, delivered_requestId, hm, hgone]
      exact (Option.some_ne_none m).symm
    refine ⟨h.absent _ hgone, ?_⟩
    rw [h.closed m hclosed, delivered_opened_self, hnil, hfin, Bool.or_true]
    rfl
  · have hopen : (s.delivered m o).streams o.requestId = some m := by
      rw [delivered_streams_self hstream, hfin]
      rfl
    obtain ⟨hgone, hvalue⟩ := h.concluded _ m hopen hend
    refine ⟨hgone, ?_⟩
    rw [hvalue, delivered_opened_self, List.map_cons, List.append_assoc]
    rfl

/-- A delta with a stream, then the others. -/
theorem Dispatched.deliver (h : Dispatched (s.delivered m o) os s')
    (hid : ∀ id n, s.streams id = some n → s.requestId n = id)
    (hstream : s.streams o.requestId = some m) : Dispatched s (o :: os) s' := by
  have hm := hid _ _ hstream
  -- the other streams do not see it
  have hother : ∀ id n, s.streams id = some n → o.requestId ≠ id →
      (s.delivered m o).streams id = some n ∧ (s.delivered m o).opened n = s.opened n := by
    intro id n hn hne
    refine ⟨(delivered_streams hne).trans hn, delivered_opened_of_ne ?_⟩
    rintro rfl
    exact hne (hm.symm.trans (hid id n hn))
  refine ⟨?_, fun n => h.closed_deliver hm hstream, ?_, ?_⟩
  · intro id hnone
    have hne : o.requestId ≠ id := by
      rintro rfl
      rw [hstream] at hnone
      cases hnone
    exact h.absent id ((delivered_streams hne).trans hnone)
  · intro id n hn hgo
    by_cases hoid : o.requestId = id
    · subst hoid
      obtain rfl := Option.some.inj (hstream.symm.trans hn)
      rw [deltasFor_cons_self rfl] at hgo ⊢
      exact h.ongoing_deliver hstream hgo
    · rw [deltasFor_cons_of_ne hoid] at hgo ⊢
      obtain ⟨hopen, hsame⟩ := hother id n hn hoid
      rw [← hsame]
      exact h.ongoing id n hopen hgo
  · intro id n hn hend
    by_cases hoid : o.requestId = id
    · subst hoid
      obtain rfl := Option.some.inj (hstream.symm.trans hn)
      rw [deltasFor_cons_self rfl] at hend ⊢
      exact h.concluded_deliver hm hstream hend
    · rw [deltasFor_cons_of_ne hoid] at hend ⊢
      obtain ⟨hopen, hsame⟩ := hother id n hn hoid
      rw [← hsame]
      exact h.concluded id n hopen hend

end Dispatch

/-- Each delta goes to the stream of its request. -/
theorem dispatch_spec (os : List RequestOutput)
    (hid : ∀ id n, s.streams id = some n → s.requestId n = id) :
    Dispatched s os (s.dispatch os) := by
  induction os generalizing s with
  | nil => exact dispatched_nil s
  | cons o os ih =>
      rw [dispatch_cons]
      cases hstream : s.streams o.requestId with
      | none => exact (ih hid).skip hstream
      | some m => exact (ih fun id n => delivered_named hid hstream).deliver hid hstream

/-- The outputs made for a stream, after a step. -/
theorem madeFor_append {os : List (ℕ × RequestOutput)} {j : ℕ}
    (hjob : (s.opened n).job = some j) (hjob' : (s'.opened n).job = some j)
    (houtputs : s'.served.outputs = s.served.outputs ++ os) :
    s'.madeFor n = s.madeFor n ++ (os.filter fun p => decide (p.1 = j)).map Prod.snd := by
  rw [madeFor_of_job hjob, madeFor_of_job hjob', houtputs, List.filter_append, List.map_append]

theorem deltasFor_map (id : String) (os : List (ℕ × RequestOutput)) :
    deltasFor id (os.map Prod.snd) =
      (os.filter fun p => decide (p.2.requestId = id)).map Prod.snd :=
  List.filter_map

/-- The open streams next to what a step has made, `job` and `job'` being the engine's requests
before and after it. -/
structure Fed (job job' : String → Option ℕ) (s : AsyncLLMEngine E F)
    (os : List (ℕ × RequestOutput)) : Prop where
  waiting : ∀ id m, s.streams id = some m → (s.opened m).job = none →
    deltasFor id (os.map Prod.snd) = []
  working : ∀ id m j, s.streams id = some m → (s.opened m).job = some j →
    deltasFor id (os.map Prod.snd) = (os.filter fun p => decide (p.1 = j)).map Prod.snd
  going : ∀ id m, s.streams id = some m → job' id ≠ none ∨ (s.opened m).job = none →
    Ongoing RequestOutput.finished (deltasFor id (os.map Prod.snd))
  ending : ∀ id m, s.streams id = some m → job' id = none → (s.opened m).job ≠ none →
    Concluded RequestOutput.finished (deltasFor id (os.map Prod.snd))

section Returned

variable {e : E} {os : List (ℕ × RequestOutput)} {id : String} {m : ℕ}

theorem Matched.fed (hS : EngineLaws S Inv job next) (h : s.Matched job queue)
    (hinv : Inv s.engine) (hbatch : Batch S.about S.last (job s.engine) os (job e)) :
    Fed (job s.engine) (job e) s os := by
  have hinj : ∀ k k' j, job s.engine k = some j → job s.engine k' = some j → k = k' :=
    fun k k' j => hS.lawful.job_inj hinv
  have hwaiting : ∀ id m, s.streams id = some m → (s.opened m).job = none →
      deltasFor id (os.map Prod.snd) = [] := by
    intro id m hm hnone
    rw [deltasFor_map, List.map_eq_nil_iff, List.filter_eq_nil_iff]
    intro p hp hpid
    have htag := hbatch.tagged p hp
    rw [hS.about_eq, of_decide_eq_true hpid, h.job_of_waiting hm hnone] at htag
    cases htag
  have hworking : ∀ id m j, s.streams id = some m → (s.opened m).job = some j →
      deltasFor id (os.map Prod.snd) = (os.filter fun p => decide (p.1 = j)).map Prod.snd := by
    intro id m j hm hj
    rw [deltasFor_map, ← hbatch.filter_about hinj (h.job_of_working hm hj)]
    simp only [hS.about_eq]
  refine ⟨hwaiting, hworking, ?_, ?_⟩
  · intro id m hm hor
    cases hj : (s.opened m).job with
    | none =>
        rw [hwaiting id m hm hj]
        exact ongoing_nil
    | some j =>
        rw [hworking id m j hm hj, ongoing_map]
        obtain ⟨j', hj'⟩ := Option.ne_none_iff_exists'.mp (hor.resolve_right (by simp [hj]))
        obtain rfl := Option.some.inj
          ((hbatch.going id j' hj').1.symm.trans (h.job_of_working hm hj))
        have hon := hbatch.ongoing hinj hj'
        simp only [hS.last_eq] at hon
        exact hon
  · intro id m hm hnone hsome
    obtain ⟨j, hj⟩ := Option.ne_none_iff_exists'.mp hsome
    rw [hworking id m j hm hj]
    have hend := hbatch.ended id j (h.job_of_working hm hj) hnone
    simp only [hS.last_eq] at hend
    exact hend.map

variable {job₀ job' : String → Option ℕ}

/-- The table follows the engine: a stream leaves it exactly when its request does. -/
theorem Fed.fate (h : Fed job₀ job' s os) (hd : Dispatched s (os.map Prod.snd) s')
    (hm : s.streams id = some m) :
    (s'.streams id = some m ∧ (job' id ≠ none ∨ (s.opened m).job = none)) ∨
      (s'.streams id = none ∧ job' id = none ∧ (s.opened m).job ≠ none) := by
  by_cases hor : job' id ≠ none ∨ (s.opened m).job = none
  · exact Or.inl ⟨(hd.ongoing id m hm (h.going id m hm hor)).1, hor⟩
  · obtain ⟨hnone, hsome⟩ := not_or.mp hor
    rw [not_not] at hnone
    exact Or.inr ⟨(hd.concluded id m hm (h.ending id m hm hnone hsome)).1, hnone, hsome⟩

/-- A step opens no stream. -/
theorem Fed.stays (h : Fed job₀ job' s os) (hd : Dispatched s (os.map Prod.snd) s')
    (hm : s'.streams id = some m) : s.streams id = some m := by
  cases hold : s.streams id with
  | none =>
      rw [hd.absent id hold] at hm
      cases hm
  | some m' =>
      rcases h.fate hd hold with ⟨hnew, -⟩ | ⟨hnew, -⟩
      · rw [hnew] at hm
        exact hm
      · rw [hnew] at hm
        cases hm

theorem Fed.frame (h : Fed job₀ job' s os) (hd : Dispatched s (os.map Prod.snd) s') (m : ℕ) :
    (s'.opened m).request = (s.opened m).request ∧ (s'.opened m).job = (s.opened m).job ∧
      (s'.opened m).gaveUp = (s.opened m).gaveUp := by
  by_cases hopen : s.Open m
  · rcases h.fate hd hopen with ⟨-, hor⟩ | ⟨-, hnone, hsome⟩
    · rw [(hd.ongoing _ m hopen (h.going _ m hopen hor)).2]
      exact ⟨rfl, rfl, rfl⟩
    · rw [(hd.concluded _ m hopen (h.ending _ m hopen hnone hsome)).2]
      exact ⟨rfl, rfl, rfl⟩
  · rw [hd.closed m hopen]
    exact ⟨rfl, rfl, rfl⟩

theorem Fed.requestId_eq (h : Fed job₀ job' s os) (hd : Dispatched s (os.map Prod.snd) s')
    (m : ℕ) : s'.requestId m = s.requestId m :=
  congrArg (·.requestId) (h.frame hd m).1

/-- What has been made for an open stream grows by the deltas under its id. -/
theorem Fed.madeFor_eq (h : Fed job₀ job' s os) (hd : Dispatched s (os.map Prod.snd) s')
    (houtputs : s'.served.outputs = s.served.outputs ++ os) (hm : s.streams id = some m) :
    s'.madeFor m = s.madeFor m ++ deltasFor id (os.map Prod.snd) := by
  have hjob := (h.frame hd m).2.1
  cases hj : (s.opened m).job with
  | none =>
      rw [h.waiting id m hm hj, List.append_nil, madeFor_of_none hj,
        madeFor_of_none (hjob.trans hj)]
  | some j =>
      rw [h.working id m j hm hj]
      exact madeFor_append hj (hjob.trans hj) houtputs

/-- An open stream gets its deltas, and its end with the last of them. -/
theorem Fed.told (h : Fed job₀ job' s os) (hd : Dispatched s (os.map Prod.snd) s')
    (houtputs : s'.served.outputs = s.served.outputs ++ os) (hold : s.Told careful m)
    (hopen : s.Open m) : s'.Told careful m := by
  obtain ⟨hitems, hgo⟩ := hold.items_of_open hopen
  have hmade := h.madeFor_eq hd houtputs hopen
  rcases h.fate hd hopen with ⟨hstill, hor⟩ | ⟨hgone, hnone, hsome⟩
  · have hdeltas := h.going _ m hopen hor
    refine .going ?_ ?_ ?_
    · rw [Open, h.requestId_eq hd]
      exact hstill
    · rw [(hd.ongoing _ m hopen hdeltas).2, hmade, List.map_append, ← hitems]
    · rw [hmade]
      exact hgo.append hdeltas
  · have hdeltas := h.ending _ m hopen hnone hsome
    refine .concluded ?_ ?_ ?_
    · rw [Open, h.requestId_eq hd, hgone]
      exact (Option.some_ne_none m).symm
    · rw [(hd.concluded _ m hopen hdeltas).2, hmade, List.map_append, ← hitems]
    · rw [hmade]
      exact hgo.conclude hdeltas

/-- The engine makes nothing for a stream that has ended. -/
theorem Sound.madeFor_ended (h : Sound Inv job next careful s queue)
    (hhealth : s.isHealthy = true)
    (hbatch : Batch S.about S.last (job s.engine) os (job e))
    (hjob : (s'.opened m).job = (s.opened m).job)
    (houtputs : s'.served.outputs = s.served.outputs ++ os) (hm : m < s.numOpened)
    (hended : ¬s.Open m) : s'.madeFor m = s.madeFor m := by
  cases hj : (s.opened m).job with
  | none => rw [madeFor_of_none hj, madeFor_of_none (hjob.trans hj)]
  | some j =>
      rw [madeFor_append hj (hjob.trans hj) houtputs, hbatch.filter_eq_nil (j := j) ?_,
        List.map_nil, List.append_nil]
      intro k hk
      obtain ⟨m', hm', hjob'⟩ := (h.matched hhealth).known k j hk
      obtain ⟨hlt, hrid, -⟩ := h.table k m' hm'
      obtain rfl := h.job_inj m hm m' hlt j hj hjob'
      rw [Open, hrid] at hended
      exact hended hm'

/-- The table and the engine's requests still match. -/
theorem Fed.matched (h : Fed (job s.engine) (job e) s os)
    (hd : Dispatched s (os.map Prod.snd) s') (hm : s.Matched job queue) (hengine : s'.engine = e)
    (hbatch : Batch S.about S.last (job s.engine) os (job e)) : s'.Matched job queue where
  nodup := hm.nodup
  queued item hitem := by
    obtain ⟨hstream, hrequest, hjob⟩ := hm.queued item hitem
    rw [(h.frame hd _).1, (h.frame hd _).2.1]
    refine ⟨?_, hrequest, hjob⟩
    exact (hd.ongoing _ _ hstream (h.going _ _ hstream (Or.inr hjob))).1
  held id m hstream := by
    have hold := h.stays hd hstream
    rw [(h.frame hd m).2.1, hengine]
    rcases hm.held id m hold with hmem | ⟨j, hj, hlive⟩
    · exact Or.inl hmem
    · refine Or.inr ⟨j, hj, ?_⟩
      rcases h.fate hd hold with ⟨-, hor⟩ | ⟨hgone, -⟩
      · obtain ⟨j', hj'⟩ := Option.ne_none_iff_exists'.mp (hor.resolve_right (by simp [hj]))
        rw [hj', Option.some.inj ((hbatch.going id j' hj').1.symm.trans hlive)]
      · rw [hgone] at hstream
        cases hstream
  known id j hj := by
    rw [hengine] at hj
    obtain ⟨m, hstream, hjob⟩ := hm.known id j (hbatch.going id j hj).1
    refine ⟨m, ?_, (h.frame hd m).2.1.trans hjob⟩
    rcases h.fate hd hstream with ⟨hstill, -⟩ | ⟨-, hnone, -⟩
    · exact hstill
    · rw [hnone] at hj
      cases hj

end Returned

/-- A step: each open stream gets what the step made for its request. -/
theorem Sound.returned (hS : EngineLaws S Inv job next) {t : T} {e : E}
    {os : List (ℕ × RequestOutput)} (h : Sound Inv job next careful s queue)
    (hhealth : s.isHealthy = true) (hok : S.step s.engine t = .ok (os, e)) :
    Sound Inv job next careful (s.returned os e) queue := by
  obtain ⟨hinv, hbatch, hnext⟩ := hS.lawful.step h.inv hok
  have hmatched := h.matched hhealth
  have hf := hmatched.fed hS h.inv hbatch
  let s₁ : AsyncLLMEngine E F :=
    { s with served := { s.served with engine := e, outputs := s.served.outputs ++ os } }
  have hrest : StreamsOnly s₁ (s.returned os e) := streamsOnly_dispatch _ _
  have hd : Dispatched s (os.map Prod.snd) (s.returned os e) := by
    have hall : Dispatched s₁ (os.map Prod.snd) (s.returned os e) :=
      dispatch_spec _ fun id m hm => (h.table id m hm).2.1
    exact ⟨hall.absent, hall.closed, hall.ongoing, hall.concluded⟩
  generalize s.returned os e = s' at hrest hd ⊢
  have houtputs : s'.served.outputs = s.served.outputs ++ os := by
    rw [hrest.served_eq]
  have hengine : s'.engine = e := congrArg (·.engine) hrest.served_eq
  have hcount : s'.numOpened = s.numOpened := hrest.numOpened_eq
  refine ⟨?_, ?_, ?_, ?_, ?_, ?_, ?_, fun _ => hf.matched hd hmatched hengine hbatch⟩
  · rw [hengine]
    exact hinv
  · intro id m hm
    have hold := hf.stays hd hm
    obtain ⟨hlt, hrid, hfin⟩ := h.table id m hold
    rw [hcount, hf.requestId_eq hd]
    refine ⟨hlt, hrid, ?_⟩
    rcases hf.fate hd hold with ⟨-, hor⟩ | ⟨hgone, -⟩
    · rw [(hd.ongoing id m hold (hf.going id m hold hor)).2]
      exact hfin
    · rw [hgone] at hm
      cases hm
  · intro m hm
    rw [hcount] at hm
    by_cases hopen : s.Open m
    · exact hf.told hd houtputs (h.told m hm) hopen
    · obtain ⟨hrequest, hjob, hgave⟩ := hf.frame hd m
      refine (h.told m hm).congr ?_ hrequest (by rw [hd.closed m hopen]) hjob
        (by rw [hgave]; exact id) (h.madeFor_ended hhealth hbatch hjob houtputs hm hopen)
        fun hh => hrest.health_eq.trans hh
      refine iff_of_false (fun hopen' => hopen ?_) hopen
      rw [Open, hf.requestId_eq hd] at hopen'
      exact hf.stays hd hopen'
  · intro m hm j hj
    rw [hcount] at hm
    rw [(hf.frame hd m).2.1] at hj
    rw [(hf.frame hd m).1, hengine, hnext, hrest.served_eq]
    exact h.job_lt m hm j hj
  · intro m hm m' hm' j hj hj'
    rw [hcount] at hm hm'
    rw [(hf.frame hd _).2.1] at hj hj'
    exact h.job_inj m hm m' hm' j hj hj'
  · intro p hp
    rw [houtputs] at hp
    rw [hengine, hnext]
    rcases List.mem_append.mp hp with hp | hp
    · exact h.outputs_lt p hp
    · exact hS.lawful.job_lt h.inv (hbatch.tagged p hp)
  · intro _
    rw [hrest.health_eq]
    exact hhealth

/-! ## §5  The end of the loop -/

/-- `_fail_all`, and nothing runs any more: every open stream gets its exception. -/
theorem Sound.failAll (h : Sound Inv job next careful s queue) (error : DeadError F)
    {queue' : List PendingRequest}
    (hs : s' = { s.failAll error with loop := .gone, error := s'.error, closed := s'.closed })
    (hdead : s'.isHealthy = false) : Sound Inv job next careful s' queue' := by
  have hserved : s'.served = s.served := by rw [hs]; rfl
  have hcount : s'.numOpened = s.numOpened := by rw [hs]; rfl
  have hclosed : ∀ id, s'.streams id = none := fun id => by rw [hs]; rfl
  have hloop : s'.loop = .gone := by rw [hs]
  have hvalue : ∀ m, s'.opened m =
      if s.streams (s.requestId m) = some m ∧ (s.opened m).finished = false then
        { s.opened m with items := (s.opened m).items ++ [.dead error] }
      else s.opened m := fun m => by rw [hs]; rfl
  have hframe : ∀ m, (s'.opened m).request = (s.opened m).request ∧
      (s'.opened m).job = (s.opened m).job ∧ (s'.opened m).gaveUp = (s.opened m).gaveUp := by
    intro m
    rw [hvalue]
    split
    · exact ⟨rfl, rfl, rfl⟩
    · exact ⟨rfl, rfl, rfl⟩
  have hmade : ∀ m, s'.madeFor m = s.madeFor m := fun m =>
    madeFor_congr (hframe m).2.1 (by rw [hserved])
  have hended : ∀ m, ¬s'.Open m := fun m => by
    rw [Open, hclosed]
    exact (Option.some_ne_none m).symm
  refine ⟨by rw [engine, hserved]; exact h.inv, ?_, ?_, ?_, ?_, ?_, fun hne => absurd hloop hne,
    fun hh => ?_⟩
  · intro id m hm
    rw [hclosed] at hm
    cases hm
  · intro m hm
    rw [hcount] at hm
    by_cases hopen : s.Open m
    · obtain ⟨hitems, hgo⟩ := (h.told m hm).items_of_open hopen
      refine .dead (hended m) hdead error ?_ (by rw [hmade]; exact hgo)
      rw [hvalue, if_pos ⟨hopen, (h.table _ m hopen).2.2⟩, hmade, ← hitems]
    · have hsame : s'.opened m = s.opened m := by
        rw [hvalue, if_neg fun h => hopen h.1]
      exact (h.told m hm).congr (iff_of_false (hended m) hopen) (hframe m).1 (by rw [hsame])
        (hframe m).2.1 (by rw [hsame]; exact id) (hmade m) fun _ => hdead
  · intro m hm j hj
    rw [hcount] at hm
    rw [(hframe m).2.1] at hj
    rw [(hframe m).1, engine, hserved]
    exact h.job_lt m hm j hj
  · intro m hm m' hm' j hj hj'
    rw [hcount] at hm hm'
    rw [(hframe _).2.1] at hj hj'
    exact h.job_inj m hm m' hm' j hj hj'
  · intro p hp
    rw [hserved] at hp
    rw [engine, hserved]
    exact h.outputs_lt p hp
  · rw [hdead] at hh
    cases hh

theorem Sound.die {queue' : List PendingRequest} (h : Sound Inv job next careful s queue)
    (cause : Cause F) : Sound Inv job next careful (s.die cause) queue' :=
  h.failAll (.died cause) rfl rfl

theorem isHealthy_of_closed (hclosed : s.closed = true) : s.isHealthy = false := by
  rw [isHealthy, hclosed, Bool.not_true, Bool.and_false]

theorem Sound.close (h : Sound Inv job next careful s s.pending) :
    Sound Inv job next careful s.close s.close.pending := by
  unfold AsyncLLMEngine.close
  split
  · exact h
  · exact h.failAll .closed rfl (isHealthy_of_closed rfl)

/-! ## §6  A turn of the loop -/

/-- The table loses streams, and the consumers' side of the streams stays. -/
structure Narrows (s s' : AsyncLLMEngine E F) : Prop where
  numOpened_eq : s'.numOpened = s.numOpened
  streams : ∀ id n, s'.streams id = some n → s.streams id = some n
  request_eq : ∀ n, (s'.opened n).request = (s.opened n).request
  reading_eq : ∀ n, (s'.opened n).reading = (s.opened n).reading
  gaveUp_eq : ∀ n, (s'.opened n).gaveUp = (s.opened n).gaveUp

theorem Narrows.refl (s : AsyncLLMEngine E F) : Narrows s s :=
  ⟨rfl, fun _ _ h => h, fun _ => rfl, fun _ => rfl, fun _ => rfl⟩

theorem Narrows.trans {s'' : AsyncLLMEngine E F} (h : Narrows s s') (h' : Narrows s' s'') :
    Narrows s s'' where
  numOpened_eq := h'.numOpened_eq.trans h.numOpened_eq
  streams id n hn := h.streams id n (h'.streams id n hn)
  request_eq n := (h'.request_eq n).trans (h.request_eq n)
  reading_eq n := (h'.reading_eq n).trans (h.reading_eq n)
  gaveUp_eq n := (h'.gaveUp_eq n).trans (h.gaveUp_eq n)

theorem Narrows.requestId_eq (h : Narrows s s') (n : ℕ) : s'.requestId n = s.requestId n :=
  congrArg (·.requestId) (h.request_eq n)

theorem narrows_setStream {st : Stream F} (hrequest : st.request = (s.opened n).request)
    (hreading : st.reading = (s.opened n).reading) (hgave : st.gaveUp = (s.opened n).gaveUp) :
    Narrows s (s.setStream n st) := by
  have hupd : ∀ {α : Type} (f : Stream F → α), f st = f (s.opened n) →
      ∀ m, f (Function.update s.opened n st m) = f (s.opened m) := by
    intro α f hf m
    by_cases hm : m = n
    · rw [hm, Function.update_self, hf]
    · rw [Function.update_of_ne hm]
  exact ⟨rfl, fun _ _ h => h, hupd _ hrequest, hupd _ hreading, hupd _ hgave⟩

theorem narrows_drop (s : AsyncLLMEngine E F) (id : String) : Narrows s (s.drop id) :=
  ⟨rfl, fun _ _ h => (drop_streams_eq_some.mp h).1, fun _ => rfl, fun _ => rfl, fun _ => rfl⟩

theorem narrows_put (s : AsyncLLMEngine E F) (n : ℕ) (item : StreamItem F) :
    Narrows s (s.put n item) :=
  narrows_setStream rfl rfl rfl

theorem narrows_endStream (s : AsyncLLMEngine E F) (id : String) : Narrows s (s.endStream id) := by
  unfold endStream
  split
  · exact .refl s
  · split
    · exact narrows_drop s id
    · exact (narrows_drop s id).trans (narrows_put _ _ _)

theorem narrows_dispatch (os : List RequestOutput) (s : AsyncLLMEngine E F) :
    Narrows s (s.dispatch os) := by
  induction os generalizing s with
  | nil => exact .refl s
  | cons o os ih =>
      rw [dispatch_cons]
      split
      · exact ih s
      · rename_i n _
        refine Narrows.trans ?_ (ih _)
        unfold delivered
        split
        · have hmark : Narrows (s.put n (.output o)) ((s.put n (.output o)).setStream n
              { (s.put n (.output o)).opened n with finished := true }) :=
            narrows_setStream rfl rfl rfl
          exact ((narrows_put s n _).trans hmark).trans (narrows_drop _ _)
        · exact narrows_put s n _

theorem narrows_drainPending (queue : List PendingRequest) (s : AsyncLLMEngine E F) :
    Narrows s (AsyncLLMEngine.drainPending S s queue) ∧
      (AsyncLLMEngine.drainPending S s queue).pending = s.pending ∧
      (AsyncLLMEngine.drainPending S s queue).aborting = s.aborting ∧
      (AsyncLLMEngine.drainPending S s queue).isHealthy = s.isHealthy := by
  induction queue generalizing s with
  | nil => exact ⟨.refl s, rfl, rfl, rfl⟩
  | cons item rest ih =>
      rw [AsyncLLMEngine.drainPending]
      split
      · rename_i j e _
        obtain ⟨hrest, hpending, haborting, hhealth⟩ := ih (s.handed item j e)
        have hone : Narrows s (s.setStream item.stream
            { s.opened item.stream with job := some j }) := narrows_setStream rfl rfl rfl
        refine ⟨Narrows.trans ?_ hrest, hpending, haborting, hhealth⟩
        exact ⟨hone.numOpened_eq, hone.streams, hone.request_eq, hone.reading_eq, hone.gaveUp_eq⟩
      · rename_i fault e _
        obtain ⟨hrest, hpending, haborting, hhealth⟩ := ih (s.refused item fault e)
        have hone : Narrows (s.withEngine e) (s.refused item fault e) :=
          (narrows_drop _ item.request.requestId).trans (narrows_put _ _ _)
        refine ⟨Narrows.trans ?_ hrest, hpending, haborting, hhealth⟩
        exact ⟨hone.numOpened_eq, hone.streams, hone.request_eq, hone.reading_eq, hone.gaveUp_eq⟩

theorem endStream_queues (s : AsyncLLMEngine E F) (id : String) :
    (s.endStream id).pending = s.pending ∧ (s.endStream id).aborting = s.aborting := by
  unfold endStream
  split
  · exact ⟨rfl, rfl⟩
  · split <;> exact ⟨rfl, rfl⟩

theorem narrows_drainAborts {ids : List String}
    (h : AsyncLLMEngine.drainAborts S s ids = (none, s')) :
    Narrows s s' ∧ s'.pending = s.pending ∧ s'.aborting = s.aborting ∧
      ∀ id ∈ ids, s'.streams id = none := by
  induction ids generalizing s with
  | nil =>
      obtain rfl := (Prod.mk.inj h).2
      exact ⟨.refl _, rfl, rfl, fun id hid => absurd hid List.not_mem_nil⟩
  | cons id rest ih =>
      rw [AsyncLLMEngine.drainAborts] at h
      split at h
      · cases h
      · rename_i was e _
        obtain ⟨hrest, hpending, haborting, hgone⟩ := ih h
        obtain ⟨hp, ha⟩ := endStream_queues (s.withEngine e) id
        have hone := narrows_endStream (s.withEngine e) id
        refine ⟨Narrows.trans ?_ hrest, hpending.trans hp, haborting.trans ha, ?_⟩
        · exact ⟨hone.numOpened_eq, hone.streams, hone.request_eq, hone.reading_eq,
            hone.gaveUp_eq⟩
        · intro k hk
          rcases List.mem_cons.mp hk with rfl | hk
          · rw [Option.eq_none_iff_forall_not_mem]
            intro n hn
            exact (endStream_streams (hrest.streams _ n hn)).2 rfl
          · exact hgone k hk

/-- What a turn of the loop leaves: no queued requests, no queued aborts, and every stream that
was aborted closed. -/
structure Turned (s s' : AsyncLLMEngine E F) : Prop where
  narrows : Narrows s s'
  pending_eq : s'.pending = []
  aborting_eq : s'.aborting = []
  aborted : ∀ id ∈ s.aborting, s'.streams id = none
  healthy : s'.isHealthy = true

/-- A turn never ends the loop. -/
theorem Sound.turn (hS : EngineLaws S Inv job next)
    (h : Sound Inv job next careful s s.pending) (hhealth : s.isHealthy = true)
    (hcause : careful → ∀ id ∈ s.aborting, ∀ n, s.streams id = some n →
      (s.opened n).gaveUp = true) :
    Sound Inv job next careful (s.turn S) (s.turn S).pending ∧ Turned s (s.turn S) := by
  have hcleared : Sound Inv job next careful { s with pending := [] } s.pending :=
    ⟨h.inv, h.table, fun n hn => (h.told n hn).congr Iff.rfl rfl rfl rfl id rfl id, h.job_lt,
      h.job_inj, h.outputs_lt, h.alive, fun hh => ⟨(h.matched hh).nodup, (h.matched hh).queued,
        (h.matched hh).held, (h.matched hh).known⟩⟩
  obtain ⟨hnarrow, hpending, haborting, hhealthy⟩ :=
    narrows_drainPending (S := S) s.pending { s with pending := [] }
  have hdrained := hcleared.drainPending hS hhealth
  unfold AsyncLLMEngine.turn
  generalize AsyncLLMEngine.drainPending S { s with pending := [] } s.pending = drained at *
  have hcut : Sound Inv job next careful { drained with aborting := [] } [] :=
    ⟨hdrained.inv, hdrained.table, fun n hn => (hdrained.told n hn).congr Iff.rfl rfl rfl rfl id
      rfl id, hdrained.job_lt, hdrained.job_inj, hdrained.outputs_lt, hdrained.alive,
      fun hh => ⟨(hdrained.matched hh).nodup, (hdrained.matched hh).queued,
        (hdrained.matched hh).held, (hdrained.matched hh).known⟩⟩
  have hcaused : careful → ∀ id ∈ drained.aborting, ∀ n, drained.streams id = some n →
      (drained.opened n).gaveUp = true := by
    intro hc id hid n hn
    rw [haborting] at hid
    exact (hnarrow.gaveUp_eq n).trans (hcause hc id hid n (hnarrow.streams id n hn))
  obtain ⟨s', hok, hsound, hhealth'⟩ := hcut.drainAborts hS (hhealthy.trans hhealth) hcaused
  obtain ⟨hnarrow', hpending', haborting', hgone⟩ := narrows_drainAborts hok
  have hpend : s'.pending = [] := hpending'.trans hpending
  simp only [hok]
  refine ⟨?_, ⟨?_, hpend, haborting', ?_, hhealth'⟩⟩
  · rw [show ∀ loop, ({ s' with loop := loop } : AsyncLLMEngine E F).pending = [] from
      fun _ => hpend]
    exact ⟨hsound.inv, hsound.table, fun n hn => (hsound.told n hn).congr Iff.rfl rfl rfl rfl id
      rfl id, hsound.job_lt, hsound.job_inj, hsound.outputs_lt, fun _ => hhealth',
      fun hh => ⟨(hsound.matched hh).nodup, (hsound.matched hh).queued,
        (hsound.matched hh).held, (hsound.matched hh).known⟩⟩
  · have hrest : Narrows drained s' := ⟨hnarrow'.numOpened_eq, hnarrow'.streams,
      hnarrow'.request_eq, hnarrow'.reading_eq, hnarrow'.gaveUp_eq⟩
    have hall := hnarrow.trans hrest
    exact ⟨hall.numOpened_eq, hall.streams, hall.request_eq, hall.reading_eq, hall.gaveUp_eq⟩
  · intro id hid
    rw [← haborting] at hid
    exact hgone id hid

end AsyncLLMEngine

end TurboServe.Runtime
