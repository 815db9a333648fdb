import TurboServe.Invariants.StreamLoop
import TurboServe.Runtime.EngineService

/-!
# Async streams

Over every interleaving of new streams, consumers, the background loop and its end: a stream
gets the deltas the engine makes for its own request, in order, and one end; requests that
nobody reads any more are gone before the next step. An abort hits its own stream as long as
ids are not reused too early.
-/

namespace TurboServe.Runtime

open TurboServe.Core TurboServe.Lib

namespace AsyncLLMEngine

variable {E F T : Type} {S : Service E Scheduler.Request String RequestOutput F T}
  {Inv : E → Prop} {job : E → String → Option ℕ} {next : E → ℕ} {careful : Prop}
  {s s' : AsyncLLMEngine E F} {n : ℕ}

/-! ## §1  Every action keeps the streams sound -/

theorem narrows_returned (s : AsyncLLMEngine E F) (os : List (ℕ × RequestOutput)) (e : E) :
    Narrows s (s.returned os e) ∧ (s.returned os e).pending = s.pending ∧
      (s.returned os e).aborting = s.aborting ∧ (s.returned os e).isHealthy = s.isHealthy := by
  let s₁ : AsyncLLMEngine E F :=
    { s with served := { s.served with engine := e, outputs := s.served.outputs ++ os } }
  have hn := narrows_dispatch (os.map Prod.snd) s₁
  have hrest := streamsOnly_dispatch (os.map Prod.snd) s₁
  exact ⟨⟨hn.numOpened_eq, hn.streams, hn.request_eq, hn.reading_eq, hn.gaveUp_eq⟩,
    hrest.pending_eq, hrest.aborting_eq, hrest.health_eq⟩

/-- What an action does to the streams: something of the loop, of a consumer, or a new one. -/
inductive Moved (S : Service E Scheduler.Request String RequestOutput F T)
    (s s' : AsyncLLMEngine E F) : Action F T → Prop where
  | opened {r : Scheduler.Request} (healthy : s.isHealthy = true)
      (free : s.start.streams r.requestId = none) (eq : s' = s.start.openStream r) :
      Moved S s s' (.generate r)
  | unopened {r : Scheduler.Request} (eq : s' = s ∨ s' = s.start) : Moved S s s' (.generate r)
  | woken (alive : s.loop ≠ .gone) (eq : s' = s.turn S) : Moved S s s' .wake
  | stepped {t : T} {os : List (ℕ × RequestOutput)} {e : E} (alive : s.loop ≠ .gone)
      (step : S.step s.engine t = .ok (os, e))
      (eq : s' = (s.returned os e).turn S) : Moved S s s' (.step t)
  | failed {t : T} {fault : F} (eq : s' = s.die (.fault fault)) : Moved S s s' (.step t)
  | raised {cause : Cause F} (eq : s' = s.die cause) : Moved S s s' (.raise cause)
  | closed (eq : s' = s.close) : Moved S s s' .close
  | took {n : ℕ} {item : StreamItem F} (reading : (s.opened n).reading = true)
      (lt : n < s.numOpened) (next : (s.opened n).items[(s.opened n).taken]? = some item)
      (eq : s' = s.take n item) : Moved S s s' (.take n)
  | ended {n : ℕ} (lt : n < s.numOpened) (atEnd : (s.opened n).atEnd = true)
      (eq : s' = s.endReading n) : Moved S s s' (.take n)
  | left {n : ℕ} (reading : (s.opened n).reading = true) (lt : n < s.numOpened)
      (eq : s' = s.leave n) : Moved S s s' (.leave n)
  | aborted {n : ℕ} (lt : n < s.numOpened) (eq : s' = s.abort n) : Moved S s s' (.abort n)

theorem act_cases {a : Action F T} (h : s.act S a = some s') : Moved S s s' a := by
  cases a with
  | generate r =>
      cases h
      rcases generate_cases s r with heq | heq | ⟨hhealth, hfree, heq⟩
      · exact .unopened (Or.inl heq)
      · exact .unopened (Or.inr heq)
      · exact .opened hhealth hfree heq
  | wake =>
      simp only [act] at h
      split at h
      · rename_i hloop
        cases h
        exact .woken (by rw [hloop]; decide) rfl
      · cases h
  | step t =>
      simp only [act] at h
      split at h
      · rename_i hloop
        split at h
        · rename_i os e hok
          cases h
          exact .stepped (by rw [hloop]; decide) hok rfl
        · cases h
          exact .failed rfl
      · cases h
  | raise cause =>
      simp only [act] at h
      split at h
      · cases h
        exact .raised rfl
      · cases h
  | close =>
      cases h
      exact .closed rfl
  | take n =>
      simp only [act] at h
      split at h
      · rename_i hreading
        split at h
        · rename_i hend
          cases h
          exact .ended hreading.2 hend rfl
        · obtain ⟨item, hitem, rfl⟩ := Option.map_eq_some_iff.mp h
          exact .took hreading.1 hreading.2 hitem rfl
      · cases h
  | leave n =>
      simp only [act] at h
      split at h
      · rename_i hreading
        cases h
        exact .left hreading.1 hreading.2 rfl
      · cases h
  | abort n =>
      simp only [act] at h
      split at h
      · rename_i hlt
        cases h
        exact .aborted hlt rfl
      · cases h

theorem sameStreams_leave (s : AsyncLLMEngine E F) (n : ℕ) : SameStreams s (s.leave n) :=
  ((sameStreams_giveUp s n).trans (sameStreams_endReading _ n)).trans
    (sameStreams_abortNowait _ _)

theorem sameStreams_abort (s : AsyncLLMEngine E F) (n : ℕ) : SameStreams s (s.abort n) :=
  (sameStreams_giveUp s n).trans (sameStreams_abortNowait _ _)

/-- The queue of a consumer's change. -/
theorem pending_take (s : AsyncLLMEngine E F) (n : ℕ) (item : StreamItem F) :
    (s.take n item).pending = s.pending := by
  unfold take
  cases item with
  | output o => rfl
  | rejected fault => rfl
  | dead error => rfl

theorem Sound.moved (hS : EngineLaws S Inv job next) {a : Action F T}
    (h : Sound Inv job next careful s s.pending)
    (hcause : careful → ∀ id ∈ s.aborting, ∀ n, s.streams id = some n →
      (s.opened n).gaveUp = true) (hm : Moved S s s' a) :
    Sound Inv job next careful s' s'.pending := by
  have hstart : s.start.pending = s.pending := by
    obtain ⟨loop, heq, -⟩ := start_spec s
    rw [heq]
  cases hm with
  | opened healthy free eq =>
      rw [eq]
      have hnext := h.start.openStream free
      rw [← hstart] at hnext
      exact hnext
  | unopened eq =>
      rcases eq with rfl | rfl
      · exact h
      · rw [hstart]
        exact h.start
  | woken alive eq =>
      rw [eq]
      exact (h.turn hS (h.alive alive) hcause).1
  | stepped alive step eq =>
      rename_i t os e
      obtain ⟨hn, hpending, haborting, hhealth⟩ := narrows_returned s os e
      have hret := h.returned hS (h.alive alive) step
      rw [← hpending] at hret
      rw [eq]
      refine (hret.turn hS (hhealth.trans (h.alive alive)) fun hc id hid n hstream => ?_).1
      rw [haborting] at hid
      rw [hn.gaveUp_eq]
      exact hcause hc id hid n (hn.streams id n hstream)
  | failed eq =>
      rw [eq]
      exact h.die _
  | raised eq =>
      rw [eq]
      exact h.die _
  | closed eq =>
      rw [eq]
      exact h.close
  | took reading lt next eq =>
      rw [eq, pending_take]
      exact h.consumer (sameStreams_take s _ _)
  | ended lt atEnd eq =>
      rw [eq]
      exact h.consumer (sameStreams_endReading s _)
  | left reading lt eq =>
      rw [eq]
      exact h.consumer (sameStreams_leave s _)
  | aborted lt eq =>
      rw [eq]
      exact h.consumer (sameStreams_abort s _)

variable {idle : E → Prop} {allowed : AsyncLLMEngine E F → Action F T → Prop}

/-- An engine with nothing to do, and no stream yet. -/
theorem Sound.create {e : E} (hinv : Inv e) (hidle : ∀ id, job e id = none) :
    Sound Inv job next careful (create e : AsyncLLMEngine E F) [] where
  inv := hinv
  table id n hn := by cases hn
  told n hn := absurd hn (Nat.not_lt_zero n)
  job_lt n hn := absurd hn (Nat.not_lt_zero n)
  job_inj n hn := absurd hn (Nat.not_lt_zero n)
  outputs_lt p hp := absurd hp List.not_mem_nil
  alive _ := rfl
  matched _ := by
    refine ⟨List.nodup_nil, fun item hitem => absurd hitem List.not_mem_nil, ?_, ?_⟩
    · intro id n hn
      cases hn
    · intro id j hj
      have hnone : job e id = some j := hj
      rw [hidle id] at hnone
      cases hnone

/-- Whatever the callers do. -/
theorem sound_of_reachable (hS : EngineLaws S Inv job next)
    (hidle : ∀ e, idle e → Inv e ∧ ∀ id, job e id = none)
    (h : (system S idle allowed).Reachable s) : Sound Inv job next False s s.pending := by
  induction h with
  | init h =>
      obtain ⟨e, he, rfl⟩ := h
      exact .create (hidle e he).1 (hidle e he).2
  | step h hs ih =>
      obtain ⟨a, -, hact⟩ := hs
      exact ih.moved hS (fun hc => hc.elim) (act_cases hact)

/-! ## §2  The engine's side of a run -/

theorem drainPending_calls (queue : List PendingRequest) {s : AsyncLLMEngine E F}
    (h : (S.calls idle).Reachable s.served) :
    (S.calls idle).Reachable (drainPending S s queue).served := by
  induction queue generalizing s with
  | nil => exact h
  | cons item rest ih =>
      rw [drainPending]
      split
      · rename_i j e hok
        exact ih (s := s.handed item j e) (h.step (.submit hok))
      · rename_i fault e herr
        exact ih (s := s.refused item fault e) (h.step (.refuse herr))

theorem endStream_served (s : AsyncLLMEngine E F) (id : String) :
    (s.endStream id).served = s.served := by
  unfold endStream
  split
  · rfl
  · split <;> rfl

theorem drainAborts_calls (ids : List String) {s : AsyncLLMEngine E F}
    (h : (S.calls idle).Reachable s.served) :
    (S.calls idle).Reachable (drainAborts S s ids).2.served := by
  induction ids generalizing s with
  | nil => exact h
  | cons id rest ih =>
      rw [drainAborts]
      split
      · exact h
      · rename_i was e hok
        refine ih ?_
        rw [endStream_served]
        exact h.step (.abort hok)

theorem turn_calls {s : AsyncLLMEngine E F} (h : (S.calls idle).Reachable s.served) :
    (S.calls idle).Reachable (s.turn S).served := by
  have hall := drainAborts_calls (drainPending S { s with pending := [] } s.pending).aborting
    (s := { drainPending S { s with pending := [] } s.pending with aborting := [] })
    (drainPending_calls s.pending (s := { s with pending := [] }) h)
  unfold turn
  simp only
  split
  · rename_i heq
    rw [heq] at hall
    exact hall
  · rename_i heq
    rw [heq] at hall
    exact hall

/-- The engine of a run has been through calls only, with the record of them. -/
theorem calls_of_reachable (h : (system S idle allowed).Reachable s) :
    (S.calls idle).Reachable s.served := by
  induction h with
  | init h =>
      obtain ⟨e, he, rfl⟩ := h
      exact .init ⟨he, rfl, rfl⟩
  | @step s s' h hs ih =>
      have hstart : s.start.served = s.served := by
        obtain ⟨loop, heq, -⟩ := start_spec s
        rw [heq]
      obtain ⟨a, -, hact⟩ := hs
      cases act_cases hact with
      | opened healthy free eq =>
          rw [eq]
          show (S.calls idle).Reachable s.start.served
          rwa [hstart]
      | unopened eq =>
          rcases eq with rfl | rfl
          · exact ih
          · rwa [hstart]
      | woken alive eq =>
          rw [eq]
          exact turn_calls ih
      | stepped alive step eq =>
          rw [eq]
          refine turn_calls ?_
          rw [returned, (streamsOnly_dispatch _ _).served_eq]
          exact ih.step (.step step)
      | failed eq =>
          rw [eq]
          exact ih
      | raised eq =>
          rw [eq]
          exact ih
      | closed eq =>
          rw [eq]
          unfold close
          split
          · exact ih
          · exact ih
      | took reading lt next eq =>
          rw [eq, (sameStreams_take s _ _).served_eq]
          exact ih
      | ended lt atEnd eq =>
          rw [eq]
          exact ih
      | left reading lt eq =>
          rw [eq]
          exact ih
      | aborted lt eq =>
          rw [eq]
          exact ih

/-! ## §3  Callers that do not reuse an id too early -/

/-- A new stream takes an id under which every generator has ended and that nobody has asked to
abort, and only a consumer whose generator has not ended aborts. -/
def Considerate (s : AsyncLLMEngine E F) : Action F T → Prop
  | .generate r => r.requestId ∉ s.aborting ∧
      ∀ m < s.numOpened, s.requestId m = r.requestId → (s.opened m).reading = false
  | .abort n => (s.opened n).reading = true
  | _ => True

/-- Stream `n` is the last one opened under its id. -/
def Newest (s : AsyncLLMEngine E F) (n : ℕ) : Prop :=
  ∀ m < s.numOpened, s.requestId m = s.requestId n → m ≤ n

/-- Who is open, who reads and who asked for an abort is the newest under its id. -/
structure Orderly (s : AsyncLLMEngine E F) : Prop where
  isOpen : ∀ n < s.numOpened, s.Open n → s.Newest n
  reader : ∀ n < s.numOpened, (s.opened n).reading = true → s.Newest n
  asked : ∀ id ∈ s.aborting, ∃ n < s.numOpened, s.requestId n = id ∧ s.Newest n ∧
    (s.Open n → (s.opened n).gaveUp = true)

theorem Newest.congr (h : s.Newest n) (hcount : s'.numOpened = s.numOpened)
    (hid : ∀ m, s'.requestId m = s.requestId m) : s'.Newest n := by
  intro m hm hmn
  rw [hcount] at hm
  rw [hid, hid] at hmn
  exact h m hm hmn

/-- The table loses streams; the queue of aborts is emptied, or kept. -/
theorem Orderly.narrows (h : s.Orderly) (hn : Narrows s s')
    (ha : s'.aborting = s.aborting ∨ s'.aborting = []) : s'.Orderly where
  isOpen n hlt hopen := by
    rw [hn.numOpened_eq] at hlt
    rw [Open, hn.requestId_eq] at hopen
    exact (h.isOpen n hlt (hn.streams _ n hopen)).congr hn.numOpened_eq hn.requestId_eq
  reader n hlt hreading := by
    rw [hn.numOpened_eq] at hlt
    rw [hn.reading_eq] at hreading
    exact (h.reader n hlt hreading).congr hn.numOpened_eq hn.requestId_eq
  asked id hid := by
    rcases ha with ha | ha
    · rw [ha] at hid
      obtain ⟨n, hlt, hrid, hnew, hgave⟩ := h.asked id hid
      refine ⟨n, by rw [hn.numOpened_eq]; exact hlt, (hn.requestId_eq n).trans hrid,
        hnew.congr hn.numOpened_eq hn.requestId_eq, fun hopen => ?_⟩
      rw [Open, hn.requestId_eq] at hopen
      rw [hn.gaveUp_eq]
      exact hgave (hn.streams _ n hopen)
    · rw [ha] at hid
      exact absurd hid List.not_mem_nil

/-- Consumers: nobody starts to read, and who asks for an abort was reading. -/
theorem Orderly.consumer (h : s.Orderly) (hs : SameStreams s s')
    (hreading : ∀ n, (s'.opened n).reading = true → (s.opened n).reading = true)
    (hasked : ∀ id ∈ s'.aborting, id ∈ s.aborting ∨ ∃ n < s.numOpened, s.requestId n = id ∧
      (s.opened n).reading = true ∧ (s.Open n → (s'.opened n).gaveUp = true)) : s'.Orderly where
  isOpen n hlt hopen := by
    rw [hs.numOpened_eq] at hlt
    rw [Open, hs.requestId_eq, hs.streams_eq] at hopen
    exact (h.isOpen n hlt hopen).congr hs.numOpened_eq hs.requestId_eq
  reader n hlt hr := by
    rw [hs.numOpened_eq] at hlt
    exact (h.reader n hlt (hreading n hr)).congr hs.numOpened_eq hs.requestId_eq
  asked id hid := by
    have hopen : ∀ n, s'.Open n ↔ s.Open n := fun n => by
      rw [Open, Open, hs.requestId_eq, hs.streams_eq]
    rcases hasked id hid with hold | ⟨n, hlt, hrid, hr, hgave⟩
    · obtain ⟨n, hlt, hrid, hnew, hgave⟩ := h.asked id hold
      exact ⟨n, by rw [hs.numOpened_eq]; exact hlt, (hs.requestId_eq n).trans hrid,
        hnew.congr hs.numOpened_eq hs.requestId_eq,
        fun ho => hs.gaveUp n (hgave ((hopen n).mp ho))⟩
    · exact ⟨n, by rw [hs.numOpened_eq]; exact hlt, (hs.requestId_eq n).trans hrid,
        (h.reader n hlt hr).congr hs.numOpened_eq hs.requestId_eq,
        fun ho => hgave ((hopen n).mp ho)⟩

/-- A new stream under an id that nobody uses. -/
theorem Orderly.openStream {r : Scheduler.Request} (h : s.Orderly)
    (hconsiderate : r.requestId ∉ s.aborting ∧
      ∀ m < s.numOpened, s.requestId m = r.requestId → (s.opened m).reading = false) :
    (s.openStream r).Orderly := by
  have hnewid : (s.openStream r).requestId s.numOpened = r.requestId := by
    rw [requestId, openStream_opened_self]
    rfl
  have hlast : (s.openStream r).Newest s.numOpened := fun m hm _ => Nat.lt_succ_iff.mp hm
  -- an old stream stays the newest unless the new one has its id
  have hstays : ∀ m < s.numOpened, s.requestId m ≠ r.requestId → s.Newest m →
      (s.openStream r).Newest m := by
    intro m hm hne hnew k hk hkm
    rw [openStream_requestId hm] at hkm
    rcases Nat.lt_succ_iff_lt_or_eq.mp hk with hlt | rfl
    · rw [openStream_requestId hlt] at hkm
      exact hnew k hlt hkm
    · rw [hnewid] at hkm
      exact absurd hkm.symm hne
  refine ⟨?_, ?_, ?_⟩
  · intro m hm ho
    rcases Nat.lt_succ_iff_lt_or_eq.mp hm with hlt | rfl
    · obtain ⟨hne, ho⟩ := openStream_open hlt ho
      exact hstays m hlt hne (h.isOpen m hlt ho)
    · exact hlast
  · intro m hm hr
    rcases Nat.lt_succ_iff_lt_or_eq.mp hm with hlt | rfl
    · rw [openStream_opened_of_lt hlt] at hr
      refine hstays m hlt (fun heq => ?_) (h.reader m hlt hr)
      rw [hconsiderate.2 m hlt heq] at hr
      cases hr
    · exact hlast
  · intro id hmem
    obtain ⟨m, hlt, hrid, hnew, hgave⟩ := h.asked id hmem
    have hne : s.requestId m ≠ r.requestId := by
      rintro heq
      rw [← hrid, heq] at hmem
      exact hconsiderate.1 hmem
    refine ⟨m, Nat.lt_succ_of_lt hlt, (openStream_requestId hlt).trans hrid,
      hstays m hlt hne hnew, fun ho => ?_⟩
    rw [openStream_opened_of_lt hlt]
    exact hgave (openStream_open hlt ho).2

/-- An abort that is still queued is for the stream that asked for it. -/
theorem Orderly.cause (h : s.Orderly) (hs : Sound Inv job next careful s s.pending) :
    ∀ id ∈ s.aborting, ∀ n, s.streams id = some n → (s.opened n).gaveUp = true := by
  intro id hid n hn
  obtain ⟨hlt, hrid, -⟩ := hs.table id n hn
  obtain ⟨m, hmlt, hmid, hnew, hgave⟩ := h.asked id hid
  have hopen : s.Open n := by
    rw [Open, hrid]
    exact hn
  have hle := hnew n hlt (hrid.trans hmid.symm)
  have hge := h.isOpen n hlt hopen m hmlt (hmid.trans hrid.symm)
  obtain rfl := le_antisymm hle hge
  exact hgave hopen

/-- What ends a generator is no item of an open stream. -/
theorem Sound.not_open_of_end (h : Sound Inv job next careful s s.pending) (hlt : n < s.numOpened)
    {item : StreamItem F} (hmem : item ∈ (s.opened n).items)
    (hend : ∀ o, item = .output o → o.finished = true) : ¬s.Open n := by
  intro hopen
  obtain ⟨hitems, hgo⟩ := (h.told n hlt).items_of_open hopen
  rw [hitems] at hmem
  obtain ⟨o, ho, rfl⟩ := List.mem_map.mp hmem
  exact Bool.false_ne_true ((hgo o ho).symm.trans (hend o rfl))

theorem Sound.not_open_of_atEnd (h : Sound Inv job next careful s s.pending)
    (hlt : n < s.numOpened) (hend : (s.opened n).atEnd = true) : ¬s.Open n := by
  obtain ⟨o, hmem, hfin⟩ := Stream.exists_of_atEnd hend
  refine h.not_open_of_end hlt hmem fun o' ho' => ?_
  cases ho'
  exact hfin

theorem opened_setStream_reading {st : Stream F} {m : ℕ}
    (h : st.reading = true → (s.opened n).reading = true)
    (hm : ((s.setStream n st).opened m).reading = true) : (s.opened m).reading = true := by
  by_cases hmn : m = n
  · rw [hmn] at hm ⊢
    refine h ?_
    rwa [show (s.setStream n st).opened n = st from Function.update_self _ _ _] at hm
  · rwa [show (s.setStream n st).opened m = s.opened m from Function.update_of_ne hmn _ _] at hm

theorem opened_setStream_of_reading {st : Stream F} {m : ℕ}
    (h : st.reading = (s.opened n).reading) :
    ((s.setStream n st).opened m).reading = (s.opened m).reading := by
  by_cases hm : m = n
  · rw [hm, show (s.setStream n st).opened n = st from Function.update_self _ _ _, h]
  · rw [show (s.setStream n st).opened m = s.opened m from Function.update_of_ne hm _ _]

theorem endReading_reading {m : ℕ} (h : ((s.endReading n).opened m).reading = true) :
    (s.opened m).reading = true :=
  opened_setStream_reading (fun h => by cases h) h

theorem endReading_of_ne {m : ℕ} (hm : m ≠ n) : (s.endReading n).opened m = s.opened m :=
  Function.update_of_ne hm _ _

/-- What a taken item leaves: an output changes nobody's reading, an exception ends its reader's
and queues an abort. -/
theorem take_spec (s : AsyncLLMEngine E F) (n : ℕ) (item : StreamItem F) :
    (∃ o, item = .output o ∧ (s.take n item).aborting = s.aborting ∧
      ∀ m, ((s.take n item).opened m).reading = (s.opened m).reading) ∨
    (∀ o, item ≠ .output o) ∧ (s.take n item).aborting = s.aborting ++ [s.requestId n] ∧
      (∀ m, ((s.take n item).opened m).reading = true → (s.opened m).reading = true) ∧
      ∀ m, m ≠ n → ((s.take n item).opened m).reading = (s.opened m).reading := by
  let s₁ := s.setStream n { s.opened n with taken := (s.opened n).taken + 1 }
  have hcount : ∀ m, (s₁.opened m).reading = (s.opened m).reading := fun m =>
    opened_setStream_of_reading rfl
  have hraised : (∀ m, ((s₁.endReading n).opened m).reading = true →
        (s.opened m).reading = true) ∧
      ∀ m, m ≠ n → ((s₁.endReading n).opened m).reading = (s.opened m).reading := by
    refine ⟨fun m hm => ?_, fun m hm => ?_⟩
    · rw [← hcount m]
      exact endReading_reading hm
    · rw [endReading_of_ne hm, hcount]
  unfold take
  cases item with
  | output o => exact Or.inl ⟨o, rfl, rfl, hcount⟩
  | rejected fault => exact Or.inr ⟨fun o ho => (by cases ho), rfl, hraised⟩
  | dead error => exact Or.inr ⟨fun o ho => (by cases ho), rfl, hraised⟩

theorem giveUp_gaveUp (s : AsyncLLMEngine E F) (n : ℕ) (hopen : s.Open n) :
    ((s.giveUp n).opened n).gaveUp = true := by
  show ((Function.update s.opened n _) n).gaveUp = true
  rw [Function.update_self]
  show ((s.opened n).gaveUp || decide (s.streams (s.requestId n) = some n)) = true
  rw [decide_eq_true (show s.streams (s.requestId n) = some n from hopen), Bool.or_true]

theorem giveUp_reading (s : AsyncLLMEngine E F) (n m : ℕ) :
    ((s.giveUp n).opened m).reading = (s.opened m).reading := by
  by_cases hm : m = n
  · rw [hm, show (s.giveUp n).opened n = _ from Function.update_self _ _ _]
  · rw [show (s.giveUp n).opened m = s.opened m from Function.update_of_ne hm _ _]

theorem failAll_narrows (s : AsyncLLMEngine E F) (error : DeadError F) :
    Narrows s (s.failAll error) := by
  have hframe : ∀ m, ((s.failAll error).opened m).request = (s.opened m).request ∧
      ((s.failAll error).opened m).reading = (s.opened m).reading ∧
      ((s.failAll error).opened m).gaveUp = (s.opened m).gaveUp := by
    intro m
    unfold failAll
    simp only
    split <;> exact ⟨rfl, rfl, rfl⟩
  exact ⟨rfl, fun id m hm => (by cases hm), fun m => (hframe m).1, fun m => (hframe m).2.1,
    fun m => (hframe m).2.2⟩

theorem Orderly.die (h : s.Orderly) (cause : Cause F) : (s.die cause).Orderly := by
  have hn := failAll_narrows s (.died cause)
  have hall : Narrows s (s.die cause) :=
    ⟨hn.numOpened_eq, hn.streams, hn.request_eq, hn.reading_eq, hn.gaveUp_eq⟩
  exact h.narrows hall (Or.inl rfl)

theorem Orderly.close (h : s.Orderly) : s.close.Orderly := by
  unfold AsyncLLMEngine.close
  split
  · exact h
  · have hn := failAll_narrows s .closed
    exact h.narrows ⟨hn.numOpened_eq, hn.streams, hn.request_eq, hn.reading_eq, hn.gaveUp_eq⟩
      (Or.inl rfl)

theorem narrows_start (s : AsyncLLMEngine E F) :
    Narrows s s.start ∧ s.start.aborting = s.aborting := by
  obtain ⟨loop, heq, -⟩ := start_spec s
  rw [heq]
  exact ⟨⟨rfl, fun _ _ h => h, fun _ => rfl, fun _ => rfl, fun _ => rfl⟩, rfl⟩

/-- Considerate callers keep the order. -/
theorem Orderly.moved (hS : EngineLaws S Inv job next) {a : Action F T} (h : s.Orderly)
    (hs : Sound Inv job next careful s s.pending) (hc : s.Considerate a)
    (hm : Moved S s s' a) : s'.Orderly := by
  obtain ⟨hstart, hstartaborting⟩ := narrows_start s
  cases hm with
  | opened healthy free eq =>
      rw [eq]
      refine (h.narrows hstart (Or.inl hstartaborting)).openStream ⟨?_, fun m hm hid => ?_⟩
      · rw [hstartaborting]
        exact hc.1
      · rw [hstart.numOpened_eq] at hm
        rw [hstart.requestId_eq] at hid
        rw [hstart.reading_eq]
        exact hc.2 m hm hid
  | unopened eq =>
      rcases eq with rfl | rfl
      · exact h
      · exact h.narrows hstart (Or.inl hstartaborting)
  | woken alive eq =>
      rw [eq]
      have ht := (hs.turn hS (hs.alive alive) fun _ => h.cause hs).2
      exact h.narrows ht.narrows (Or.inr ht.aborting_eq)
  | stepped alive step eq =>
      rename_i t os e
      obtain ⟨hn, hpending, haborting, hhealth⟩ := narrows_returned s os e
      have hret := hs.returned hS (hs.alive alive) step
      rw [← hpending] at hret
      have hkept := h.narrows hn (Or.inl haborting)
      rw [eq]
      have ht := (hret.turn hS (hhealth.trans (hs.alive alive)) fun _ => hkept.cause hret).2
      exact hkept.narrows ht.narrows (Or.inr ht.aborting_eq)
  | failed eq =>
      rw [eq]
      exact h.die _
  | raised eq =>
      rw [eq]
      exact h.die _
  | closed eq =>
      rw [eq]
      exact h.close
  | @took n item reading lt next eq =>
      rw [eq]
      rcases take_spec s n item with ⟨o, -, ha, hr⟩ | ⟨hraised, ha, hr, -⟩
      · refine h.consumer (sameStreams_take s n item) (fun m hm => ?_) fun id hid => Or.inl ?_
        · rw [← hr m]
          exact hm
        · rw [ha] at hid
          exact hid
      · refine h.consumer (sameStreams_take s n item) hr fun id hid => ?_
        rw [ha] at hid
        rcases List.mem_append.mp hid with hid | hid
        · exact Or.inl hid
        · refine Or.inr ⟨n, lt, (List.mem_singleton.mp hid).symm, reading, fun hopen => ?_⟩
          exact absurd hopen (hs.not_open_of_end lt (List.mem_of_getElem? next)
            fun o ho => absurd ho (hraised o))
  | @ended n lt atEnd eq =>
      rw [eq]
      exact h.consumer (sameStreams_endReading s n) (fun _ => endReading_reading)
        fun _ hid => Or.inl hid
  | @left n reading lt eq =>
      rw [eq]
      refine h.consumer (sameStreams_leave s n) (fun m hm => ?_) fun id hid => ?_
      · rw [← giveUp_reading s n m]
        exact endReading_reading (s := s.giveUp n) hm
      · rcases List.mem_append.mp hid with hid | hid
        · exact Or.inl hid
        · refine Or.inr ⟨n, lt, (List.mem_singleton.mp hid).symm, reading, fun hopen => ?_⟩
          exact (sameStreams_endReading (s.giveUp n) n).gaveUp n (giveUp_gaveUp s n hopen)
  | @aborted n lt eq =>
      rw [eq]
      refine h.consumer (sameStreams_abort s n) (fun m hm => ?_) fun id hid => ?_
      · rw [← giveUp_reading s n m]
        exact hm
      · rcases List.mem_append.mp hid with hid | hid
        · exact Or.inl hid
        · exact Or.inr ⟨n, lt, (List.mem_singleton.mp hid).symm, hc, giveUp_gaveUp s n⟩

/-- With considerate callers only a stream that was given up is aborted. -/
theorem sound_of_considerate (hS : EngineLaws S Inv job next)
    (hidle : ∀ e, idle e → Inv e ∧ ∀ id, job e id = none)
    (h : (system S idle Considerate).Reachable s) :
    Sound Inv job next True s s.pending ∧ s.Orderly := by
  induction h with
  | init h =>
      obtain ⟨e, he, rfl⟩ := h
      refine ⟨.create (hidle e he).1 (hidle e he).2, ⟨?_, ?_, ?_⟩⟩
      · intro n hn
        exact absurd hn (Nat.not_lt_zero n)
      · intro n hn
        exact absurd hn (Nat.not_lt_zero n)
      · intro id hid
        exact absurd hid List.not_mem_nil
  | step h hs ih =>
      obtain ⟨a, hc, hact⟩ := hs
      exact ⟨ih.1.moved hS (fun _ => ih.2.cause ih.1) (act_cases hact),
        ih.2.moved hS ih.1 hc (act_cases hact)⟩

/-! ## §4  Nobody reads -/

/-- An open stream is read, or an abort for its id is queued. -/
def Attended (s : AsyncLLMEngine E F) : Prop :=
  ∀ n < s.numOpened, s.Open n → (s.opened n).reading = true ∨ s.requestId n ∈ s.aborting

theorem Attended.narrows (h : s.Attended) (hn : Narrows s s')
    (ha : ∀ id ∈ s.aborting, id ∈ s'.aborting ∨ s'.streams id = none) : s'.Attended := by
  intro n hlt hopen
  rw [hn.numOpened_eq] at hlt
  rw [Open, hn.requestId_eq] at hopen
  rw [hn.reading_eq, hn.requestId_eq]
  rcases h n hlt (hn.streams _ n hopen) with hr | hid
  · exact Or.inl hr
  · rcases ha _ hid with ha | ha
    · exact Or.inr ha
    · rw [ha] at hopen
      cases hopen

theorem Attended.consumer (h : s.Attended) (hs : SameStreams s s')
    (ha : ∀ id ∈ s.aborting, id ∈ s'.aborting)
    (hr : ∀ n, s.Open n → (s.opened n).reading = true → (s'.opened n).reading = true ∨
      s.requestId n ∈ s'.aborting) : s'.Attended := by
  intro n hlt hopen
  rw [hs.numOpened_eq] at hlt
  rw [Open, hs.requestId_eq, hs.streams_eq] at hopen
  rw [hs.requestId_eq]
  rcases h n hlt hopen with hreading | hid
  · exact hr n hopen hreading
  · exact Or.inr (ha _ hid)

theorem Attended.openStream {r : Scheduler.Request} (h : s.Attended) :
    (s.openStream r).Attended := by
  intro n hlt hopen
  rcases Nat.lt_succ_iff_lt_or_eq.mp hlt with hlt | rfl
  · rw [openStream_opened_of_lt hlt, openStream_requestId hlt]
    exact h n hlt (openStream_open hlt hopen).2
  · refine Or.inl ?_
    rw [openStream_opened_self]
    rfl

theorem Attended.moved (hS : EngineLaws S Inv job next) {a : Action F T} (h : s.Attended)
    (hs : Sound Inv job next False s s.pending) (hm : Moved S s s' a) : s'.Attended := by
  obtain ⟨hstart, hstartaborting⟩ := narrows_start s
  have hstarted : s.start.Attended := h.narrows hstart fun id hid => Or.inl (by
    rw [hstartaborting]
    exact hid)
  -- after the end of the loop no stream is open
  have hgone : ∀ s' : AsyncLLMEngine E F, (∀ id, s'.streams id = none) → s'.Attended := by
    intro s' hnone n _ hopen
    rw [Open, hnone] at hopen
    cases hopen
  have hturned : ∀ s : AsyncLLMEngine E F, s.Attended → Turned s (s.turn S) →
      (s.turn S).Attended := fun s h ht =>
    h.narrows ht.narrows fun id hid => Or.inr (ht.aborted id hid)
  cases hm with
  | opened healthy free eq =>
      rw [eq]
      exact hstarted.openStream
  | unopened eq =>
      rcases eq with rfl | rfl
      · exact h
      · exact hstarted
  | woken alive eq =>
      rw [eq]
      exact hturned s h (hs.turn hS (hs.alive alive) fun hc => hc.elim).2
  | stepped alive step eq =>
      rename_i t os e
      obtain ⟨hn, hpending, haborting, hhealth⟩ := narrows_returned s os e
      have hret := hs.returned hS (hs.alive alive) step
      rw [← hpending] at hret
      rw [eq]
      refine hturned _ (h.narrows hn fun id hid => Or.inl (by rw [haborting]; exact hid)) ?_
      exact (hret.turn hS (hhealth.trans (hs.alive alive)) fun hc => hc.elim).2
  | failed eq =>
      rw [eq]
      exact hgone _ fun _ => rfl
  | raised eq =>
      rw [eq]
      exact hgone _ fun _ => rfl
  | closed eq =>
      rw [eq]
      unfold close
      split
      · exact h
      · exact hgone _ fun _ => rfl
  | @took n item reading lt next eq =>
      rw [eq]
      rcases take_spec s n item with ⟨o, -, ha, hr⟩ | ⟨hraised, ha, -, hr⟩
      · refine h.consumer (sameStreams_take s n item) (fun id hid => ?_)
          fun m _ hm => Or.inl ((hr m).trans hm)
        rw [ha]
        exact hid
      · refine h.consumer (sameStreams_take s n item) (fun id hid => ?_) fun m hopen hm => ?_
        · rw [ha]
          exact List.mem_append_left _ hid
        · by_cases hmn : m = n
          · subst hmn
            refine absurd hopen (hs.not_open_of_end lt (List.mem_of_getElem? next) ?_)
            exact fun o ho => absurd ho (hraised o)
          · exact Or.inl ((hr m hmn).trans hm)
  | @ended n lt atEnd eq =>
      rw [eq]
      refine h.consumer (sameStreams_endReading s n) (fun _ hid => hid) fun m hopen hm => ?_
      have hmn : m ≠ n := by
        rintro rfl
        exact hs.not_open_of_atEnd lt atEnd hopen
      refine Or.inl ?_
      rw [endReading_of_ne hmn]
      exact hm
  | @left n reading lt eq =>
      rw [eq]
      refine h.consumer (sameStreams_leave s n) (fun id => List.mem_append_left _)
        fun m hopen hr => ?_
      by_cases hmn : m = n
      · subst hmn
        exact Or.inr (List.mem_append_right _ (List.mem_singleton_self _))
      · refine Or.inl ?_
        show (((s.giveUp n).endReading n).opened m).reading = true
        rw [endReading_of_ne hmn, giveUp_reading]
        exact hr
  | @aborted n lt eq =>
      rw [eq]
      refine h.consumer (sameStreams_abort s n) (fun id => List.mem_append_left _)
        fun m hopen hr => Or.inl ?_
      exact (giveUp_reading s n m).trans hr

theorem attended_of_reachable (hS : EngineLaws S Inv job next)
    (hidle : ∀ e, idle e → Inv e ∧ ∀ id, job e id = none)
    (h : (system S idle allowed).Reachable s) : s.Attended := by
  induction h with
  | init h =>
      obtain ⟨e, -, rfl⟩ := h
      intro n hn
      exact absurd hn (Nat.not_lt_zero n)
  | step h hs ih =>
      obtain ⟨a, -, hact⟩ := hs
      exact ih.moved hS (sound_of_reachable hS hidle h) (act_cases hact)

/-- After a turn the engine has exactly the requests of the open streams, and each is read. -/
theorem Turned.attended (ht : Turned s s') (hs : Sound Inv job next False s' s'.pending)
    (ha : s'.Attended) :
    (∀ id j, job s'.engine id = some j → ∃ n < s'.numOpened, s'.requestId n = id ∧ s'.Open n ∧
      (s'.opened n).job = some j ∧ (s'.opened n).reading = true) ∧
    ∀ n < s'.numOpened, s'.Open n →
      ∃ j, (s'.opened n).job = some j ∧ job s'.engine (s'.requestId n) = some j := by
  obtain ⟨-, -, hheld, hknown⟩ := hs.matched ht.healthy
  constructor
  · intro id j hj
    obtain ⟨n, hn, hjob⟩ := hknown id j hj
    obtain ⟨hlt, hrid, -⟩ := hs.table id n hn
    have hopen : s'.Open n := by
      rw [Open, hrid]
      exact hn
    refine ⟨n, hlt, hrid, hopen, hjob, (ha n hlt hopen).resolve_right ?_⟩
    rw [ht.aborting_eq]
    exact List.not_mem_nil
  · intro n hlt hopen
    refine (hheld _ n hopen).resolve_left ?_
    rw [ht.pending_eq]
    exact List.not_mem_nil

end AsyncLLMEngine

/-! ## §5  Around the engine -/

section Engine

open AsyncLLMEngine LLMEngine

variable {D W : Type} [BlockDigest D] [DecidableEq D] [VirtualTime W]

/-- A new engine. -/
def LLMEngine.Fresh (e : LLMEngine D W) : Prop := Initial e.scheduler

theorem engineLaws : EngineLaws (service D W) (fun e => Inv e.scheduler)
    (fun e => e.scheduler.getSequence) (fun e => e.scheduler.seqCounter) where
  lawful := service_lawful
  key_eq _ := rfl
  about_eq _ := rfl
  last_eq _ := rfl

omit [DecidableEq D] in
theorem LLMEngine.Fresh.spec {e : LLMEngine D W} (h : e.Fresh) :
    Inv e.scheduler ∧ ∀ id, e.scheduler.getSequence id = none := by
  obtain ⟨-, -, -, -, -, hrequests, -⟩ := h.shape
  refine ⟨h.inv, fun id => ?_⟩
  rw [Scheduler.getSequence, hrequests]
  rfl

/-- The deltas of each request carry the tokens of its sequence. -/
structure Accounted (h : Service.History (LLMEngine D W) Scheduler.Request RequestOutput) :
    Prop where
  inv : Inv h.engine.scheduler
  outputs_lt : ∀ p ∈ h.outputs, p.1 < h.engine.scheduler.seqCounter
  jobs_lt : ∀ q ∈ h.jobs, q.1 < h.engine.scheduler.seqCounter
  prompt_eq : ∀ q ∈ h.jobs,
    (h.engine.scheduler.seqs q.1).promptTokenIds = q.2.promptTokenIds
  tokens_eq : ∀ q ∈ h.jobs,
    (h.outputs.filter fun p => decide (p.1 = q.1)).flatMap (fun p => p.2.newTokenIds) =
      (h.engine.scheduler.seqs q.1).outputTokenIds

theorem Accounted.call {h h' : Service.History (LLMEngine D W) Scheduler.Request RequestOutput}
    (ha : Accounted h) (hc : (service D W).Call h h') : Accounted h' := by
  obtain ⟨hinv, houtputs, hjobs, hprompt, htokens⟩ := ha
  cases hc with
  | @submit e' r j hok =>
      have hq := addRequest_queued hinv (submit_eq_ok hok)
      have hcounter : e'.scheduler.seqCounter = h.engine.scheduler.seqCounter + 1 := by
        rw [hq.counter_eq, hq.fresh]
      have hold : ∀ q ∈ h.jobs, e'.scheduler.seqs q.1 = h.engine.scheduler.seqs q.1 :=
        fun q hmem => hq.others q.1 (by rw [hq.fresh]; exact (hjobs q hmem).ne)
      refine ⟨hq.inv, fun p hp => ?_, fun q hmem => ?_, fun q hmem => ?_, fun q hmem => ?_⟩
      · rw [hcounter]
        exact Nat.lt_succ_of_lt (houtputs p hp)
      · rw [hcounter]
        rcases List.mem_append.mp hmem with hmem | hmem
        · exact Nat.lt_succ_of_lt (hjobs q hmem)
        · obtain rfl := List.mem_singleton.mp hmem
          rw [← hq.fresh]
          exact Nat.lt_succ_self j
      · rcases List.mem_append.mp hmem with hmem | hmem
        · rw [hold q hmem]
          exact hprompt q hmem
        · obtain rfl := List.mem_singleton.mp hmem
          exact hq.prompt_eq
      · rcases List.mem_append.mp hmem with hmem | hmem
        · rw [hold q hmem]
          exact htokens q hmem
        · obtain rfl := List.mem_singleton.mp hmem
          -- nothing was ever answered under the new number
          have hnone : h.outputs.filter (fun p => decide (p.1 = j)) = [] := by
            rw [List.filter_eq_nil_iff]
            intro p hp hpj
            have hlt := houtputs p hp
            rw [of_decide_eq_true hpj, hq.fresh] at hlt
            exact Nat.lt_irrefl _ hlt
          show (h.outputs.filter fun p => decide (p.1 = j)).flatMap _ = _
          rw [hnone, hq.output_eq]
          rfl
  | @refuse e' r fault herr =>
      obtain ⟨hadd, rfl⟩ := submit_eq_error herr
      obtain ⟨hinv', -, hcounter, hseqs⟩ := afterRefusal_spec hinv hadd
      refine ⟨hinv', fun p hp => (houtputs p hp).trans_le hcounter,
        fun q hq => (hjobs q hq).trans_le hcounter, ?_, ?_⟩
      · rw [hseqs]
        exact hprompt
      · rw [hseqs]
        exact htokens
  | @abort e' id was hok =>
      obtain ⟨was', e'', hok', hinv', -, hcounter, hseqs⟩ := LLMEngine.abort_spec hinv id
      obtain ⟨-, rfl⟩ := Prod.mk.inj (Except.ok.inj (hok'.symm.trans hok))
      refine ⟨hinv', ?_, ?_, fun q hq => ?_, fun q hq => ?_⟩
      · rw [hcounter]
        exact houtputs
      · rw [hcounter]
        exact hjobs
      · rw [(hseqs q.1).1]
        exact hprompt q hq
      · rw [(hseqs q.1).2]
        exact htokens q hq
  | @step e' sample os hok =>
      obtain ⟨os', e'', hok', hans⟩ := LLMEngine.step_spec hinv sample
      obtain ⟨rfl, rfl⟩ := Prod.mk.inj (Except.ok.inj (hok'.symm.trans hok))
      refine ⟨hans.inv, fun p hp => ?_, ?_, fun q hq => ?_, fun q hq => ?_⟩
      · rw [hans.counter_eq]
        rcases List.mem_append.mp hp with hp | hp
        · exact houtputs p hp
        · exact service_lawful.job_lt hinv (hans.batch.tagged p hp)
      · rw [hans.counter_eq]
        exact hjobs
      · rw [hans.prompt_eq]
        exact hprompt q hq
      · rw [hans.output_eq, ← htokens q hq, List.filter_append, List.flatMap_append]

/-- Whatever is asked of the engine. -/
theorem accounted_of_calls {h : Service.History (LLMEngine D W) Scheduler.Request RequestOutput}
    (hr : ((service D W).calls LLMEngine.Fresh).Reachable h) : Accounted h := by
  induction hr with
  | init h =>
      obtain ⟨hfresh, hjobs, houtputs⟩ := h
      refine ⟨hfresh.spec.1, ?_, ?_, ?_, ?_⟩
      · rw [houtputs]
        exact fun p hp => absurd hp List.not_mem_nil
      · rw [hjobs]
        exact fun q hq => absurd hq List.not_mem_nil
      · rw [hjobs]
        exact fun q hq => absurd hq List.not_mem_nil
      · rw [hjobs]
        exact fun q hq => absurd hq List.not_mem_nil
  | step _ hc ih => exact ih.call hc

/-- Every interleaving. -/
abbrev asyncSystem (D W : Type) [BlockDigest D] [DecidableEq D] [VirtualTime W] :
    TransitionSystem (AsyncLLMEngine (LLMEngine D W) Fault) :=
  system (service D W) LLMEngine.Fresh fun _ _ => True

/-- Every interleaving of considerate callers. -/
abbrev considerateSystem (D W : Type) [BlockDigest D] [DecidableEq D] [VirtualTime W] :
    TransitionSystem (AsyncLLMEngine (LLMEngine D W) Fault) :=
  system (service D W) LLMEngine.Fresh Considerate

end Engine

/-! ## §6  A run -/

section Run

open AsyncLLMEngine LLMEngine

variable {E F T : Type} {S : Service E Scheduler.Request String RequestOutput F T}
  {allowed : AsyncLLMEngine E F → Action F T → Prop} [∀ s a, Decidable (allowed s a)]

/-- An action that is allowed. -/
def AsyncLLMEngine.next (S : Service E Scheduler.Request String RequestOutput F T)
    (allowed : AsyncLLMEngine E F → Action F T → Prop) [∀ s a, Decidable (allowed s a)]
    (s : AsyncLLMEngine E F) (a : Action F T) : Option (AsyncLLMEngine E F) :=
  if allowed s a then s.act S a else none

theorem step_of_next {idle : E → Prop} {s s' : AsyncLLMEngine E F} {a : Action F T}
    (h : s.next S allowed a = some s') : (system S idle allowed).step s s' := by
  unfold AsyncLLMEngine.next at h
  split at h
  · rename_i hallowed
    exact ⟨a, hallowed, h⟩
  · cases h

instance (s : AsyncLLMEngine E F) (a : Action F T) : Decidable (s.Considerate a) :=
  match a with
  | .generate r => inferInstanceAs (Decidable (r.requestId ∉ s.aborting ∧
      ∀ m < s.numOpened, s.requestId m = r.requestId → (s.opened m).reading = false))
  | .abort n => inferInstanceAs (Decidable ((s.opened n).reading = true))
  | .wake | .step _ | .raise _ | .close | .take _ | .leave _ => isTrue trivial

theorem two_tokens : 1 ≤ 2 := by decide

/-- Two tokens at most. -/
def twoTokens (requestId : String) : Scheduler.Request :=
  { requestId := requestId, promptTokenIds := [1]
    sampling := { maxTokens := 2, one_le_maxTokens := two_tokens } }

/-- A new engine without end tokens, and without text. -/
def quietEngine : LLMEngine FreeDigest ℚ where
  scheduler := fresh FreeDigest smallConfig 4
  eosTokenIds := []
  decode := fun _ => []
  decoders := fun _ => none

theorem quiet_reachable {as : List (Action Fault (Scheduler FreeDigest ℚ → ScheduledSeq → TokenId))}
    {s' : AsyncLLMEngine (LLMEngine FreeDigest ℚ) Fault}
    (h : as.foldlM (next (service FreeDigest ℚ) Considerate) (create quietEngine) = some s') :
    (considerateSystem FreeDigest ℚ).Reachable s' :=
  .foldlM step_of_next (.init ⟨quietEngine, fresh_initial smallConfig 4, rfl⟩) h

theorem considerate_allowed {D W : Type} [BlockDigest D] [DecidableEq D] [VirtualTime W]
    {s : AsyncLLMEngine (LLMEngine D W) Fault} (h : (considerateSystem D W).Reachable s) :
    (asyncSystem D W).Reachable s := by
  induction h with
  | init h => exact .init h
  | step _ hs ih =>
      obtain ⟨a, -, hact⟩ := hs
      exact .step ih ⟨a, trivial, hact⟩

/-- Two requests, and the consumer of the first leaves while the first step runs. -/
def leaveFirst : List (Action Fault (Scheduler FreeDigest ℚ → ScheduledSeq → TokenId)) :=
  [.generate (twoTokens "a"), .generate (twoTokens "b"), .wake, .leave 0]

/-- What the step leaves: a delta and a terminator for the first, and the second in flight. -/
def afterLeaving (s : AsyncLLMEngine (LLMEngine FreeDigest ℚ) Fault) : Bool :=
  decide (s.numOpened = 2 ∧ (s.opened 0).items.length = 2 ∧ (s.opened 1).job = some 1 ∧
    (s.opened 1).items.length = 1 ∧ s.isHealthy = true ∧ (s.opened 1).gaveUp = false ∧
    s.engine.scheduler.inFlight = [1])

theorem left_of_run : ∃ s s' : AsyncLLMEngine (LLMEngine FreeDigest ℚ) Fault,
    (considerateSystem FreeDigest ℚ).Reachable s ∧
    s.act (service FreeDigest ℚ) (.step fun _ _ => 7) = some s' ∧ afterLeaving s' = true := by
  have hrun : ((leaveFirst.foldlM (next (service FreeDigest ℚ) Considerate)
      (create quietEngine)).bind fun s =>
        (s.act (service FreeDigest ℚ) (.step fun _ _ => 7)).map afterLeaving) = some true := by
    decide +kernel
  obtain ⟨s, hs, hmap⟩ := Option.bind_eq_some_iff.mp hrun
  obtain ⟨s', hact, hleft⟩ := Option.map_eq_some_iff.mp hmap
  exact ⟨s, s', quiet_reachable hs, hact, hleft⟩

/-- The consumer of the second leaves during the first step. The first is read to its end and
closed there, and once that abort is gone its id is taken again. -/
def closeAndReuse : List (Action Fault (Scheduler FreeDigest ℚ → ScheduledSeq → TokenId)) :=
  [.generate (twoTokens "a"), .generate (twoTokens "b"), .wake, .leave 1, .step fun _ _ => 7,
    .step fun _ _ => 7, .take 0, .take 0, .leave 0, .wake, .generate (twoTokens "a"), .wake,
    .step fun _ _ => 8]

def afterReuse (s : AsyncLLMEngine (LLMEngine FreeDigest ℚ) Fault) : Bool :=
  decide (s.numOpened = 3 ∧ s.requestId 2 = s.requestId 0 ∧ (s.opened 0).taken = 2 ∧
    (s.opened 0).gaveUp = false ∧ (s.opened 1).gaveUp = true ∧ (s.opened 2).items.length = 1 ∧
    (s.opened 2).gaveUp = false)

def reuseAtOnce : List (Action Fault (Scheduler FreeDigest ℚ → ScheduledSeq → TokenId)) :=
  [.generate (twoTokens "a"), .wake, .step fun _ _ => 7, .step fun _ _ => 7, .take 0, .take 0,
    .generate (twoTokens "a"), .leave 0, .wake]

theorem reused_of_run : ∃ s : AsyncLLMEngine (LLMEngine FreeDigest ℚ) Fault,
    (considerateSystem FreeDigest ℚ).Reachable s ∧ afterReuse s = true := by
  have hrun : (closeAndReuse.foldlM (next (service FreeDigest ℚ) Considerate)
      (create quietEngine)).map afterReuse = some true := by
    decide +kernel
  obtain ⟨s, hs, hafter⟩ := Option.map_eq_some_iff.mp hrun
  exact ⟨s, quiet_reachable hs, hafter⟩

end Run

/-! ## §7  What the callers of the engine may rely on -/

section Results

open AsyncLLMEngine LLMEngine

variable {D W : Type} [BlockDigest D] [DecidableEq D] [VirtualTime W]
  {s s' : AsyncLLMEngine (LLMEngine D W) Fault}

/-- Each stream has got the deltas of its own sequence, in order and none twice, and one end
once it has left the table. While the engine lives, they carry exactly the tokens the sequence
has generated after the prompt of the stream's request. -/
theorem streams_told (h : (asyncSystem D W).Reachable s) :
    ∀ n < s.numOpened, s.Told False n ∧ ∀ j, (s.opened n).job = some j →
      (∀ m < s.numOpened, (s.opened m).job = some j → m = n) ∧
      (s.isHealthy = true →
        (s.engine.scheduler.seqs j).promptTokenIds = (s.opened n).request.promptTokenIds ∧
        (s.madeFor n).flatMap (·.newTokenIds) = (s.engine.scheduler.seqs j).outputTokenIds) := by
  have hs := sound_of_reachable engineLaws (fun e he => he.spec) h
  have ha := accounted_of_calls (calls_of_reachable h)
  intro n hn
  refine ⟨hs.told n hn, fun j hj => ⟨fun m hm hmj => hs.job_inj m hm n hn j hmj hj, fun _ => ?_⟩⟩
  obtain ⟨-, hmem⟩ := hs.job_lt n hn j hj
  refine ⟨ha.prompt_eq _ hmem, ?_⟩
  have htokens := ha.tokens_eq _ hmem
  rw [madeFor_of_job hj, List.flatMap_map]
  exact htokens

theorem streams_told_left : ∃ s : AsyncLLMEngine (LLMEngine FreeDigest ℚ) Fault,
    (s.opened 1).items.length = 1 ∧ s.Told False 1 ∧
      (s.madeFor 1).flatMap (·.newTokenIds) = (s.engine.scheduler.seqs 1).outputTokenIds := by
  obtain ⟨s, s', hreach, hact, hleft⟩ := left_of_run
  obtain ⟨hcount, -, hjob, hitems, hhealth, -, -⟩ := of_decide_eq_true hleft
  obtain ⟨htold, hall⟩ := streams_told ((considerate_allowed hreach).step ⟨_, trivial, hact⟩) 1
    (by rw [hcount]; decide)
  exact ⟨s', hitems, htold, ((hall 1 hjob).2 hhealth).2⟩

/-- With considerate callers an abort ends only the stream whose consumer gave it up. -/
theorem aborts_own_stream (h : (considerateSystem D W).Reachable s) :
    ∀ n < s.numOpened, s.Told True n :=
  fun n hn => (sound_of_considerate engineLaws (fun _ he => he.spec) h).1.told n hn

theorem aborts_own_stream_reused : ∃ s : AsyncLLMEngine (LLMEngine FreeDigest ℚ) Fault,
    s.requestId 2 = s.requestId 0 ∧ (s.opened 0).taken = 2 ∧ (s.opened 0).gaveUp = false ∧
      (s.opened 1).gaveUp = true ∧ (s.opened 2).items.length = 1 ∧ (s.opened 2).gaveUp = false ∧
      ∀ n < 3, s.Told True n := by
  obtain ⟨s, hreach, hafter⟩ := reused_of_run
  obtain ⟨hcount, hid, htaken, hgave, hgave', hitems, hgave''⟩ := of_decide_eq_true hafter
  have hall := aborts_own_stream hreach
  rw [hcount] at hall
  exact ⟨s, hid, htaken, hgave, hgave', hitems, hgave'', hall⟩

/-- Reused while the first generator is still suspended at its finished output, the id carries the
abort of its closing to the second stream, which nobody gave up. -/
example : (reuseAtOnce.foldlM (next (service FreeDigest ℚ) fun _ _ => True)
    (create quietEngine)).map (fun s => decide (s.streams "a" = none ∧
      (s.opened 1).items.length = 1 ∧ s.madeFor 1 = [] ∧ (s.opened 1).gaveUp = false)) =
        some true := by
  decide +kernel

/-- After each turn of the loop, so before each step, the sequences in flight are those of the
open streams, and somebody reads each. -/
theorem turns_serve_readers (h : (asyncSystem D W).Reachable s)
    {a : Action Fault (Scheduler D W → ScheduledSeq → TokenId)}
    (hact : s.act (service D W) a = some s') (hturn : a = .wake ∨ ∃ sample, a = .step sample)
    (hhealth : s'.isHealthy = true) :
    (∀ j ∈ s'.engine.scheduler.inFlight, ∃ n < s'.numOpened, s'.Open n ∧
      (s'.opened n).job = some j ∧ (s'.opened n).reading = true) ∧
    ∀ n < s'.numOpened, s'.Open n →
      ∃ j ∈ s'.engine.scheduler.inFlight, (s'.opened n).job = some j := by
  have hfresh : ∀ e : LLMEngine D W, e.Fresh →
      Inv e.scheduler ∧ ∀ id, e.scheduler.getSequence id = none := fun e he => he.spec
  have hs := sound_of_reachable engineLaws hfresh h
  have h' : (asyncSystem D W).Reachable s' := h.step ⟨a, trivial, hact⟩
  have hs' := sound_of_reachable engineLaws hfresh h'
  obtain ⟨s₁, ht⟩ : ∃ s₁, Turned s₁ s' := by
    cases act_cases hact with
    | woken alive eq =>
        rw [eq]
        exact ⟨s, (hs.turn engineLaws (hs.alive alive) fun hc => hc.elim).2⟩
    | stepped alive step eq =>
        rename_i t os e
        obtain ⟨hn, hpending, haborting, hhealthy⟩ := narrows_returned s os e
        have hret := hs.returned engineLaws (hs.alive alive) step
        rw [← hpending] at hret
        rw [eq]
        exact ⟨_, (hret.turn engineLaws (hhealthy.trans (hs.alive alive)) fun hc => hc.elim).2⟩
    | failed eq =>
        rw [eq] at hhealth
        cases hhealth
    | opened => rcases hturn with h | ⟨_, h⟩ <;> cases h
    | unopened => rcases hturn with h | ⟨_, h⟩ <;> cases h
    | raised => rcases hturn with h | ⟨_, h⟩ <;> cases h
    | closed => rcases hturn with h | ⟨_, h⟩ <;> cases h
    | took => rcases hturn with h | ⟨_, h⟩ <;> cases h
    | ended => rcases hturn with h | ⟨_, h⟩ <;> cases h
    | left => rcases hturn with h | ⟨_, h⟩ <;> cases h
    | aborted => rcases hturn with h | ⟨_, h⟩ <;> cases h
  obtain ⟨hflight, hopen⟩ := ht.attended hs' (attended_of_reachable engineLaws hfresh h')
  refine ⟨fun j hj => ?_, fun n hn ho => ?_⟩
  · obtain ⟨n, hn, -, ho, hjob, hr⟩ :=
      hflight _ j ((getSequence_eq_some hs'.inv).mpr ⟨hj, rfl⟩)
    exact ⟨n, hn, ho, hjob, hr⟩
  · obtain ⟨j, hjob, hlive⟩ := hopen n hn ho
    exact ⟨j, ((getSequence_eq_some hs'.inv).mp hlive).1, hjob⟩

theorem turns_serve_readers_left : ∃ s : AsyncLLMEngine (LLMEngine FreeDigest ℚ) Fault,
    s.engine.scheduler.inFlight = [1] ∧ ∃ n < s.numOpened, s.Open n ∧
      (s.opened n).job = some 1 ∧ (s.opened n).reading = true := by
  obtain ⟨s, s', hreach, hact, hleft⟩ := left_of_run
  obtain ⟨-, -, -, -, hhealth, -, hflight⟩ := of_decide_eq_true hleft
  have hall := turns_serve_readers (considerate_allowed hreach) hact (Or.inr ⟨_, rfl⟩) hhealth
  exact ⟨s', hflight, hall.1 1 (by rw [hflight]; exact List.mem_singleton_self 1)⟩

end Results

end TurboServe.Runtime
