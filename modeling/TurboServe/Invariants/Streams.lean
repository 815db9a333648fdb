import TurboServe.Runtime.AsyncEngine

/-!
# What the streams have been told

The wrapped engine is any lawful service. `Told` is what a stream has got, next to what the
engine made for its request; `Sound` adds how the stream table, the queued requests and the
engine's requests fit together, and every action keeps it.
-/

namespace TurboServe.Runtime

open TurboServe.Core TurboServe.Lib

/-- The wrapped engine keeps the laws of a service whose keys are the request ids. -/
structure EngineLaws {E F T : Type} (S : Service E Scheduler.Request String RequestOutput F T)
    (Inv : E → Prop) (job : E → String → Option ℕ) (next : E → ℕ) : Prop where
  lawful : S.Lawful Inv job next
  key_eq : ∀ r, S.key r = r.requestId
  about_eq : ∀ o, S.about o = o.requestId
  last_eq : ∀ o, S.last o = o.finished

/-- A generator that has handed over a finished output has a queue that ends there. -/
theorem Stream.exists_of_atEnd {F : Type} {st : Stream F} (h : st.atEnd = true) :
    ∃ o, .output o ∈ st.items ∧ o.finished = true := by
  unfold Stream.atEnd at h
  split at h
  · rename_i o hlast
    exact ⟨o, List.mem_of_mem_take (List.mem_of_getLast? hlast), h⟩
  · cases h
  · cases h

namespace AsyncLLMEngine

variable {E F T : Type}

/-! ## §1  Statements -/

/-- What the engine has answered to the request of stream `n`. -/
def madeFor (s : AsyncLLMEngine E F) (n : ℕ) : List RequestOutput :=
  match (s.opened n).job with
  | none => []
  | some j => (s.served.outputs.filter fun p => decide (p.1 = j)).map Prod.snd

/-- Stream `n` is in the table. -/
def Open (s : AsyncLLMEngine E F) (n : ℕ) : Prop := s.streams (s.requestId n) = some n

/-- What stream `n` has got: the engine's outputs for its request, then at most one end that
is not the engine's. Under `careful` only a stream that was given up is aborted. -/
inductive Told (careful : Prop) (s : AsyncLLMEngine E F) (n : ℕ) : Prop where
  | going (isOpen : s.Open n) (items : (s.opened n).items = (s.madeFor n).map .output)
      (made : Ongoing RequestOutput.finished (s.madeFor n))
  | concluded (ended : ¬s.Open n) (items : (s.opened n).items = (s.madeFor n).map .output)
      (made : Concluded RequestOutput.finished (s.madeFor n))
  | aborted (ended : ¬s.Open n)
      (items : (s.opened n).items =
        (s.madeFor n).map .output ++ [.output (abortOutput (s.requestId n))])
      (made : Ongoing RequestOutput.finished (s.madeFor n))
      (cause : careful → (s.opened n).gaveUp = true)
  | rejected (ended : ¬s.Open n) (job : (s.opened n).job = none) (fault : F)
      (items : (s.opened n).items = [.rejected fault])
  | dead (ended : ¬s.Open n) (unhealthy : s.isHealthy = false) (error : DeadError F)
      (items : (s.opened n).items = (s.madeFor n).map .output ++ [.dead error])
      (made : Ongoing RequestOutput.finished (s.madeFor n))

/-- The open streams of a living engine: queued requests wait in `queue`, the others are the
engine's requests. -/
structure Matched (job : E → String → Option ℕ) (s : AsyncLLMEngine E F)
    (queue : List PendingRequest) : Prop where
  nodup : (queue.map (·.stream)).Nodup
  queued : ∀ item ∈ queue, s.streams item.request.requestId = some item.stream ∧
    (s.opened item.stream).request = item.request ∧ (s.opened item.stream).job = none
  held : ∀ id n, s.streams id = some n →
    n ∈ queue.map (·.stream) ∨ ∃ j, (s.opened n).job = some j ∧ job s.engine id = some j
  known : ∀ id j, job s.engine id = some j →
    ∃ n, s.streams id = some n ∧ (s.opened n).job = some j

structure Sound (Inv : E → Prop) (job : E → String → Option ℕ) (next : E → ℕ) (careful : Prop)
    (s : AsyncLLMEngine E F) (queue : List PendingRequest) : Prop where
  inv : Inv s.engine
  table : ∀ id n, s.streams id = some n →
    n < s.numOpened ∧ s.requestId n = id ∧ (s.opened n).finished = false
  told : ∀ n < s.numOpened, s.Told careful n
  job_lt : ∀ n < s.numOpened, ∀ j, (s.opened n).job = some j →
    j < next s.engine ∧ (j, (s.opened n).request) ∈ s.served.jobs
  job_inj : ∀ n < s.numOpened, ∀ m < s.numOpened, ∀ j, (s.opened n).job = some j →
    (s.opened m).job = some j → n = m
  outputs_lt : ∀ p ∈ s.served.outputs, p.1 < next s.engine
  alive : s.loop ≠ .gone → s.isHealthy = true
  matched : s.isHealthy = true → s.Matched job queue

variable {Inv : E → Prop} {job : E → String → Option ℕ} {next : E → ℕ} {careful : Prop}
  {s s' : AsyncLLMEngine E F} {queue : List PendingRequest} {n : ℕ}

/-! ## §2  Frames -/

theorem madeFor_congr (hjob : (s'.opened n).job = (s.opened n).job)
    (houtputs : s'.served.outputs = s.served.outputs) : s'.madeFor n = s.madeFor n := by
  unfold madeFor
  rw [hjob, houtputs]

theorem madeFor_of_job {j : ℕ} (hjob : (s.opened n).job = some j) :
    s.madeFor n = (s.served.outputs.filter fun p => decide (p.1 = j)).map Prod.snd := by
  unfold madeFor
  rw [hjob]

theorem madeFor_of_none (hjob : (s.opened n).job = none) : s.madeFor n = [] := by
  unfold madeFor
  rw [hjob]

/-- A stream nothing has happened to. -/
theorem Told.congr (h : s.Told careful n) (hopen : s'.Open n ↔ s.Open n)
    (hrequest : (s'.opened n).request = (s.opened n).request)
    (hitems : (s'.opened n).items = (s.opened n).items)
    (hjob : (s'.opened n).job = (s.opened n).job)
    (hgave : (s.opened n).gaveUp = true → (s'.opened n).gaveUp = true)
    (hmade : s'.madeFor n = s.madeFor n)
    (hhealth : s.isHealthy = false → s'.isHealthy = false) : s'.Told careful n := by
  have hid : s'.requestId n = s.requestId n := congrArg (·.requestId) hrequest
  cases h with
  | going isOpen items made =>
      exact .going (hopen.mpr isOpen) (by rw [hitems, hmade, items]) (hmade ▸ made)
  | concluded ended items made =>
      exact .concluded (mt hopen.mp ended) (by rw [hitems, hmade, items]) (hmade ▸ made)
  | aborted ended items made cause =>
      exact .aborted (mt hopen.mp ended) (by rw [hitems, hmade, hid, items]) (hmade ▸ made)
        fun h => hgave (cause h)
  | rejected ended job fault items =>
      exact .rejected (mt hopen.mp ended) (hjob.trans job) fault (hitems.trans items)
  | dead ended unhealthy error items made =>
      exact .dead (mt hopen.mp ended) (hhealth unhealthy) error (by rw [hitems, hmade, items])
        (hmade ▸ made)

/-- An open stream has got no end. -/
theorem Told.items_of_open (h : s.Told careful n) (hopen : s.Open n) :
    (s.opened n).items = (s.madeFor n).map .output ∧
      Ongoing RequestOutput.finished (s.madeFor n) := by
  cases h with
  | going _ items made => exact ⟨items, made⟩
  | concluded ended => exact absurd hopen ended
  | aborted ended => exact absurd hopen ended
  | rejected ended => exact absurd hopen ended
  | dead ended => exact absurd hopen ended

/-- What consumers do: streams keep their requests, queues and places in the table. -/
structure SameStreams (s s' : AsyncLLMEngine E F) : Prop where
  served_eq : s'.served = s.served
  streams_eq : s'.streams = s.streams
  numOpened_eq : s'.numOpened = s.numOpened
  loop_eq : s'.loop = s.loop
  health_eq : s'.isHealthy = s.isHealthy
  request_eq : ∀ n, (s'.opened n).request = (s.opened n).request
  items_eq : ∀ n, (s'.opened n).items = (s.opened n).items
  finished_eq : ∀ n, (s'.opened n).finished = (s.opened n).finished
  job_eq : ∀ n, (s'.opened n).job = (s.opened n).job
  gaveUp : ∀ n, (s.opened n).gaveUp = true → (s'.opened n).gaveUp = true

theorem SameStreams.requestId_eq (hs : SameStreams s s') (n : ℕ) :
    s'.requestId n = s.requestId n := congrArg (·.requestId) (hs.request_eq n)

theorem SameStreams.trans {s'' : AsyncLLMEngine E F} (h : SameStreams s s')
    (h' : SameStreams s' s'') : SameStreams s s'' where
  served_eq := h'.served_eq.trans h.served_eq
  streams_eq := h'.streams_eq.trans h.streams_eq
  numOpened_eq := h'.numOpened_eq.trans h.numOpened_eq
  loop_eq := h'.loop_eq.trans h.loop_eq
  health_eq := h'.health_eq.trans h.health_eq
  request_eq n := (h'.request_eq n).trans (h.request_eq n)
  items_eq n := (h'.items_eq n).trans (h.items_eq n)
  finished_eq n := (h'.finished_eq n).trans (h.finished_eq n)
  job_eq n := (h'.job_eq n).trans (h.job_eq n)
  gaveUp n hn := h'.gaveUp n (h.gaveUp n hn)

/-- One stream changes in its reading side. -/
theorem sameStreams_setStream {st : Stream F} (hrequest : st.request = (s.opened n).request)
    (hitems : st.items = (s.opened n).items) (hfinished : st.finished = (s.opened n).finished)
    (hjob : st.job = (s.opened n).job)
    (hgave : (s.opened n).gaveUp = true → st.gaveUp = true) :
    SameStreams s (s.setStream n st) := by
  have hupd : ∀ {α : Type} (f : Stream F → α), f st = f (s.opened n) →
      ∀ m, f (Function.update s.opened n st m) = f (s.opened m) := by
    intro α f hf m
    by_cases hm : m = n
    · rw [hm, Function.update_self, hf]
    · rw [Function.update_of_ne hm]
  refine ⟨rfl, rfl, rfl, rfl, rfl, hupd _ hrequest, hupd _ hitems, hupd _ hfinished,
    hupd _ hjob, fun m hm => ?_⟩
  show (Function.update s.opened n st m).gaveUp = true
  by_cases hmn : m = n
  · rw [hmn, Function.update_self]
    rw [hmn] at hm
    exact hgave hm
  · rw [Function.update_of_ne hmn]
    exact hm

theorem sameStreams_endReading (s : AsyncLLMEngine E F) (n : ℕ) :
    SameStreams s (s.endReading n) :=
  sameStreams_setStream rfl rfl rfl rfl id

theorem sameStreams_giveUp (s : AsyncLLMEngine E F) (n : ℕ) : SameStreams s (s.giveUp n) := by
  refine sameStreams_setStream rfl rfl rfl rfl fun h => ?_
  rw [h]
  rfl

theorem sameStreams_abortNowait (s : AsyncLLMEngine E F) (id : String) :
    SameStreams s (s.abortNowait id) where
  served_eq := rfl
  streams_eq := rfl
  numOpened_eq := rfl
  loop_eq := rfl
  health_eq := rfl
  request_eq _ := rfl
  items_eq _ := rfl
  finished_eq _ := rfl
  job_eq _ := rfl
  gaveUp _ h := h

theorem sameStreams_take (s : AsyncLLMEngine E F) (n : ℕ) (item : StreamItem F) :
    SameStreams s (s.take n item) := by
  have hcount : SameStreams s
      (s.setStream n { s.opened n with taken := (s.opened n).taken + 1 }) :=
    sameStreams_setStream rfl rfl rfl rfl id
  have hraised := (hcount.trans (sameStreams_endReading _ n)).trans
    (sameStreams_abortNowait _ (s.requestId n))
  unfold take
  cases item with
  | output o => exact hcount
  | rejected fault => exact hraised
  | dead error => exact hraised

/-- What consumers do keeps the streams sound. -/
theorem Sound.consumer (h : Sound Inv job next careful s queue) (hs : SameStreams s s') :
    Sound Inv job next careful s' queue where
  inv := by
    rw [engine, hs.served_eq]
    exact h.inv
  table id n hn := by
    rw [hs.streams_eq] at hn
    rw [hs.numOpened_eq, hs.requestId_eq, hs.finished_eq]
    exact h.table id n hn
  told n hn := by
    rw [hs.numOpened_eq] at hn
    refine (h.told n hn).congr ?_ (hs.request_eq n) (hs.items_eq n) (hs.job_eq n) (hs.gaveUp n)
      (madeFor_congr (hs.job_eq n) (by rw [hs.served_eq])) fun hh => hs.health_eq.trans hh
    rw [Open, Open, hs.streams_eq, hs.requestId_eq]
  job_lt n hn j hj := by
    rw [hs.numOpened_eq] at hn
    rw [hs.job_eq] at hj
    rw [hs.request_eq, engine, hs.served_eq]
    exact h.job_lt n hn j hj
  job_inj n hn m hm j hj hj' := by
    rw [hs.numOpened_eq] at hn hm
    rw [hs.job_eq] at hj hj'
    exact h.job_inj n hn m hm j hj hj'
  outputs_lt p hp := by
    rw [hs.served_eq] at hp
    rw [engine, hs.served_eq]
    exact h.outputs_lt p hp
  alive hloop := by
    rw [hs.loop_eq] at hloop
    rw [hs.health_eq]
    exact h.alive hloop
  matched hhealth := by
    rw [hs.health_eq] at hhealth
    obtain ⟨hnd, hqueued, hheld, hknown⟩ := h.matched hhealth
    refine ⟨hnd, ?_, ?_, ?_⟩
    · intro item hitem
      rw [hs.streams_eq, hs.request_eq, hs.job_eq]
      exact hqueued item hitem
    · intro id n hn
      rw [hs.streams_eq] at hn
      rw [hs.job_eq, engine, hs.served_eq]
      exact hheld id n hn
    · intro id j hj
      rw [engine, hs.served_eq] at hj
      obtain ⟨n, hn, hjob⟩ := hknown id j hj
      exact ⟨n, by rw [hs.streams_eq]; exact hn, by rw [hs.job_eq]; exact hjob⟩

end AsyncLLMEngine

end TurboServe.Runtime
