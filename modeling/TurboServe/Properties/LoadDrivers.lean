import TurboServe.Bench.Loadgen
import TurboServe.Lib.Decimal
import TurboServe.Lib.Transition

/-!
# The load drivers send and record every request once

What holds in every state of a closed and of an open loop, whatever their streams do and in
whatever order their tasks run: the requests sent, their records, the bound on the requests
in flight, and the deadline.
-/

namespace TurboServe.Bench

open TurboServe.Gateway (GenerateRequest TokenEvent)
open TurboServe.Lib

variable {spec : LoadSpec} {promptTokensFor : GenerateRequest → ℕ}

/-! ## §1  One request -/

/-- The stream ended normally, no event carried an error, and the last terminated it. -/
def Completed (d : Drive) (ending : Ending) : Prop :=
  ending = .normal ∧ (∀ e ∈ d.events, e.1.error = none) ∧
    ∃ last, d.events.getLast? = some last ∧ last.1.finished = true

theorem observe_kept (b : RecordBuilder) (e : TokenEvent) (t : ℤ) :
    (b.observe e t).requestId = b.requestId ∧ (b.observe e t).tSendNs = b.tSendNs ∧
      ((b.observe e t).ok = true ↔ b.ok = true ∧ e.error = none) := by
  have haccount : ∀ (b : RecordBuilder) (n : ℕ), (b.accountTokens n t).requestId = b.requestId ∧
      (b.accountTokens n t).tSendNs = b.tSendNs ∧ (b.accountTokens n t).ok = b.ok := by
    intro b n
    unfold RecordBuilder.accountTokens
    cases b.tFirstNs <;> exact ⟨rfl, rfl, rfl⟩
  unfold RecordBuilder.observe
  cases herror : e.error with
  | none =>
      obtain ⟨h₁, h₂, h₃⟩ := haccount b (RecordBuilder.tokens e)
      by_cases htokens : RecordBuilder.tokens e = 0
      · cases e.usage <;> cases e.finished <;> simp [htokens]
      · cases e.usage <;> cases e.finished <;> simp [htokens, h₁, h₂, h₃]
  | some text =>
      obtain ⟨h₁, h₂, h₃⟩ :=
        haccount { b with ok := false, error := some text } (RecordBuilder.tokens e)
      by_cases htokens : RecordBuilder.tokens e = 0
      · cases e.usage <;> cases e.finished <;> simp [htokens]
      · cases e.usage <;> cases e.finished <;> simp [htokens, h₁, h₂, h₃]

theorem consume_append (b : RecordBuilder) (events : List (TokenEvent × ℤ))
    (e : TokenEvent × ℤ) :
    consume b (events ++ [e]) = ((consume b events).1.observe e.1 e.2, e.1.finished) := by
  unfold consume
  rw [List.foldl_append]
  rfl

theorem consume_kept (b : RecordBuilder) (events : List (TokenEvent × ℤ)) :
    (consume b events).1.requestId = b.requestId ∧ (consume b events).1.tSendNs = b.tSendNs ∧
      ((consume b events).1.ok = true ↔ b.ok = true ∧ ∀ e ∈ events, e.1.error = none) ∧
      ((consume b events).2 = true ↔
        ∃ last, events.getLast? = some last ∧ last.1.finished = true) := by
  induction events using List.reverseRecOn with
  | nil =>
      refine ⟨rfl, rfl, ?_, iff_of_false Bool.false_ne_true ?_⟩
      · exact (and_iff_left fun e he => absurd he List.not_mem_nil).symm
      · rintro ⟨last, hlast, -⟩
        cases hlast
  | append_singleton events e ih =>
      obtain ⟨hid, hsend, hok, -⟩ := ih
      obtain ⟨hid', hsend', hok'⟩ := observe_kept (consume b events).1 e.1 e.2
      rw [consume_append]
      refine ⟨hid'.trans hid, hsend'.trans hsend, ?_, ?_⟩
      · rw [hok', hok, List.forall_mem_append, List.forall_mem_singleton, and_assoc]
      · rw [List.getLast?_concat]
        constructor
        · exact fun h => ⟨e, rfl, h⟩
        · rintro ⟨last, hlast, hfinished⟩
          cases hlast
          exact hfinished

/-- A request's record has its id and the time it was sent, and is ok exactly if its stream
completed. -/
theorem driveOne_spec (d : Drive) (ending : Ending) (endNs : ℤ) :
    (driveOne spec promptTokensFor d ending endNs).requestId = d.request.requestId ∧
      (driveOne spec promptTokensFor d ending endNs).tSendNs = d.sendNs ∧
      ((driveOne spec promptTokensFor d ending endNs).ok = true ↔ Completed d ending) := by
  obtain ⟨hid, hsend, hok, hfinal⟩ := consume_kept (RecordBuilder.sent d.request.requestId
    d.request.tenantId (promptTokensFor d.request) spec.backendName spec.lane d.sendNs) d.events
  unfold driveOne Completed
  dsimp only
  cases ending with
  | normal =>
      dsimp only
      by_cases hsaw : (consume (RecordBuilder.sent d.request.requestId d.request.tenantId
          (promptTokensFor d.request) spec.backendName spec.lane d.sendNs) d.events).2 = true
      · rw [if_pos hsaw]
        refine ⟨hid, hsend, hok.trans ⟨?_, ?_⟩⟩
        · exact fun h => ⟨rfl, h.2, hfinal.mp hsaw⟩
        · exact fun h => ⟨rfl, h.2.1⟩
      · rw [if_neg hsaw]
        exact ⟨hid, hsend, iff_of_false Bool.false_ne_true fun h => hsaw (hfinal.mpr h.2.2)⟩
  | timedOut text => exact ⟨hid, hsend, iff_of_false Bool.false_ne_true fun h => nomatch h.1⟩
  | backendError text => exact ⟨hid, hsend, iff_of_false Bool.false_ne_true fun h => nomatch h.1⟩
  | raised type text => exact ⟨hid, hsend, iff_of_false Bool.false_ne_true fun h => nomatch h.1⟩

/-! ## §2  Requests in flight -/

namespace Flight

variable {f f' : Flight}

/-- What `g` says of the requests with a record and of those still driven. -/
def collect {β : Type*} (g : Drive → β) (f : Flight) : List β :=
  f.finished.map (fun x => g x.drive) ++ f.running.map g

/-- The request of a drive and when it was sent. -/
def sentAt (d : Drive) : GenerateRequest × ℤ := (d.request, d.sendNs)

theorem collect_start (request : GenerateRequest) (now : ℤ) :
    (f.start request now).collect sentAt = f.collect sentAt ++ [(request, now)] := by
  unfold collect start
  rw [List.map_append, ← List.append_assoc]
  rfl

/-- An event changes nothing that is sent. -/
theorem receive_spec {k : ℕ} {e : TokenEvent} {now : ℤ} (h : f.receive k e now = some f') :
    f'.collect sentAt = f.collect sentAt ∧ f'.running.length = f.running.length := by
  obtain ⟨d, hd, rfl⟩ := Option.map_eq_some_iff.mp h
  refine ⟨?_, List.length_set ..⟩
  have hsame : (f.running.map sentAt).set k (sentAt d) = f.running.map sentAt := by
    obtain ⟨hk, hget⟩ := List.getElem?_eq_some_iff.mp hd
    rw [← hget, ← List.map_set, List.set_getElem_self]
  unfold collect
  rw [List.map_set]
  exact congrArg _ hsame

/-- An ending moves its request to the records. -/
theorem finish_spec {k : ℕ} {ending : Ending} {now : ℤ} (h : f.finish k ending now = some f') :
    (f'.collect sentAt).Perm (f.collect sentAt) ∧ f'.running.length + 1 = f.running.length := by
  obtain ⟨d, hd, rfl⟩ := Option.map_eq_some_iff.mp h
  obtain ⟨hk, hget⟩ := List.getElem?_eq_some_iff.mp hd
  constructor
  · have hperm : (d :: f.running.eraseIdx k).Perm f.running := by
      rw [← hget]
      exact List.getElem_cons_eraseIdx_perm hk
    unfold collect
    rw [List.map_append, List.append_assoc]
    exact (hperm.map sentAt).append_left _
  · dsimp only
    rw [List.length_eraseIdx_of_lt hk]
    omega

end Flight

/-! ## §3  The deadline -/

section Loops

variable {pool : List GenerateRequest} {startNs : ℤ}

theorem expired_iff {now : ℚ} :
    expired spec startNs now = true ↔ ∃ t, deadline spec startNs = some t ∧ t ≤ now := by
  unfold expired
  cases deadline spec startNs with
  | none => exact iff_of_false Bool.false_ne_true fun ⟨t, ht, _⟩ => nomatch ht
  | some t =>
      rw [decide_eq_true_eq]
      constructor
      · exact fun h => ⟨t, rfl, h⟩
      · rintro ⟨u, hu, h⟩
        cases hu
        exact h

theorem clock_mono {a b : ℤ} (h : a ≤ b) : clock a ≤ clock b :=
  div_le_div_of_nonneg_right (Int.cast_le.mpr h) (by norm_num [nsPerS])

theorem expired_mono {a b : ℚ} (h : a ≤ b) (ha : expired spec startNs a = true) :
    expired spec startNs b = true := by
  obtain ⟨t, ht, hle⟩ := expired_iff.mp ha
  exact expired_iff.mpr ⟨t, ht, hle.trans h⟩

/-- Every request was sent before the deadline. -/
def InTime (spec : LoadSpec) (startNs : ℤ) (f : Flight) : Prop :=
  ∀ x ∈ f.collect Flight.sentAt, expired spec startNs (clock x.2) = false

theorem InTime.start {f : Flight} (h : InTime spec startNs f) {request : GenerateRequest}
    {now : ℤ} (hnow : expired spec startNs (clock now) = false) :
    InTime spec startNs (f.start request now) := by
  intro x hx
  rw [Flight.collect_start] at hx
  rcases List.mem_append.mp hx with hx | hx
  · exact h x hx
  · rw [List.mem_singleton] at hx
    rw [hx]
    exact hnow

theorem InTime.perm {f f' : Flight} (h : InTime spec startNs f)
    (hperm : (f'.collect Flight.sentAt).Perm (f.collect Flight.sentAt)) :
    InTime spec startNs f' :=
  fun x hx => h x (hperm.subset hx)

/-- Each request sent has one record, or is driven, or waits for its task, under an id no
other has; and a record is ok exactly if its stream completed. -/
structure Accounted (spec : LoadSpec) (promptTokensFor : GenerateRequest → ℕ) (f : Flight)
    (waiting sent : List GenerateRequest) : Prop where
  once : (f.finished.map (fun x => (x.record spec promptTokensFor).requestId) ++
    f.running.map (·.request.requestId) ++ waiting.map (·.requestId)).Perm
      (sent.map (·.requestId))
  distinct : (sent.map (·.requestId)).Nodup
  ok : ∀ x ∈ f.finished,
    (x.record spec promptTokensFor).ok = true ↔ Completed x.drive x.ending

theorem accounted {f : Flight} {waiting sent : List GenerateRequest}
    (hperm : ((f.collect Flight.sentAt).map (·.1) ++ waiting).Perm sent)
    (hdistinct : (sent.map (·.requestId)).Nodup) :
    Accounted spec promptTokensFor f waiting sent := by
  refine ⟨?_, hdistinct, fun x _ => (driveOne_spec x.drive x.ending x.endNs).2.2⟩
  have hrecords : f.finished.map (fun x => (x.record spec promptTokensFor).requestId) =
      f.finished.map (fun x => x.drive.request.requestId) :=
    List.map_congr_left fun x _ => (driveOne_spec x.drive x.ending x.endNs).1
  have hids := hperm.map (·.requestId)
  unfold Flight.collect Flight.sentAt at hids
  simp only [List.map_append, List.map_map] at hids
  rw [hrecords]
  exact hids

/-! ## §4  The closed loop -/

namespace ClosedLoop

variable {s s' : ClosedLoop}

/-- With `repeat_requests`, no worker looks for a request when the pool is used up and the
duration has not elapsed. -/
def Supplied (spec : LoadSpec) (pool : List GenerateRequest) (startNs : ℤ) (s : ClosedLoop)
    (a : Act) : Prop :=
  a = .turn → spec.repeatRequests = true → pool ≠ [] → s.cursor < pool.length ∨
    expired spec startNs (clock s.now) = true

/-- A closed loop whose steps are all supplied. -/
def system (spec : LoadSpec) (pool : List GenerateRequest) (startNs : ℤ) :
    TransitionSystem ClosedLoop where
  init s := s = initial spec startNs
  step s s' := ∃ a, Supplied spec pool startNs s a ∧ s.perform spec pool startNs a = some s'

/-- What every step keeps. -/
structure Holds (spec : LoadSpec) (pool : List GenerateRequest) (startNs : ℤ) (s : ClosedLoop) :
    Prop where
  workers : s.idle + s.flight.running.length + s.exited = spec.concurrency
  sent : ((s.flight.collect Flight.sentAt).map (·.1)).Perm (pool.take s.cursor)
  cursor : s.cursor ≤ pool.length
  inTime : InTime spec startNs s.flight
  exits : 0 < s.exited → s.cursor = pool.length ∨ expired spec startNs (clock s.now) = true
  cycled : 0 < s.exited → spec.repeatRequests = true → pool ≠ [] →
    expired spec startNs (clock s.now) = true

theorem Holds.initial : Holds spec pool startNs (initial spec startNs) :=
  ⟨rfl, List.Perm.refl _, Nat.zero_le _, fun _ hx => (nomatch hx),
    fun h => absurd h (lt_irrefl 0), fun h => absurd h (lt_irrefl 0)⟩

/-- A worker's turn: it returns, or takes the next request. -/
theorem turn_cases (h : s.turn spec pool startNs = some s') :
    0 < s.idle ∧
      ((pool.length ≤ s.cursor ∨ expired spec startNs (clock s.now) = true) ∧
          s' = { s with idle := s.idle - 1, exited := s.exited + 1 } ∨
        ∃ request, pool[s.cursor]? = some request ∧
          expired spec startNs (clock s.now) = false ∧
          s' = { s with
            idle := s.idle - 1, cursor := s.cursor + 1
            flight := s.flight.start request s.now }) := by
  unfold turn at h
  split at h
  · cases h
  rename_i hidle
  refine ⟨Nat.pos_of_ne_zero hidle, ?_⟩
  cases hrequest : pool[s.cursor]? with
  | none =>
      rw [hrequest] at h
      exact Or.inl ⟨Or.inl (List.getElem?_eq_none_iff.mp hrequest), (Option.some.inj h).symm⟩
  | some request =>
      rw [hrequest] at h
      cases hexpired : expired spec startNs (clock s.now) with
      | true =>
          dsimp only at h
          rw [if_pos hexpired] at h
          exact Or.inl ⟨Or.inr rfl, (Option.some.inj h).symm⟩
      | false =>
          dsimp only at h
          rw [if_neg (by rw [hexpired]; exact Bool.false_ne_true)] at h
          exact Or.inr ⟨request, rfl, rfl, (Option.some.inj h).symm⟩

/-- One supplied step. -/
theorem Holds.step (h : Holds spec pool startNs s) {a : Act}
    (hsupplied : Supplied spec pool startNs s a) (hs : s.perform spec pool startNs a = some s') :
    Holds spec pool startNs s' := by
  cases a with
  | advance ns =>
      obtain rfl := Option.some.inj hs
      have hlater : clock s.now ≤ clock (s.now + ns) := clock_mono (by omega)
      refine ⟨h.workers, h.sent, h.cursor, h.inTime, fun hexited => ?_, fun hexited hr hp => ?_⟩
      · exact (h.exits hexited).imp_right (expired_mono hlater)
      · exact expired_mono hlater (h.cycled hexited hr hp)
  | turn =>
      obtain ⟨hidle, ⟨hend, rfl⟩ | ⟨request, hrequest, hearly, rfl⟩⟩ := turn_cases hs
      · refine ⟨?_, h.sent, h.cursor, h.inTime, fun _ => ?_, fun _ hr hp => ?_⟩
        · have hworkers := h.workers
          dsimp only
          omega
        · exact hend.imp_left (le_antisymm h.cursor)
        · rcases hsupplied rfl hr hp with hlt | hexpired
          · exact hend.resolve_left (not_le.mpr hlt)
          · exact hexpired
      · obtain ⟨hlt, hget⟩ := List.getElem?_eq_some_iff.mp hrequest
        refine ⟨?_, ?_, hlt, h.inTime.start hearly, fun hexited => ?_, fun hexited hr hp => ?_⟩
        · have hworkers := h.workers
          change s.idle - 1 + (s.flight.running ++ [_]).length + s.exited = spec.concurrency
          rw [List.length_append, List.length_singleton]
          omega
        · dsimp only
          rw [Flight.collect_start, List.map_append, ← List.take_concat_get' _ _ hlt, hget]
          exact h.sent.append_right _
        · rcases h.exits hexited with hall | hexpired
          · exact absurd hall hlt.ne
          · rw [hexpired] at hearly
            cases hearly
        · exact h.cycled hexited hr hp
  | receive k e =>
      obtain ⟨f, hf, rfl⟩ := Option.map_eq_some_iff.mp hs
      obtain ⟨hcollect, hlength⟩ := Flight.receive_spec hf
      refine ⟨?_, ?_, h.cursor, h.inTime.perm (List.Perm.of_eq hcollect), h.exits, h.cycled⟩
      · exact (congrArg (fun n => s.idle + n + s.exited) hlength).trans h.workers
      · dsimp only
        rw [hcollect]
        exact h.sent
  | finish k ending =>
      obtain ⟨f, hf, rfl⟩ := Option.map_eq_some_iff.mp hs
      obtain ⟨hperm, hlength⟩ := Flight.finish_spec hf
      refine ⟨?_, (hperm.map _).trans h.sent, h.cursor, h.inTime.perm hperm, h.exits, h.cycled⟩
      have hworkers := h.workers
      dsimp only
      omega

theorem Holds.reachable (h : (system spec pool startNs).Reachable s) :
    Holds spec pool startNs s := by
  have hinvariant : (system spec pool startNs).Invariant (Holds spec pool startNs) := by
    refine ⟨?_, ?_⟩
    · rintro s rfl
      exact Holds.initial
    · rintro s s' - hs ⟨a, hsupplied, hperform⟩
      exact hs.step hsupplied hperform
  exact hinvariant.reachable h

/-- What a closed loop does at every moment, and once its driver has returned. -/
structure Sound (spec : LoadSpec) (promptTokensFor : GenerateRequest → ℕ)
    (pool : List GenerateRequest) (startNs : ℤ) (s : ClosedLoop) : Prop where
  accounted : Accounted spec promptTokensFor s.flight [] (pool.take s.cursor)
  inTime : InTime spec startNs s.flight
  inFlight : s.flight.running.length ≤ spec.concurrency
  returned : s.Returned spec → s.flight.running = [] ∧
    (spec.durationS = none → s.cursor = pool.length) ∧
    (spec.repeatRequests = true → pool ≠ [] → expired spec startNs (clock s.now) = true)

theorem Holds.sound (h : Holds spec pool startNs s) (hids : (pool.map (·.requestId)).Nodup) :
    Sound spec promptTokensFor pool startNs s := by
  have hworkers := h.workers
  refine ⟨?_, h.inTime, by omega, fun hreturned => ?_⟩
  · refine Bench.accounted ?_ ?_
    · rw [List.append_nil]
      exact h.sent
    · rw [List.map_take]
      exact hids.sublist (List.take_sublist _ _)
  · have hexited : 0 < s.exited := hreturned ▸ spec.one_le_concurrency
    refine ⟨List.length_eq_zero_iff.mp ?_, fun hduration => ?_, h.cycled hexited⟩
    · unfold Returned at hreturned
      omega
    · refine (h.exits hexited).resolve_right fun hexpired => ?_
      obtain ⟨t, ht, -⟩ := expired_iff.mp hexpired
      rw [deadline, hduration] at ht
      cases ht

end ClosedLoop

/-! ## §5  The open loop -/

namespace OpenLoop

variable {gap : ℕ → ℚ} {s s' : OpenLoop}

/-- When the `n`-th request is to arrive, from the start. -/
def arrival (gap : ℕ → ℚ) (n : ℕ) : ℚ := ((List.range n).map gap).sum

/-- The first `n` requests to send. -/
def launched (pool : List GenerateRequest) (n : ℕ) : List GenerateRequest :=
  (List.range n).filterMap (nthRequest pool)

/-- There is another request to send, and it is to arrive before the deadline. -/
def Due (spec : LoadSpec) (pool : List GenerateRequest) (startNs : ℤ) (s : OpenLoop) : Prop :=
  (spec.repeatRequests = true ∨ s.index < pool.length) ∧
    expired spec startNs (s.target startNs) = false

/-- An arrival before the deadline is under way: it waits for its time, for a place in flight
or for its task to run. -/
def Pending (spec : LoadSpec) (pool : List GenerateRequest) (startNs : ℤ) (s : OpenLoop) : Prop :=
  s.dispatch = .sleeping ∨ s.dispatch = .acquiring ∨ s.created ≠ [] ∨
    (s.dispatch = .top ∧ s.Due spec pool startNs)

/-- The deadline does not pass while an arrival before it is under way, and no repetition
gets an id of the pool. -/
structure Orderly (spec : LoadSpec) (pool : List GenerateRequest) (startNs : ℤ) (s : OpenLoop)
    (a : Act) : Prop where
  timely : ∀ ns, a = .advance ns → s.Pending spec pool startNs →
    expired spec startNs (clock (s.now + ns)) = false
  distinct : a = .launch → pool.length ≤ s.index → ∀ r, nthRequest pool s.index = some r →
    r.requestId ∉ pool.map (·.requestId)

/-- An open loop whose steps are all orderly. -/
def system (spec : LoadSpec) (pool : List GenerateRequest) (startNs : ℤ) (gap : ℕ → ℚ) :
    TransitionSystem OpenLoop where
  init s := s = initial spec pool startNs
  step s s' := ∃ a, Orderly spec pool startNs s a ∧ s.perform spec pool startNs gap a = some s'

theorem arrival_succ (gap : ℕ → ℚ) (n : ℕ) : arrival gap (n + 1) = arrival gap n + gap n := by
  unfold arrival
  rw [List.range_succ, List.map_append, List.sum_append, List.map_singleton, List.sum_singleton]

theorem launched_succ {request : GenerateRequest} {n : ℕ} (h : nthRequest pool n = some request) :
    launched pool (n + 1) = launched pool n ++ [request] := by
  unfold launched
  rw [List.range_succ, List.filterMap_append, List.filterMap_cons_some h]
  rfl

/-- As long as the pool lasts, its requests are sent in order. -/
theorem launched_eq_take {n : ℕ} (hn : n ≤ pool.length) : launched pool n = pool.take n := by
  induction n with
  | zero => rfl
  | succ n ih =>
      have hlt : n < pool.length := hn
      have hnth : nthRequest pool n = some pool[n] := by
        rw [nthRequest, if_pos hlt, List.getElem?_eq_getElem hlt]
      rw [launched_succ hnth, ih hlt.le, List.take_concat_get' _ _ hlt]

/-- Two requests of a cycled pool have one id only if one of them is a repetition that got an
id of the pool. -/
theorem nthRequest_id_ne (hids : (pool.map (·.requestId)).Nodup) {i j : ℕ} (hij : i < j)
    {r r' : GenerateRequest} (hi : nthRequest pool i = some r) (hj : nthRequest pool j = some r')
    (hfresh : pool.length ≤ j → r'.requestId ∉ pool.map (·.requestId)) :
    r.requestId ≠ r'.requestId := by
  have hsame : ∀ {a b : ℕ} (ha : a < pool.length) (hb : b < pool.length),
      pool[a].requestId = pool[b].requestId → a = b := by
    intro a b ha hb hab
    have ha' : a < (pool.map (·.requestId)).length := by rwa [List.length_map]
    have hb' : b < (pool.map (·.requestId)).length := by rwa [List.length_map]
    refine (@List.Nodup.getElem_inj_iff _ _ hids a ha' b hb').mp ?_
    rw [List.getElem_map, List.getElem_map, hab]
  unfold nthRequest at hi hj
  by_cases hj' : j < pool.length
  · have hi' : i < pool.length := hij.trans hj'
    rw [if_pos hi', List.getElem?_eq_getElem hi'] at hi
    rw [if_pos hj', List.getElem?_eq_getElem hj'] at hj
    cases hi
    cases hj
    exact fun h => hij.ne (hsame hi' hj' h)
  · by_cases hi' : i < pool.length
    · rw [if_pos hi', List.getElem?_eq_getElem hi'] at hi
      cases hi
      intro h
      exact hfresh (not_lt.mp hj') (h ▸ List.mem_map.mpr ⟨_, List.getElem_mem hi', rfl⟩)
    · -- two repetitions: the numeral gives the round, the rest the request
      rw [if_neg hi'] at hi
      rw [if_neg hj'] at hj
      obtain ⟨base, hbase, rfl⟩ := Option.map_eq_some_iff.mp hi
      obtain ⟨base', hbase', rfl⟩ := Option.map_eq_some_iff.mp hj
      obtain ⟨ha, rfl⟩ := List.getElem?_eq_some_iff.mp hbase
      obtain ⟨hb, rfl⟩ := List.getElem?_eq_some_iff.mp hbase'
      intro h
      obtain ⟨hid, hround⟩ := numbered_inj (c := '#') rfl (by decide) h
      have hplace := hsame ha hb hid
      have hi₂ := Nat.div_add_mod i pool.length
      have hj₂ := Nat.div_add_mod j pool.length
      rw [hround, hplace] at hi₂
      omega

theorem launched_nodup (hids : (pool.map (·.requestId)).Nodup) {n : ℕ}
    {request : GenerateRequest} (hnth : nthRequest pool n = some request)
    (h : ((launched pool n).map (·.requestId)).Nodup)
    (hfresh : pool.length ≤ n → request.requestId ∉ pool.map (·.requestId)) :
    ((launched pool (n + 1)).map (·.requestId)).Nodup := by
  rw [launched_succ hnth, List.map_append, List.nodup_append]
  refine ⟨h, List.nodup_singleton _, fun id hid id' hid' heq => ?_⟩
  obtain ⟨r, hr, rfl⟩ := List.mem_map.mp hid
  obtain ⟨i, hi, hir⟩ := List.mem_filterMap.mp hr
  rw [List.map_singleton, List.mem_singleton] at hid'
  exact nthRequest_id_ne hids (List.mem_range.mp hi) hir hnth hfresh (heq.trans hid')

/-- What every orderly step keeps. -/
structure Holds (spec : LoadSpec) (pool : List GenerateRequest) (startNs : ℤ) (gap : ℕ → ℚ)
    (s : OpenLoop) : Prop where
  offset : s.offset = arrival gap s.index
  sent : ((s.flight.collect Flight.sentAt).map (·.1) ++ s.created).Perm (launched pool s.index)
  slots : ∀ m, spec.maxInFlight = some m →
    ∃ v, s.value = some v ∧ v + s.created.length + s.flight.running.length = m
  due : ∀ i < s.index, expired spec startNs (clock startNs + arrival gap i) = false
  inPool : spec.repeatRequests = false → s.index ≤ pool.length
  moving : s.dispatch = .sleeping ∨ s.dispatch = .acquiring → s.Due spec pool startNs
  stopped : s.dispatch = .joining ∨ s.dispatch = .returned → ¬ s.Due spec pool startNs ∨ pool = []
  joined : s.dispatch = .returned → s.created = [] ∧ s.flight.running = []
  early : s.Pending spec pool startNs → expired spec startNs (clock s.now) = false
  inTime : InTime spec startNs s.flight
  distinct : ((launched pool s.index).map (·.requestId)).Nodup

theorem Holds.initial : Holds spec pool startNs gap (initial spec pool startNs) := by
  have hdispatch : (OpenLoop.initial spec pool startNs).dispatch =
      if pool = [] then .returned else .top := rfl
  have hstart : expired spec startNs (clock startNs) = false := by
    refine Bool.eq_false_iff.mpr fun hexpired => ?_
    obtain ⟨t, ht, hle⟩ := expired_iff.mp hexpired
    obtain ⟨d, hd, rfl⟩ := Option.map_eq_some_iff.mp ht
    have hpos := spec.duration_pos d hd
    linarith
  refine ⟨rfl, List.Perm.refl _, fun m hm => ⟨m, hm, rfl⟩, fun i hi => absurd hi (Nat.not_lt_zero i),
    fun _ => Nat.zero_le _, ?_, ?_, fun _ => ⟨rfl, rfl⟩, fun _ => hstart, fun _ hx => (nomatch hx),
    List.nodup_nil⟩
  · rw [hdispatch]
    split <;> rintro (h | h) <;> cases h
  · rw [hdispatch]
    split
    · rename_i hpool
      exact fun _ => Or.inr hpool
    · rintro (h | h) <;> cases h

/-- The dispatcher stops, or turns to an arrival that is due. -/
theorem look_cases (h : s.look spec pool startNs = some s') :
    s.dispatch = .top ∧ ∃ d, s' = { s with dispatch := d } ∧
      ((d = .joining ∧ ¬ s.Due spec pool startNs) ∨
        ((d = .sleeping ∨ d = .acquiring) ∧ s.Due spec pool startNs)) := by
  unfold look at h
  by_cases htop : s.dispatch = .top
  swap
  · rw [if_pos htop] at h
    cases h
  rw [if_neg (not_not.mpr htop)] at h
  refine ⟨htop, ?_⟩
  by_cases hend : spec.repeatRequests = false ∧ pool.length ≤ s.index
  · rw [if_pos hend] at h
    refine ⟨_, (Option.some.inj h).symm, Or.inl ⟨rfl, fun hdue => ?_⟩⟩
    rcases hdue.1 with hrepeat | hlt
    · rw [hend.1] at hrepeat
      cases hrepeat
    · exact absurd hlt (not_lt.mpr hend.2)
  rw [if_neg hend] at h
  by_cases hexpired : expired spec startNs (s.target startNs) = true
  · rw [if_pos hexpired] at h
    refine ⟨_, (Option.some.inj h).symm, Or.inl ⟨rfl, fun hdue => ?_⟩⟩
    rw [hdue.2] at hexpired
    cases hexpired
  rw [if_neg hexpired] at h
  have hdue : s.Due spec pool startNs := by
    refine ⟨?_, Bool.not_eq_true _ ▸ hexpired⟩
    by_cases hrepeat : spec.repeatRequests = true
    · exact Or.inl hrepeat
    · exact Or.inr (not_le.mp fun hle => hend ⟨Bool.not_eq_true _ ▸ hrepeat, hle⟩)
  split at h
  · exact ⟨_, (Option.some.inj h).symm, Or.inr ⟨Or.inl rfl, hdue⟩⟩
  · exact ⟨_, (Option.some.inj h).symm, Or.inr ⟨Or.inr rfl, hdue⟩⟩

theorem Holds.look (h : Holds spec pool startNs gap s)
    (hs : s.look spec pool startNs = some s') : Holds spec pool startNs gap s' := by
  obtain ⟨htop, d, rfl, hd⟩ := look_cases hs
  refine { h with moving := ?_, stopped := ?_, joined := ?_, early := ?_ }
  · intro hmoving
    rcases hd with ⟨rfl, -⟩ | ⟨-, hdue⟩
    · rcases hmoving with hmoving | hmoving <;> cases hmoving
    · exact hdue
  · intro hstopped
    rcases hd with ⟨-, hdue⟩ | ⟨hd, -⟩
    · exact Or.inl hdue
    · rcases hd with rfl | rfl <;> rcases hstopped with hstopped | hstopped <;> cases hstopped
  · intro hreturned
    rcases hd with ⟨rfl, -⟩ | ⟨rfl | rfl, -⟩ <;> cases hreturned
  · intro hpending
    refine h.early ?_
    rcases hd with ⟨rfl, -⟩ | ⟨-, hdue⟩
    · rcases hpending with hp | hp | hp | hp
      · cases hp
      · cases hp
      · exact Or.inr (Or.inr (Or.inl hp))
      · cases hp.1
    · exact Or.inr (Or.inr (Or.inr ⟨htop, hdue⟩))

theorem Holds.launch (h : Holds spec pool startNs gap s)
    (hids : (pool.map (·.requestId)).Nodup) (horderly : Orderly spec pool startNs s .launch)
    (hs : s.launch pool gap = some s') : Holds spec pool startNs gap s' := by
  unfold OpenLoop.launch at hs
  split at hs
  · cases hs
  rename_i hready
  push Not at hready
  obtain ⟨hacquiring, hplace⟩ := hready
  obtain ⟨request, hrequest, rfl⟩ := Option.map_eq_some_iff.mp hs
  have hdue := h.moving (Or.inr hacquiring)
  refine
    { offset := ?_, sent := ?_, slots := ?_, due := ?_, inPool := ?_
      moving := ?_, stopped := ?_, joined := ?_, early := ?_, inTime := h.inTime
      distinct := launched_nodup hids hrequest h.distinct fun hle =>
        horderly.distinct rfl hle request hrequest }
  · exact (congrArg (· + gap s.index) h.offset).trans (arrival_succ gap s.index).symm
  · dsimp only
    rw [launched_succ hrequest, ← List.append_assoc]
    exact h.sent.append_right _
  · intro m hm
    obtain ⟨v, hv, hsum⟩ := h.slots m hm
    have hpos : v ≠ 0 := fun hzero => hplace (hzero ▸ hv)
    refine ⟨v - 1, ?_, ?_⟩
    · dsimp only
      rw [hv]
      rfl
    · dsimp only
      rw [List.length_append, List.length_singleton]
      omega
  · intro i hi
    rcases Nat.lt_succ_iff_lt_or_eq.mp hi with hlt | rfl
    · exact h.due i hlt
    · rw [← h.offset]
      exact hdue.2
  · intro hrepeat
    refine hdue.1.resolve_left ?_
    rw [hrepeat]
    exact Bool.false_ne_true
  · rintro (hd | hd) <;> cases hd
  · rintro (hd | hd) <;> cases hd
  · intro hd
    cases hd
  · exact fun _ => h.early (Or.inr (Or.inl hacquiring))

theorem Holds.start (h : Holds spec pool startNs gap s) {request : GenerateRequest}
    {rest : List GenerateRequest} (hcreated : s.created = request :: rest) :
    Holds spec pool startNs gap
      { s with created := rest, flight := s.flight.start request s.now } := by
  have hpending : s.Pending spec pool startNs := by
    refine Or.inr (Or.inr (Or.inl ?_))
    rw [hcreated]
    exact List.cons_ne_nil _ _
  refine { h with sent := ?_, slots := ?_, joined := ?_, early := ?_, inTime := ?_ }
  · dsimp only
    rw [Flight.collect_start, List.map_append, List.append_assoc]
    have hsent := h.sent
    rw [hcreated] at hsent
    exact hsent
  · intro m hm
    obtain ⟨v, hv, hsum⟩ := h.slots m hm
    refine ⟨v, hv, ?_⟩
    change v + rest.length + (s.flight.running ++ [_]).length = m
    rw [hcreated, List.length_cons] at hsum
    rw [List.length_append, List.length_singleton]
    omega
  · intro hreturned
    have hnone := (h.joined hreturned).1
    rw [hcreated] at hnone
    cases hnone
  · exact fun _ => h.early hpending
  · exact h.inTime.start (h.early hpending)

/-- A step that leaves the requests sent, the arrivals and the dispatcher where they are. -/
theorem Holds.move (h : Holds spec pool startNs gap s) {f : Flight} {v : Option ℕ}
    (hperm : (f.collect Flight.sentAt).Perm (s.flight.collect Flight.sentAt))
    (hslots : ∀ m, spec.maxInFlight = some m →
      ∃ w, v = some w ∧ w + s.created.length + f.running.length = m)
    (hrunning : s.flight.running = [] → f.running = []) :
    Holds spec pool startNs gap { s with flight := f, value := v } where
  offset := h.offset
  sent := ((hperm.map _).append_right _).trans h.sent
  slots := hslots
  due := h.due
  inPool := h.inPool
  moving := h.moving
  stopped := h.stopped
  joined hreturned := ⟨(h.joined hreturned).1, hrunning (h.joined hreturned).2⟩
  early := h.early
  inTime := h.inTime.perm hperm
  distinct := h.distinct

/-- One orderly step. -/
theorem Holds.step (h : Holds spec pool startNs gap s) (hids : (pool.map (·.requestId)).Nodup)
    {a : Act} (horderly : Orderly spec pool startNs s a)
    (hs : s.perform spec pool startNs gap a = some s') : Holds spec pool startNs gap s' := by
  cases a with
  | advance ns =>
      obtain rfl := Option.some.inj hs
      exact { h with early := horderly.timely ns rfl }
  | look => exact h.look hs
  | wake =>
      obtain ⟨hready, hs⟩ := Option.ite_none_right_eq_some.mp hs
      obtain rfl := Option.some.inj hs
      have hdue := h.moving (Or.inl hready.1)
      refine { h with moving := fun _ => hdue, stopped := ?_, joined := ?_, early := ?_ }
      · rintro (hd | hd) <;> cases hd
      · intro hd
        cases hd
      · exact fun _ => h.early (Or.inl hready.1)
  | launch => exact h.launch hids horderly hs
  | start =>
      cases hcreated : s.created with
      | nil =>
          simp only [perform, hcreated] at hs
          cases hs
      | cons request rest =>
          simp only [perform, hcreated] at hs
          obtain rfl := Option.some.inj hs
          exact h.start hcreated
  | receive k e =>
      obtain ⟨f, hf, rfl⟩ := Option.map_eq_some_iff.mp hs
      obtain ⟨hcollect, hlength⟩ := Flight.receive_spec hf
      refine h.move (List.Perm.of_eq hcollect) (fun m hm => ?_) fun hnone => ?_
      · rw [hlength]
        exact h.slots m hm
      · rw [← List.length_eq_zero_iff, hlength, hnone, List.length_nil]
  | finish k ending =>
      obtain ⟨f, hf, rfl⟩ := Option.map_eq_some_iff.mp hs
      obtain ⟨hperm, hlength⟩ := Flight.finish_spec hf
      refine h.move hperm (fun m hm => ?_) fun hnone => ?_
      · obtain ⟨v, hv, hsum⟩ := h.slots m hm
        refine ⟨v + 1, ?_, ?_⟩
        · rw [hv]
          rfl
        · omega
      · rw [hnone, List.length_nil] at hlength
        exact absurd hlength (Nat.succ_ne_zero _)
  | join =>
      obtain ⟨⟨hjoining, hdone⟩, hs⟩ := Option.ite_none_right_eq_some.mp hs
      obtain rfl := Option.some.inj hs
      refine { h with moving := ?_, stopped := fun _ => h.stopped (Or.inl hjoining)
                      joined := fun _ => hdone, early := ?_ }
      · rintro (hd | hd) <;> cases hd
      · rintro (hd | hd | hd | ⟨hd, -⟩)
        · cases hd
        · cases hd
        · exact absurd hdone.1 hd
        · cases hd

theorem Holds.reachable (hids : (pool.map (·.requestId)).Nodup)
    (h : (system spec pool startNs gap).Reachable s) : Holds spec pool startNs gap s := by
  have hinvariant : (system spec pool startNs gap).Invariant (Holds spec pool startNs gap) := by
    refine ⟨?_, ?_⟩
    · rintro s rfl
      exact Holds.initial
    · rintro s s' - hs ⟨a, horderly, hperform⟩
      exact hs.step hids horderly hperform
  exact hinvariant.reachable h

/-- What an open loop does at every moment, and once its driver has returned. -/
structure Sound (spec : LoadSpec) (promptTokensFor : GenerateRequest → ℕ)
    (pool : List GenerateRequest) (startNs : ℤ) (gap : ℕ → ℚ) (s : OpenLoop) : Prop where
  accounted : Accounted spec promptTokensFor s.flight s.created (launched pool s.index)
  inPool : spec.repeatRequests = false → launched pool s.index = pool.take s.index
  inTime : InTime spec startNs s.flight
  inFlight : ∀ m, spec.maxInFlight = some m → s.flight.running.length ≤ m
  returned : s.dispatch = .returned → s.flight.running = [] ∧ s.created = [] ∧
    (spec.repeatRequests = false → spec.durationS = none → s.index = pool.length) ∧
    (spec.repeatRequests = true → pool ≠ [] →
      (∀ i < s.index, expired spec startNs (clock startNs + arrival gap i) = false) ∧
        expired spec startNs (clock startNs + arrival gap s.index) = true)

theorem Holds.sound (h : Holds spec pool startNs gap s) :
    Sound spec promptTokensFor pool startNs gap s := by
  refine ⟨Bench.accounted h.sent h.distinct, fun hrepeat => launched_eq_take (h.inPool hrepeat),
    h.inTime, fun m hm => ?_, fun hreturned => ?_⟩
  · obtain ⟨v, -, hsum⟩ := h.slots m hm
    omega
  · obtain ⟨hcreated, hrunning⟩ := h.joined hreturned
    refine ⟨hrunning, hcreated, fun hrepeat hduration => ?_, fun hrepeat hpool => ⟨h.due, ?_⟩⟩
    · refine le_antisymm (h.inPool hrepeat) (not_lt.mp fun hlt => ?_)
      rcases h.stopped (Or.inr hreturned) with hdue | hpool
      · refine hdue ⟨Or.inr hlt, Bool.eq_false_iff.mpr fun hexpired => ?_⟩
        obtain ⟨t, ht, -⟩ := expired_iff.mp hexpired
        rw [deadline, hduration] at ht
        cases ht
      · rw [hpool] at hlt
        exact absurd hlt (Nat.not_lt_zero _)
    · have hdue := (h.stopped (Or.inr hreturned)).resolve_right hpool
      rw [← h.offset]
      by_contra hexpired
      exact hdue ⟨Or.inl hrepeat, Bool.eq_false_iff.mpr hexpired⟩

end OpenLoop

/-! ## §6  Both drivers -/

/-- In every run of either driver whose steps meet its condition, each request sent has one
record or is under way, under an id of its own, a record is ok exactly if its stream
completed, no request is sent once the duration has elapsed, the bound on the requests in
flight is kept, and a driver that has returned has sent the load it was asked for. -/
theorem load_drivers_sound (hids : (pool.map (·.requestId)).Nodup) :
    (∀ s, (ClosedLoop.system spec pool startNs).Reachable s →
      ClosedLoop.Sound spec promptTokensFor pool startNs s) ∧
      ∀ gap s, (OpenLoop.system spec pool startNs gap).Reachable s →
        OpenLoop.Sound spec promptTokensFor pool startNs gap s :=
  ⟨fun _ h => (ClosedLoop.Holds.reachable h).sound hids,
    fun _ _ h => (OpenLoop.Holds.reachable hids h).sound⟩

end Loops

/-! ## §7  A run of each -/

def threeRequests : List GenerateRequest := [⟨"a", "t", "m"⟩, ⟨"b", "t", "m"⟩, ⟨"c", "t", "m"⟩]

/-- Two workers that repeat the pool for ten seconds. -/
def twoWorkers : LoadSpec where
  concurrency := 2
  repeatRequests := true
  durationS := some 10

/-- Two arrivals a second for two seconds, two places in flight, and the pool repeated. -/
def twoPlaces : LoadSpec where
  mode := .opened
  rateRps := some 2
  durationS := some 2
  maxInFlight := some 2
  repeatRequests := true
  rate_pos := fun _ => ⟨2, rfl, by decide⟩

/-- A token, and the end. -/
def last (requestId : String) : TokenEvent :=
  { requestId := requestId, tokenIds := [7], finished := true }

section Next

variable (spec : LoadSpec) (pool : List GenerateRequest) (startNs : ℤ)

/-- A step that is supplied. -/
def ClosedLoop.next (s : ClosedLoop) : ClosedLoop.Act → Option ClosedLoop
  | .turn =>
      if spec.repeatRequests = true ∧ pool.length ≤ s.cursor ∧
        expired spec startNs (clock s.now) = false then none
      else s.perform spec pool startNs .turn
  | a => s.perform spec pool startNs a

theorem ClosedLoop.step_of_next {s s' : ClosedLoop} {a : ClosedLoop.Act}
    (h : s.next spec pool startNs a = some s') : (system spec pool startNs).step s s' := by
  cases a with
  | turn =>
      simp only [next] at h
      split at h
      · cases h
      · rename_i hguard
        refine ⟨.turn, fun _ hrepeat _ => ?_, h⟩
        by_contra hnot
        obtain ⟨hle, hopen⟩ := not_or.mp hnot
        exact hguard ⟨hrepeat, not_lt.mp hle, Bool.eq_false_iff.mpr hopen⟩
  | advance ns => exact ⟨.advance ns, fun ha => (by cases ha), h⟩
  | receive k e => exact ⟨.receive k e, fun ha => (by cases ha), h⟩
  | finish k ending => exact ⟨.finish k ending, fun ha => (by cases ha), h⟩

instance (s : OpenLoop) : Decidable (s.Due spec pool startNs) :=
  inferInstanceAs (Decidable ((spec.repeatRequests = true ∨ s.index < pool.length) ∧
    expired spec startNs (s.target startNs) = false))

instance (s : OpenLoop) : Decidable (s.Pending spec pool startNs) :=
  inferInstanceAs (Decidable (s.dispatch = .sleeping ∨ s.dispatch = .acquiring ∨ s.created ≠ [] ∨
    (s.dispatch = .top ∧ s.Due spec pool startNs)))

/-- A step that is orderly. -/
def OpenLoop.next (gap : ℕ → ℚ) (s : OpenLoop) : OpenLoop.Act → Option OpenLoop
  | .advance ns =>
      if s.Pending spec pool startNs ∧ expired spec startNs (clock (s.now + ns)) = true then none
      else s.perform spec pool startNs gap (.advance ns)
  | .launch =>
      if pool.length ≤ s.index ∧
        ∃ r ∈ nthRequest pool s.index, r.requestId ∈ pool.map (·.requestId) then none
      else s.perform spec pool startNs gap .launch
  | a => s.perform spec pool startNs gap a

theorem OpenLoop.step_of_next {gap : ℕ → ℚ} {s s' : OpenLoop} {a : OpenLoop.Act}
    (h : s.next spec pool startNs gap a = some s') : (system spec pool startNs gap).step s s' := by
  have hother : (∀ ns, a ≠ .advance ns) → a ≠ .launch → Orderly spec pool startNs s a :=
    fun hadvance hlaunch => ⟨fun ns ha => absurd ha (hadvance ns), fun ha => absurd ha hlaunch⟩
  cases a with
  | advance ns =>
      simp only [next] at h
      split at h
      · cases h
      · rename_i hguard
        refine ⟨.advance ns, ⟨fun ns' ha hpending => ?_, fun ha => (by cases ha)⟩, h⟩
        cases ha
        exact Bool.eq_false_iff.mpr fun hlate => hguard ⟨hpending, hlate⟩
  | launch =>
      simp only [next] at h
      split at h
      · cases h
      · rename_i hguard
        refine ⟨.launch, ⟨fun ns ha => (by cases ha), fun _ hle r hr hmem => ?_⟩, h⟩
        exact hguard ⟨hle, r, hr, hmem⟩
  | look => exact ⟨.look, hother (fun _ ha => (by cases ha)) (fun ha => (by cases ha)), h⟩
  | wake => exact ⟨.wake, hother (fun _ ha => (by cases ha)) (fun ha => (by cases ha)), h⟩
  | start => exact ⟨.start, hother (fun _ ha => (by cases ha)) (fun ha => (by cases ha)), h⟩
  | receive k e =>
      exact ⟨.receive k e, hother (fun _ ha => (by cases ha)) (fun ha => (by cases ha)), h⟩
  | finish k ending =>
      exact ⟨.finish k ending, hother (fun _ ha => (by cases ha)) (fun ha => (by cases ha)), h⟩
  | join => exact ⟨.join, hother (fun _ ha => (by cases ha)) (fun ha => (by cases ha)), h⟩

end Next

/-- One request completes, one times out, and one raises after its last event. -/
def closedRun : List ClosedLoop.Act :=
  [.turn, .turn, .receive 0 (last "a"), .finish 0 .normal, .turn, .finish 0 (.timedOut "30.0"),
    .receive 0 (last "c"), .advance 10000000000, .finish 0 (.raised "E" "x"), .turn, .turn]

/-- The third request waits for a place, and the fourth is the first again. -/
def openRun : List OpenLoop.Act :=
  [.look, .launch, .start, .receive 0 (last "a"), .look, .advance 500000000, .wake, .launch,
    .start, .look, .advance 500000000, .wake, .finish 0 .normal, .launch, .start, .look,
    .advance 500000000, .wake, .finish 0 (.backendError "lost"), .launch, .start, .look,
    .receive 1 (last "a#1"), .finish 0 (.timedOut "30.0"), .finish 0 .normal, .join]

/-- The id of each record, and whether it is ok. -/
def outcomes (spec : LoadSpec) (f : Flight) : List (String × Bool) :=
  f.finished.map fun x =>
    ((x.record spec fun _ => 0).requestId, (x.record spec fun _ => 0).ok)

theorem load_drivers_sound_threeRequests :
    (∃ s, (ClosedLoop.system twoWorkers threeRequests 0).Reachable s ∧ s.exited = 2 ∧
        s.flight.peak = 2 ∧
        outcomes twoWorkers s.flight = [("a", true), ("b", false), ("c", false)] ∧
        ClosedLoop.Sound twoWorkers (fun _ => 0) threeRequests 0 s) ∧
      ∃ s, (OpenLoop.system twoPlaces threeRequests 0 fun _ => 1 / 2).Reachable s ∧
        s.dispatch = .returned ∧ s.flight.peak = 2 ∧
        outcomes twoPlaces s.flight =
          [("a", true), ("b", false), ("c", false), ("a#1", true)] ∧
        OpenLoop.Sound twoPlaces (fun _ => 0) threeRequests 0 (fun _ => 1 / 2) s := by
  have hids : (threeRequests.map (·.requestId)).Nodup := by decide
  refine ⟨?_, ?_⟩
  · have hrun : ((closedRun.foldlM (ClosedLoop.next twoWorkers threeRequests 0)
        (.initial twoWorkers 0)).map fun s => decide (s.exited = 2 ∧ s.flight.peak = 2 ∧
          outcomes twoWorkers s.flight = [("a", true), ("b", false), ("c", false)])) =
        some true := by
      decide +kernel
    obtain ⟨s, hs, hafter⟩ := Option.map_eq_some_iff.mp hrun
    obtain ⟨hexited, hpeak, houtcomes⟩ := of_decide_eq_true hafter
    have hreach : (ClosedLoop.system twoWorkers threeRequests 0).Reachable s :=
      .foldlM (ClosedLoop.step_of_next _ _ _) (.init rfl) hs
    exact ⟨s, hreach, hexited, hpeak, houtcomes, (load_drivers_sound hids).1 s hreach⟩
  · have hrun : ((openRun.foldlM (OpenLoop.next twoPlaces threeRequests 0 fun _ => 1 / 2)
        (.initial twoPlaces threeRequests 0)).map fun s =>
          decide (s.dispatch = .returned ∧ s.flight.peak = 2 ∧ outcomes twoPlaces s.flight =
            [("a", true), ("b", false), ("c", false), ("a#1", true)])) = some true := by
      decide +kernel
    obtain ⟨s, hs, hafter⟩ := Option.map_eq_some_iff.mp hrun
    obtain ⟨hreturned, hpeak, houtcomes⟩ := of_decide_eq_true hafter
    have hreach : (OpenLoop.system twoPlaces threeRequests 0 fun _ => 1 / 2).Reachable s :=
      .foldlM (OpenLoop.step_of_next _ _ _) (.init rfl) hs
    exact ⟨s, hreach, hreturned, hpeak, houtcomes, (load_drivers_sound hids).2 _ s hreach⟩

/-! ## §8  Loads that are not the one asked for -/

def oneRequest : List GenerateRequest := [⟨"a", "t", "m"⟩]

/-- One worker, asked to repeat its requests for ten seconds. -/
def repeating : LoadSpec where
  repeatRequests := true
  durationS := some 10

/-- One place in flight, for one second. -/
def throttled : LoadSpec where
  mode := .opened
  rateRps := some 2
  durationS := some 1
  maxInFlight := some 1
  rate_pos := fun _ => ⟨2, rfl, by decide⟩

/-- A pool whose first request, the second time, gets the id of the second. -/
def numbered : List GenerateRequest := [⟨"a", "t", "m"⟩, ⟨"a#1", "t", "m"⟩]

/-- Repeated for two seconds, two requests a second. -/
def cycled : LoadSpec where
  mode := .opened
  rateRps := some 2
  durationS := some 2
  repeatRequests := true
  rate_pos := fun _ => ⟨2, rfl, by decide⟩

/-- A closed loop after the steps `acts`. -/
def ClosedLoop.play (spec : LoadSpec) (pool : List GenerateRequest)
    (acts : List ClosedLoop.Act) : Option ClosedLoop :=
  acts.foldlM (fun s a => s.perform spec pool 0 a) (ClosedLoop.initial spec 0)

/-- An open loop with an arrival every half second, after the steps `acts`. -/
def OpenLoop.play (spec : LoadSpec) (pool : List GenerateRequest)
    (acts : List OpenLoop.Act) : Option OpenLoop :=
  acts.foldlM (fun s a => s.perform spec pool 0 (fun _ => 1 / 2) a)
    (OpenLoop.initial spec pool 0)

/-- The closed loop sends its pool once and returns; a request that waits for a place is sent
two seconds late; and a repetition takes an id that is taken. -/
theorem load_not_asked_for :
    (∃ s ∈ ClosedLoop.play repeating oneRequest [.turn, .finish 0 .normal, .turn],
      s.exited = repeating.concurrency ∧ s.flight.finished.length = 1 ∧
        expired repeating 0 (clock s.now) = false) ∧
      (∃ s ∈ OpenLoop.play throttled numbered [.look, .launch, .start, .look,
          .advance 500000000, .wake, .advance 2500000000, .finish 0 .normal, .launch, .start],
        ∃ d ∈ s.flight.running, expired throttled 0 (clock d.sendNs) = true) ∧
      ∃ s ∈ OpenLoop.play cycled numbered [.look, .launch, .start, .look, .advance 500000000,
          .wake, .launch, .start, .look, .advance 500000000, .wake, .launch, .start],
        s.flight.running.map (·.request.requestId) = ["a", "a#1", "a#1"] := by
  refine ⟨?_, ?_, ?_⟩ <;> decide +kernel

end TurboServe.Bench
