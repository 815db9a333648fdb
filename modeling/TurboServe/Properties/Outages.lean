import TurboServe.Chaos.Harness
import TurboServe.Lib.Intervals
import TurboServe.Lib.Sorting
import TurboServe.Lib.Fallible

/-!
# Outage windows and real outages

The loop over the timeline keeps one set of replicas that are down: those whose last action took
them down. Its windows are exactly the moments at which that set is the whole fleet; the real
fleet may be out at more moments, when an action ended one of two reasons.
-/

namespace TurboServe.Chaos

open Lib

/-! ## §1  Who is marked down -/

/-- The replicas whose last action took them down. -/
def downOf (events : List FaultEvent) : Finset (List Char) :=
  events.foldl
    (fun down event => if event.action.isDown then insert event.target down
      else down.erase event.target) ∅

/-- Its last action up to `t` took the replica down. -/
def MarkedDown (events : List FaultEvent) (t : ℚ) (name : List Char) : Prop :=
  name ∈ downOf (events.filter fun event => decide (event.tS ≤ t))

theorem downOf_append (events : List FaultEvent) (e : FaultEvent) :
    downOf (events ++ [e]) = if e.action.isDown then insert e.target (downOf events)
      else (downOf events).erase e.target := by
  unfold downOf
  rw [List.foldl_append]
  rfl

theorem mem_downOf_append {events : List FaultEvent} {e : FaultEvent} {name : List Char} :
    name ∈ downOf (events ++ [e]) ↔
      if e.target = name then e.action.isDown = true else name ∈ downOf events := by
  rw [downOf_append]
  by_cases hname : e.target = name
  · subst hname
    rw [if_pos rfl]
    split
    · rename_i hdown
      exact iff_of_true (Finset.mem_insert_self _ _) hdown
    · rename_i hup
      exact iff_of_false (Finset.notMem_erase _ _) hup
  · rw [if_neg hname]
    split
    · rw [Finset.mem_insert]
      exact or_iff_right (Ne.symm hname)
    · rw [Finset.mem_erase]
      exact and_iff_right (Ne.symm hname)

/-- What an action that takes a replica down leaves. -/
theorem FaultAction.out_of_isDown {action : FaultAction} (h : action.isDown = true)
    (w : InProcessWorker) : (action.perform w).Out := by
  cases action with
  | drain => exact Or.inr (Or.inl rfl)
  | kill => exact Or.inl rfl
  | partitionStart => exact Or.inr (Or.inr rfl)
  | restart => cases h
  | partitionEnd => cases h

/-- An action that takes no replica down takes none out of service. -/
theorem FaultAction.out_of_isUp {action : FaultAction} (h : action.isDown = false)
    {w : InProcessWorker} (hout : (action.perform w).Out) : w.Out := by
  cases action with
  | drain => cases h
  | kill => cases h
  | partitionStart => cases h
  | restart =>
      rcases hout with hdead | hdraining | hpartitioned
      · cases hdead
      · cases hdraining
      · exact Or.inr (Or.inr hpartitioned)
  | partitionEnd =>
      rcases hout with hdead | hdraining | hpartitioned
      · exact Or.inl hdead
      · exact Or.inr (Or.inl hdraining)
      · cases hpartitioned

theorem Fleet.perform_apply (fleet : Fleet) (e : FaultEvent) (name : List Char) :
    fleet.perform e name =
      if e.target = name then e.action.perform (fleet name) else fleet name := by
  unfold Fleet.perform
  by_cases hname : e.target = name
  · subst hname
    rw [Function.update_self, if_pos rfl]
  · rw [Function.update_of_ne (Ne.symm hname), if_neg hname]

/-- A marked replica is out of service. -/
theorem out_of_mem_downOf (fleet : Fleet) {events : List FaultEvent} {name : List Char}
    (h : name ∈ downOf events) : (events.foldl Fleet.perform fleet name).Out := by
  induction events using List.reverseRecOn with
  | nil => exact absurd h (Finset.notMem_empty _)
  | append_singleton events e ih =>
      rw [mem_downOf_append] at h
      rw [List.foldl_append, List.foldl_cons, List.foldl_nil, Fleet.perform_apply]
      split
      · rename_i hname
        rw [if_pos hname] at h
        exact FaultAction.out_of_isDown h _
      · rename_i hname
        rw [if_neg hname] at h
        exact ih h

theorem MarkedDown.out {events : List FaultEvent} {t : ℚ} {name : List Char}
    (h : MarkedDown events t name) (fleet : Fleet) : (fleet.atTime events t name).Out :=
  out_of_mem_downOf fleet h

/-! ## §2  Events in their order -/

/-- Sorted by their moments, the events up to `t`. -/
theorem filter_of_before {events : List FaultEvent} {e : FaultEvent} {t : ℚ} (ht : t < e.tS) :
    ((events ++ [e]).filter fun event => decide (event.tS ≤ t)) =
      events.filter fun event => decide (event.tS ≤ t) := by
  rw [List.filter_append, List.filter_cons_of_neg (by simpa using ht), List.filter_nil,
    List.append_nil]

theorem filter_of_after {events : List FaultEvent} {e : FaultEvent} {t : ℚ}
    (hsorted : ∀ x ∈ events, x.tS ≤ e.tS) (ht : e.tS ≤ t) :
    ((events ++ [e]).filter fun event => decide (event.tS ≤ t)) = events ++ [e] := by
  refine List.filter_eq_self.mpr fun x hx => decide_eq_true ?_
  rcases List.mem_append.mp hx with hx | hx
  · exact (hsorted x hx).trans ht
  · rw [List.mem_singleton.mp hx]
    exact ht

/-! ## §3  The sweep -/

variable {workers : List (List Char)} {s : OutageState} {events : List FaultEvent}

/-- The whole fleet is in the set. -/
def Full (workers : List (List Char)) (down : Finset (List Char)) : Prop :=
  ∀ name ∈ workers, name ∈ down

theorem full_iff {down : Finset (List Char)} (h : ∀ name ∈ down, name ∈ workers) :
    workers.toFinset.card ≤ down.card ↔ Full workers down := by
  have hsub : down ⊆ workers.toFinset := fun name hname => List.mem_toFinset.mpr (h name hname)
  constructor
  · intro hcard name hname
    rw [Finset.eq_of_subset_of_card_le hsub hcard]
    exact List.mem_toFinset.mpr hname
  · intro hfull
    exact Finset.card_le_card fun name hname => hfull name (List.mem_toFinset.mp hname)

/-- After the events of the loop: what is marked, and the moments at which it was everything. -/
structure Sweep (workers : List (List Char)) (events : List FaultEvent) (s : OutageState) :
    Prop where
  down_eq : s.down = downOf events
  fleet : ∀ name ∈ s.down, name ∈ workers
  started_iff : s.started.isSome = true ↔ Full workers s.down
  agree : ∀ t, (t ∈ covered s.windows ∨ ∃ a ∈ s.started, a ≤ t) ↔
    Full workers (downOf (events.filter fun event => decide (event.tS ≤ t)))
  ends : ∀ bound, (∀ e ∈ events, e.tS ≤ bound) →
    (∀ w ∈ s.windows, w.2 ≤ bound) ∧ ∀ a ∈ s.started, a ≤ bound

theorem Sweep.init (hne : workers ≠ []) : Sweep workers [] {} := by
  have hempty : ¬ Full workers (∅ : Finset (List Char)) := by
    obtain ⟨name, hname⟩ := List.exists_mem_of_ne_nil workers hne
    exact fun h => absurd (h name hname) (Finset.notMem_empty _)
  refine ⟨rfl, fun _ hname => absurd hname (Finset.notMem_empty _),
    iff_of_false Bool.false_ne_true hempty, fun t => iff_of_false ?_ hempty,
    fun _ _ => ⟨fun _ hw => absurd hw List.not_mem_nil, fun _ ha => nomatch ha⟩⟩
  rintro (hcovered | ⟨a, ha, -⟩)
  · rw [covered_nil] at hcovered
    exact hcovered
  · cases ha

/-- The cases of a step: an outage begins, none does, one ends, one goes on. -/
theorem outageStep_cases (h : Sweep workers events s) {e : FaultEvent}
    (hname : e.target ∈ workers) :
    (∀ name ∈ downOf (events ++ [e]), name ∈ workers) ∧
    (s.started = none ∧ Full workers (downOf (events ++ [e])) ∧
        outageStep workers.toFinset.card s e =
          { s with down := downOf (events ++ [e]), started := some e.tS } ∨
      s.started = none ∧ ¬ Full workers (downOf (events ++ [e])) ∧
        outageStep workers.toFinset.card s e = { s with down := downOf (events ++ [e]) } ∨
      ∃ a, s.started = some a ∧
        (¬ Full workers (downOf (events ++ [e])) ∧ outageStep workers.toFinset.card s e =
            ⟨s.windows ++ [(a, e.tS)], downOf (events ++ [e]), none⟩ ∨
          Full workers (downOf (events ++ [e])) ∧ outageStep workers.toFinset.card s e =
            { s with down := downOf (events ++ [e]) })) := by
  have hfleet : ∀ name ∈ downOf (events ++ [e]), name ∈ workers := by
    intro name hmem
    rw [mem_downOf_append] at hmem
    split at hmem
    · rename_i heq
      exact heq ▸ hname
    · exact h.fleet name (h.down_eq ▸ hmem)
  refine ⟨hfleet, ?_⟩
  have hfull := full_iff hfleet
  have hdown : (if e.action.isDown then insert e.target s.down else s.down.erase e.target) =
      downOf (events ++ [e]) := by
    rw [downOf_append, h.down_eq]
  unfold outageStep
  rw [hdown]
  cases hstarted : s.started with
  | none =>
      by_cases hall : Full workers (downOf (events ++ [e]))
      · exact Or.inl ⟨rfl, hall, if_pos (hfull.mpr hall)⟩
      · exact Or.inr (Or.inl ⟨rfl, hall, if_neg fun hle => hall (hfull.mp hle)⟩)
  | some a =>
      refine Or.inr (Or.inr ⟨a, rfl, ?_⟩)
      by_cases hall : Full workers (downOf (events ++ [e]))
      · exact Or.inr ⟨hall, if_neg (not_lt.mpr (hfull.mpr hall))⟩
      · exact Or.inl ⟨hall, if_pos (not_le.mp fun hle => hall (hfull.mp hle))⟩

/-- From what a step does to the loop's state and to the moments before the event, the rest
follows: from the event on, nothing more is known than who is marked. -/
theorem Sweep.of_step {s' : OutageState} {e : FaultEvent} (hsorted : ∀ x ∈ events, x.tS ≤ e.tS)
    (hdown : s'.down = downOf (events ++ [e])) (hfleet : ∀ name ∈ s'.down, name ∈ workers)
    (hstarted : s'.started.isSome = true ↔ Full workers s'.down)
    (hbefore : ∀ t < e.tS, (t ∈ covered s'.windows ∨ ∃ a ∈ s'.started, a ≤ t) ↔
      Full workers (downOf (events.filter fun event => decide (event.tS ≤ t))))
    (hends : (∀ w ∈ s'.windows, w.2 ≤ e.tS) ∧ ∀ a ∈ s'.started, a ≤ e.tS) :
    Sweep workers (events ++ [e]) s' := by
  refine ⟨hdown, hfleet, hstarted, fun t => ?_, fun bound hbound => ?_⟩
  · rcases lt_or_ge t e.tS with ht | ht
    · rw [filter_of_before ht]
      exact hbefore t ht
    · rw [filter_of_after hsorted ht, ← hdown, ← hstarted]
      constructor
      · rintro (hcovered | ⟨a, ha, -⟩)
        · obtain ⟨w, hw, -, hlt⟩ := mem_covered.mp hcovered
          exact absurd (hlt.trans_le (hends.1 w hw)) (not_lt.mpr ht)
        · rw [Option.mem_def.mp ha]
          rfl
      · intro hsome
        obtain ⟨a, ha⟩ := Option.isSome_iff_exists.mp hsome
        exact Or.inr ⟨a, ha, (hends.2 a ha).trans ht⟩
  · have hlast := hbound e (List.mem_append_right _ List.mem_cons_self)
    exact ⟨fun w hw => (hends.1 w hw).trans hlast, fun a ha => (hends.2 a ha).trans hlast⟩

theorem Sweep.step (h : Sweep workers events s) {e : FaultEvent} (hname : e.target ∈ workers)
    (hsorted : ∀ x ∈ events, x.tS ≤ e.tS) :
    Sweep workers (events ++ [e]) (outageStep workers.toFinset.card s e) := by
  obtain ⟨hwindows, hbegun⟩ := h.ends e.tS hsorted
  obtain ⟨hfleet, hcases⟩ := outageStep_cases h hname
  rcases hcases with ⟨hnone, hall, heq⟩ | ⟨hnone, hall, heq⟩ | ⟨a, ha, ⟨hall, heq⟩ | ⟨hall, heq⟩⟩
  · rw [heq]
    refine .of_step hsorted rfl hfleet (iff_of_true rfl hall) (fun t ht => ?_) ⟨hwindows, ?_⟩
    · rw [← h.agree t]
      refine or_congr Iff.rfl (iff_of_false ?_ ?_)
      · rintro ⟨a, ha, hle⟩
        cases ha
        exact absurd ht (not_lt.mpr hle)
      · rw [hnone]
        rintro ⟨a, ha, -⟩
        cases ha
    · intro a ha
      cases ha
      exact le_rfl
  · rw [heq]
    refine .of_step hsorted rfl hfleet (iff_of_false ?_ hall) (fun t _ => h.agree t)
      ⟨hwindows, hbegun⟩
    dsimp only
    rw [hnone]
    exact Bool.false_ne_true
  · rw [heq]
    refine .of_step hsorted rfl hfleet (iff_of_false Bool.false_ne_true hall) (fun t ht => ?_)
      ⟨?_, fun _ hb => nomatch hb⟩
    · rw [← h.agree t, ha, covered_append, covered_singleton]
      constructor
      · rintro ((hcovered | hlast) | ⟨b, hb, -⟩)
        · exact Or.inl hcovered
        · exact Or.inr ⟨a, rfl, hlast.1⟩
        · cases hb
      · rintro (hcovered | ⟨b, hb, hle⟩)
        · exact Or.inl (Or.inl hcovered)
        · cases hb
          exact Or.inl (Or.inr ⟨hle, ht⟩)
    · intro w hw
      rcases List.mem_append.mp hw with hw | hw
      · exact hwindows w hw
      · rw [List.mem_singleton.mp hw]
  · rw [heq]
    refine .of_step hsorted rfl hfleet (iff_of_true ?_ hall) (fun t _ => h.agree t)
      ⟨hwindows, hbegun⟩
    dsimp only
    rw [ha]
    rfl

theorem Sweep.foldl (hne : workers ≠ []) (hnames : ∀ e ∈ events, e.target ∈ workers)
    (hsorted : events.Pairwise fun a b => a.tS ≤ b.tS) :
    Sweep workers events (events.foldl (outageStep workers.toFinset.card) {}) := by
  induction events using List.reverseRecOn with
  | nil => exact .init hne
  | append_singleton events e ih =>
      obtain ⟨hfront, -, hlast⟩ := List.pairwise_append.mp hsorted
      rw [List.foldl_append, List.foldl_cons, List.foldl_nil]
      exact (ih (fun x hx => hnames x (List.mem_append_left _ hx)) hfront).step
        (hnames e (List.mem_append_right _ List.mem_cons_self))
        fun x hx => hlast x hx e List.mem_cons_self

/-! ## §4  The timeline -/

/-- A timeline: ordered as `events` orders it, over the replicas of the fleet. -/
structure Timeline (workers : List (List Char)) (events : List FaultEvent) : Prop where
  workers_ne : workers ≠ []
  ordered : events.Pairwise fun a b => toLex (a.tS, toLex (a.action.order, a.target)) ≤
    toLex (b.tS, toLex (b.action.order, b.target))
  targets : ∀ e ∈ events, e.target ∈ workers

theorem Timeline.outage_ordered (h : Timeline workers events) :
    events.Pairwise fun a b => toLex (a.tS, a.action.order) ≤ toLex (b.tS, b.action.order) := by
  refine h.ordered.imp fun {a b} hab => Prod.Lex.toLex_le_toLex.mpr ?_
  rcases Prod.Lex.toLex_le_toLex.mp hab with hlt | ⟨heq, hle⟩
  · exact Or.inl hlt
  · refine Or.inr ⟨heq, ?_⟩
    rcases Prod.Lex.toLex_le_toLex.mp hle with hlt | ⟨heq', -⟩
    · exact hlt.le
    · exact heq'.le

theorem Timeline.moments (h : Timeline workers events) :
    events.Pairwise fun a b => a.tS ≤ b.tS := by
  refine h.ordered.imp fun {a b} hab => ?_
  rcases Prod.Lex.toLex_le_toLex.mp hab with hlt | ⟨heq, -⟩
  · exact hlt.le
  · exact heq.le

/-- The target of an event: the one asked for, which is known, or one of the fleet. -/
theorem orTarget_mem {target : Option (List Char)} {i : ℕ}
    (hknown : ∀ name ∈ target, name ∈ workers) (hi : i < workers.length) :
    FaultSchedule.orTarget target (workers.getD i []) ∈ workers := by
  have hother : workers.getD i [] ∈ workers := by
    rw [List.getD_eq_getElem _ _ hi]
    exact List.getElem_mem hi
  match target, hknown with
  | none, _ => exact hother
  | some [], _ => exact hother
  | some (c :: cs), hknown => exact hknown _ rfl

/-- The occurrences counted ahead are all of them: more fuel adds no event. -/
theorem killLoop_enough {f : FaultFields ℚ} {everyS durationS moment : ℚ}
    {offset fuel occurrence : ℕ} (hevery : 0 < everyS)
    (hfuel : ⌈(durationS - moment) / everyS⌉₊ ≤ fuel) :
    FaultSchedule.killLoop f everyS durationS workers offset fuel occurrence moment =
      FaultSchedule.killLoop f everyS durationS workers offset
        ⌈(durationS - moment) / everyS⌉₊ occurrence moment := by
  induction fuel generalizing occurrence moment with
  | zero => rw [Nat.le_zero.mp hfuel]
  | succ fuel ih =>
      by_cases hmore : moment < durationS
      · have hnext : ⌈(durationS - moment) / everyS⌉₊ =
            ⌈(durationS - (moment + everyS)) / everyS⌉₊ + 1 := by
          have hone : (durationS - (moment + everyS)) / everyS =
              (durationS - moment) / everyS - 1 := by
            field_simp
            ring
          have hpos : 0 < ⌈(durationS - moment) / everyS⌉₊ :=
            Nat.ceil_pos.mpr (div_pos (sub_pos.mpr hmore) hevery)
          rw [hone, Nat.ceil_sub_one]
          omega
        rw [hnext, FaultSchedule.killLoop, FaultSchedule.killLoop, if_pos hmore, if_pos hmore,
          ih (by omega)]
      · have hnone : ⌈(durationS - moment) / everyS⌉₊ = 0 :=
          Nat.ceil_eq_zero.mpr (div_nonpos_of_nonpos_of_nonneg
            (sub_nonpos.mpr (not_lt.mp hmore)) hevery.le)
        rw [hnone, FaultSchedule.killLoop, FaultSchedule.killLoop, if_neg hmore]

theorem killLoop_targets {f : FaultFields ℚ} {everyS durationS moment : ℚ}
    {offset fuel occurrence : ℕ} (hne : workers ≠ [])
    (hknown : ∀ name ∈ f.target, name ∈ workers) :
    ∀ e ∈ FaultSchedule.killLoop f everyS durationS workers offset fuel occurrence moment,
      e.target ∈ workers := by
  induction fuel generalizing occurrence moment with
  | zero => exact fun e he => absurd he List.not_mem_nil
  | succ fuel ih =>
      intro e he
      rw [FaultSchedule.killLoop] at he
      split at he
      · rcases List.mem_append.mp he with he | he
        · have htarget := @orTarget_mem workers f.target ((offset + occurrence) % workers.length)
            hknown (Nat.mod_lt _ (List.length_pos_of_ne_nil hne))
          unfold FaultSchedule.killOnce at he
          dsimp only at he
          generalize FaultSchedule.orTarget f.target _ = target at he htarget
          rcases List.mem_append.mp he with he | he
          · split at he
            · rw [List.mem_singleton.mp he]
              exact htarget
            · exact absurd he List.not_mem_nil
          · rcases List.mem_cons.mp he with rfl | he
            · exact htarget
            · rw [List.mem_singleton.mp he]
              exact htarget
        · exact ih e he
      · exact absurd he List.not_mem_nil

theorem killEvents_targets {f : FaultFields ℚ} {durationS : ℚ} {offset : ℕ} (hne : workers ≠ [])
    (hknown : ∀ name ∈ f.target, name ∈ workers) :
    ∀ e ∈ FaultSchedule.killEvents f durationS workers offset, e.target ∈ workers := by
  unfold FaultSchedule.killEvents
  split
  · exact fun e he => absurd he List.not_mem_nil
  · split
    · exact fun e he => absurd he List.not_mem_nil
    · exact killLoop_targets hne hknown

theorem partitionEvents_targets {f : FaultFields ℚ} {durationS : ℚ} {rng : Generator} {draws : ℕ}
    (hne : workers ≠ []) (hknown : ∀ name ∈ f.target, name ∈ workers) :
    ∀ e ∈ (FaultSchedule.partitionEvents f durationS workers rng draws).1,
      e.target ∈ workers := by
  have htarget := @orTarget_mem workers f.target (rng.randrange draws workers.length) hknown
    (rng.randrange_lt _ _ (List.length_pos_of_ne_nil hne))
  intro e he
  unfold FaultSchedule.partitionEvents at he
  split at he
  · split at he
    · exact absurd he List.not_mem_nil
    · dsimp only at he
      rcases List.mem_cons.mp he with rfl | he
      · exact htarget
      · rw [List.mem_singleton.mp he]
        exact htarget
  · exact absurd he List.not_mem_nil

theorem expand_targets {durationS : ℚ} {rng : Generator} (faults : List (Fault ℚ)) {draws : ℕ}
    {expanded : List FaultEvent} (hne : workers ≠ [])
    (h : FaultSchedule.expand durationS workers rng faults draws = .ok expanded) :
    ∀ e ∈ expanded, e.target ∈ workers := by
  induction faults generalizing draws expanded with
  | nil =>
      cases h
      exact fun e he => absurd he List.not_mem_nil
  | cons f fs ih =>
      rw [FaultSchedule.expand] at h
      split at h
      · cases h
      rename_i hcheck
      have hknown : ∀ name ∈ f.target, name ∈ workers := by
        intro name hname
        by_contra hout
        rw [Option.mem_def.mp hname] at hcheck
        exact hcheck (decide_eq_true hout)
      split at h
      · obtain ⟨rest, hrest, hok⟩ := Lib.bind_ok_iff.mp h
        cases hok
        intro e he
        rcases List.mem_append.mp he with he | he
        · exact killEvents_targets hne hknown e he
        · exact ih hrest e he
      · obtain ⟨rest, hrest, hok⟩ := Lib.bind_ok_iff.mp h
        cases hok
        intro e he
        rcases List.mem_append.mp he with he | he
        · exact partitionEvents_targets hne hknown e he
        · exact ih hrest e he
      · exact ih h

/-- What `events` returns is a timeline. -/
theorem FaultSchedule.timeline {schedule : FaultSchedule ℚ} {durationS : ℚ} {rng : Generator}
    (h : schedule.events durationS workers rng = .ok events) : Timeline workers events := by
  unfold FaultSchedule.events at h
  split at h
  · cases h
  split at h
  · cases h
  rename_i hne
  obtain ⟨expanded, hexpanded, hok⟩ := Lib.bind_ok_iff.mp h
  cases hok
  refine ⟨hne, Lib.pairwise_sortBy _ expanded, fun e he => ?_⟩
  exact expand_targets _ hne hexpanded e (List.mem_mergeSort.mp he)

/-! ## §5  The windows -/

/-- Nothing past the end is of a moment before it. -/
theorem filter_takeWhile {t durationS : ℚ} (hsorted : events.Pairwise fun a b => a.tS ≤ b.tS)
    (ht : t < durationS) :
    ((events.takeWhile fun e => decide (e.tS ≤ durationS)).filter fun e => decide (e.tS ≤ t)) =
      events.filter fun e => decide (e.tS ≤ t) := by
  induction events with
  | nil => rfl
  | cons e events ih =>
      obtain ⟨hfirst, hrest⟩ := List.pairwise_cons.mp hsorted
      by_cases he : e.tS ≤ durationS
      · have hkept : ((e :: events).takeWhile fun e => decide (e.tS ≤ durationS)) =
            e :: events.takeWhile fun e => decide (e.tS ≤ durationS) :=
          List.takeWhile_cons_of_pos (decide_eq_true he)
        rw [hkept, List.filter_cons, List.filter_cons, ih hrest]
      · have hended : ((e :: events).takeWhile fun e => decide (e.tS ≤ durationS)) = [] :=
          List.takeWhile_cons_of_neg (by simpa using he)
        rw [hended, List.filter_nil, eq_comm]
        refine List.filter_eq_nil_iff.mpr fun x hx => ?_
        have hlate : durationS < x.tS := by
          rcases List.mem_cons.mp hx with rfl | hx
          · exact not_le.mp he
          · exact (not_le.mp he).trans_le (hfirst x hx)
        simpa using ht.trans hlate

/-- The windows are the moments at which every replica is marked down. -/
theorem mem_outageWindows_iff (h : Timeline workers events) {t durationS : ℚ}
    (ht : t < durationS) : t ∈ covered (outageWindows events workers durationS) ↔
      ∀ name ∈ workers, MarkedDown events t name := by
  have hsame : events.mergeSort outageBefore = events := Lib.sortBy_of_pairwise h.outage_ordered
  have hfront : (events.takeWhile fun e => decide (e.tS ≤ durationS)).Sublist events :=
    (List.takeWhile_prefix _).sublist
  have hsweep := Sweep.foldl h.workers_ne (fun e he => h.targets e (hfront.subset he))
    (h.moments.sublist hfront)
  have hagree := hsweep.agree t
  rw [filter_takeWhile h.moments ht] at hagree
  unfold outageWindows
  rw [if_neg h.workers_ne, hsame]
  dsimp only
  generalize (events.takeWhile _).foldl (outageStep workers.toFinset.card) {} = s at hagree ⊢
  refine Iff.trans ?_ hagree
  cases s.started with
  | none =>
      refine (or_iff_left ?_).symm
      rintro ⟨a, ha, -⟩
      cases ha
  | some a =>
      rw [covered_append, covered_singleton]
      refine or_congr Iff.rfl ⟨fun hlast => ⟨a, rfl, hlast.1⟩, ?_⟩
      rintro ⟨b, hb, hle⟩
      cases hb
      exact ⟨hle, ht⟩

/-- **The windows are the real outages** if and only if, whenever the whole fleet is out of
service, the last action on each replica took it down. -/
theorem outageWindows_exact_iff {schedule : FaultSchedule ℚ} {durationS : ℚ} {rng : Generator}
    (h : schedule.events durationS workers rng = .ok events) (fleet : Fleet) :
    (∀ t, 0 ≤ t → t < durationS → (t ∈ covered (outageWindows events workers durationS) ↔
        ∀ name ∈ workers, (fleet.atTime events t name).Out)) ↔
      ∀ t, 0 ≤ t → t < durationS → (∀ name ∈ workers, (fleet.atTime events t name).Out) →
        ∀ name ∈ workers, MarkedDown events t name := by
  have htimeline := FaultSchedule.timeline h
  constructor
  · intro hexact t hstart hend hout
    exact (mem_outageWindows_iff htimeline hend).mp ((hexact t hstart hend).mpr hout)
  · intro hmarked t hstart hend
    rw [mem_outageWindows_iff htimeline hend]
    exact ⟨fun hall name hname => (hall name hname).out fleet, hmarked t hstart hend⟩

/-- The events up to a moment come before the others. -/
theorem Timeline.filter_eq_take (h : Timeline workers events) (t : ℚ) :
    ∃ k < events.length + 1,
      events.filter (fun event => decide (event.tS ≤ t)) = events.take k := by
  have hmoments := h.moments
  clear h
  induction events with
  | nil => exact ⟨0, Nat.one_pos, rfl⟩
  | cons e events ih =>
      obtain ⟨hfirst, hrest⟩ := List.pairwise_cons.mp hmoments
      by_cases he : e.tS ≤ t
      · obtain ⟨k, hk, heq⟩ := ih hrest
        refine ⟨k + 1, Nat.succ_lt_succ hk, ?_⟩
        rw [List.filter_cons, if_pos (decide_eq_true he), heq, List.take_succ_cons]
      · refine ⟨0, Nat.succ_pos _, List.filter_eq_nil_iff.mpr fun x hx hle => ?_⟩
        rcases List.mem_cons.mp hx with rfl | hx
        · exact he (of_decide_eq_true hle)
        · exact he ((hfirst x hx).trans (of_decide_eq_true hle))

/-- The first value every time. -/
def Generator.first : Generator := ⟨fun _ _ => 0, fun _ _ h => h⟩

/-- Of two replicas one is killed at 10 and partitioned from 13 to 17, the other is partitioned
from 11 to 14. -/
def overlapping : FaultSchedule ℚ where
  faults := [
    { kind := .kill, everyS := some 10, restartDelayS := 5, target := some ['a']
      accepted := by decide +kernel },
    { kind := .partition, atS := some 11, forS := some 3, target := some ['b']
      accepted := by decide +kernel },
    { kind := .partition, atS := some 13, forS := some 4, target := some ['a']
      accepted := by decide +kernel }]
  single := by decide +kernel

def overlappingEvents : List FaultEvent :=
  [⟨10, .kill, ['a'], .kill⟩, ⟨11, .partitionStart, ['b'], .partition⟩,
    ⟨13, .partitionStart, ['a'], .partition⟩, ⟨14, .partitionEnd, ['b'], .partition⟩,
    ⟨15, .restart, ['a'], .kill⟩, ⟨17, .partitionEnd, ['a'], .partition⟩]

theorem overlapping_events :
    overlapping.events 19 [['a'], ['b']] .first = .ok overlappingEvents := by
  have hexpand : FaultSchedule.expand 19 [['a'], ['b']] .first overlapping.faults 0 =
      .ok [⟨10, .kill, ['a'], .kill⟩, ⟨15, .restart, ['a'], .kill⟩,
        ⟨11, .partitionStart, ['b'], .partition⟩, ⟨14, .partitionEnd, ['b'], .partition⟩,
        ⟨13, .partitionStart, ['a'], .partition⟩, ⟨17, .partitionEnd, ['a'], .partition⟩] := by
    decide +kernel
  rw [FaultSchedule.events, if_neg (by decide +kernel), if_neg (by decide), hexpand]
  refine congrArg Except.ok (Lib.sortBy_of_perm (by decide +kernel) ?_)
  decide +kernel

/-- After any number of its events, a fleet that is out is marked down. -/
theorem overlapping_marked : ∀ k < 7,
    (∀ name ∈ [['a'], ['b']],
      ((overlappingEvents.take k).foldl Fleet.perform .created name).Out) →
    ∀ name ∈ [['a'], ['b']], name ∈ downOf (overlappingEvents.take k) := by
  unfold InProcessWorker.Out
  decide +kernel

/-- The fleet is out at 12. At 16 the first replica still is, after its restart, but the other one
serves. -/
theorem outageWindows_exact_overlapping :
    overlapping.events 19 [['a'], ['b']] .first = .ok overlappingEvents ∧
      12 ∈ covered (outageWindows overlappingEvents [['a'], ['b']] 19) ∧
      (Fleet.created.atTime overlappingEvents 16 ['a']).Out ∧
      16 ∉ covered (outageWindows overlappingEvents [['a'], ['b']] 19) := by
  have hexact := (outageWindows_exact_iff overlapping_events .created).mpr fun t _ _ hout => by
    obtain ⟨k, hk, hevents⟩ := (FaultSchedule.timeline overlapping_events).filter_eq_take t
    unfold Fleet.atTime at hout
    unfold MarkedDown
    rw [hevents] at hout ⊢
    exact overlapping_marked k hk hout
  have hout : ∀ name ∈ [['a'], ['b']], (Fleet.created.atTime overlappingEvents 12 name).Out := by
    unfold InProcessWorker.Out
    decide +kernel
  have hserves : ¬ (Fleet.created.atTime overlappingEvents 16 ['b']).Out := by
    unfold InProcessWorker.Out
    decide +kernel
  refine ⟨overlapping_events, ?_, Or.inr (Or.inr (by decide +kernel)), fun hcovered => ?_⟩
  · exact (hexact 12 (by norm_num) (by norm_num)).mpr hout
  · refine hserves ((hexact 16 (by norm_num) (by norm_num)).mp hcovered ['b'] ?_)
    exact List.mem_cons_of_mem _ (List.mem_singleton_self _)

/-- The only replica of a fleet, killed at 10 and partitioned from 11 to 13. -/
def killedAndPartitioned : FaultSchedule ℚ where
  faults := [
    { kind := .kill, everyS := some 10, restartDelayS := 5, accepted := by decide +kernel },
    { kind := .partition, atS := some 11, forS := some 2, accepted := by decide +kernel }]
  single := by decide +kernel

/-- Its timeline over the one replica. -/
def killedAndPartitionedEvents : List FaultEvent :=
  [⟨10, .kill, ['a'], .kill⟩, ⟨11, .partitionStart, ['a'], .partition⟩,
    ⟨13, .partitionEnd, ['a'], .partition⟩, ⟨15, .restart, ['a'], .kill⟩]

theorem killedAndPartitioned_events :
    killedAndPartitioned.events 20 [['a']] .first = .ok killedAndPartitionedEvents := by
  have hexpand : FaultSchedule.expand 20 [['a']] .first killedAndPartitioned.faults 0 =
      .ok [⟨10, .kill, ['a'], .kill⟩, ⟨15, .restart, ['a'], .kill⟩,
        ⟨11, .partitionStart, ['a'], .partition⟩, ⟨13, .partitionEnd, ['a'], .partition⟩] := by
    decide +kernel
  rw [FaultSchedule.events, if_neg (by decide +kernel), if_neg (by decide), hexpand]
  refine congrArg Except.ok (Lib.sortBy_of_perm (by decide +kernel) ?_)
  decide +kernel

/-- At 14 the replica is still down from the kill, but the window ended with the partition. -/
theorem outage_ends_early :
    killedAndPartitioned.events 20 [['a']] .first = .ok killedAndPartitionedEvents ∧
      14 ∉ covered (outageWindows killedAndPartitionedEvents [['a']] 20) ∧
      ∀ name ∈ [['a']], (Fleet.created.atTime killedAndPartitionedEvents 14 name).Out := by
  have htimeline := FaultSchedule.timeline killedAndPartitioned_events
  refine ⟨killedAndPartitioned_events, ?_, ?_⟩
  · rw [mem_outageWindows_iff htimeline (by norm_num)]
    unfold MarkedDown
    decide +kernel
  · intro name hname
    rw [List.mem_singleton.mp hname]
    refine Or.inl ?_
    decide +kernel

end TurboServe.Chaos
