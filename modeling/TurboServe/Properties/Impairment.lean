import TurboServe.Properties.Outages
import TurboServe.Properties.Windows

/-!
# Impaired windows cover the impairments

A disruption is open on a replica from the first action that takes it down until the first that
brings it back. If the replica stays out for another reason, its window still covers it until
the replica completes a request again, which a replica out of service can do only for a stream
it had begun before.
-/

namespace TurboServe.Chaos

open Lib
open TurboServe.Bench (RequestRecord)

variable {fleet : Fleet} {events : List FaultEvent} {s : Driving} {e : FaultEvent}

/-! ## §1  What one action does to the books -/

/-- The bounds of a disruption are the same. -/
structure Disruption.Same (d d' : Disruption) : Prop where
  target : d'.target = d.target
  startedS : d'.startedS = d.startedS
  restoredS : d'.restoredS = d.restoredS

theorem Disruption.Same.refl (d : Disruption) : d.Same d := ⟨rfl, rfl, rfl⟩

/-- An open disruption of its target. -/
structure Disruption.OpenOn (d : Disruption) (target : List Char) (nowS : ℚ) : Prop where
  target : d.target = target
  restoredS : d.restoredS = none
  startedS : d.startedS ≤ nowS

/-- The disruption `begin` opens or finds, and the others as they were. -/
theorem begin_spec (hopen : ∀ i, s.openByTarget e.target = some i →
      ∃ d, s.disruptions[i]? = some d ∧ d.OpenOn e.target e.tS) :
    (s.begin e e.tS).2.fleet = s.fleet ∧
    (s.begin e e.tS).2.openByTarget =
      Function.update s.openByTarget e.target (some (s.begin e e.tS).1) ∧
    (∃ d, (s.begin e e.tS).2.disruptions[(s.begin e e.tS).1]? = some d ∧
      d.OpenOn e.target e.tS) ∧
    ∀ (j : ℕ) (d : Disruption), s.disruptions[j]? = some d →
      (s.begin e e.tS).2.disruptions[j]? = some d := by
  unfold Driving.begin
  cases hi : s.openByTarget e.target with
  | some i =>
      have hsame : Function.update s.openByTarget e.target (some i) = s.openByTarget := by
        rw [← hi, Function.update_eq_self]
      exact ⟨rfl, hsame.symm, hopen i hi, fun _ _ h => h⟩
  | none =>
      refine ⟨rfl, rfl, ⟨_, List.getElem?_concat_length, ⟨rfl, rfl, le_rfl⟩⟩, fun j d hj => ?_⟩
      rw [List.getElem?_append_left (List.getElem?_eq_some_iff.mp hj).1]
      exact hj

theorem apply_down (hdown : e.action.isDown = true)
    (hopen : ∀ i, s.openByTarget e.target = some i →
      ∃ d, s.disruptions[i]? = some d ∧ d.OpenOn e.target e.tS) :
    (s.apply e).fleet = s.fleet.perform e ∧
    ∃ i, (s.apply e).openByTarget = Function.update s.openByTarget e.target (some i) ∧
      (∃ d, (s.apply e).disruptions[i]? = some d ∧ d.OpenOn e.target e.tS) ∧
      ∀ (j : ℕ) (d : Disruption), s.disruptions[j]? = some d →
        ∃ d', (s.apply e).disruptions[j]? = some d' ∧ d.Same d' := by
  obtain ⟨hfleet, hopen', ⟨d, hd, hon⟩, hkept⟩ := begin_spec hopen
  have hplain : (s.begin e e.tS).2.fleet.perform e = s.fleet.perform e := by rw [hfleet]
  unfold Driving.apply
  cases haction : e.action with
  | drain => exact ⟨hplain, _, hopen', ⟨d, hd, hon⟩, fun j x hx => ⟨x, hkept j x hx, .refl x⟩⟩
  | partitionStart =>
      exact ⟨hplain, _, hopen', ⟨d, hd, hon⟩, fun j x hx => ⟨x, hkept j x hx, .refl x⟩⟩
  | kill =>
      refine ⟨hplain, _, hopen', ⟨{ d with killedS := some e.tS }, ?_, ⟨hon.target, hon.restoredS,
        hon.startedS⟩⟩, fun j x hx => ?_⟩
      · dsimp only
        rw [List.getElem?_modify, hd]
        simp only [if_true]
        rfl
      · dsimp only
        rw [List.getElem?_modify, hkept j x hx]
        by_cases hj : (s.begin e e.tS).1 = j
        · simp only [if_pos hj]
          exact ⟨_, rfl, ⟨rfl, rfl, rfl⟩⟩
        · simp only [if_neg hj]
          exact ⟨_, rfl, .refl x⟩
  | restart => rw [haction] at hdown; cases hdown
  | partitionEnd => rw [haction] at hdown; cases hdown

theorem apply_up (hup : e.action.isDown = false) :
    (s.apply e).fleet = s.fleet.perform e ∧
    (s.apply e).openByTarget = Function.update s.openByTarget e.target none ∧
    ∀ (j : ℕ) (d : Disruption), s.disruptions[j]? = some d →
      ∃ d', (s.apply e).disruptions[j]? = some d' ∧
        (s.openByTarget e.target = some j ∧ d' = { d with restoredS := some e.tS } ∨
          s.openByTarget e.target ≠ some j ∧ d' = d) := by
  have happly : s.apply e =
      ({ s with fleet := s.fleet.perform e } : Driving).restore e.target e.tS := by
    unfold Driving.apply
    cases haction : e.action with
    | drain => rw [haction] at hup; cases hup
    | partitionStart => rw [haction] at hup; cases hup
    | kill => rw [haction] at hup; cases hup
    | restart => rfl
    | partitionEnd => rfl
  rw [happly]
  unfold Driving.restore
  dsimp only
  cases hi : s.openByTarget e.target with
  | none =>
      have hsame : Function.update s.openByTarget e.target none = s.openByTarget := by
        rw [← hi, Function.update_eq_self]
      exact ⟨rfl, hsame.symm, fun j d hd => ⟨d, hd, Or.inr ⟨nofun, rfl⟩⟩⟩
  | some i =>
      refine ⟨rfl, rfl, fun j d hd => ?_⟩
      dsimp only
      rw [List.getElem?_modify, hd]
      by_cases hj : i = j
      · simp only [if_pos hj]
        exact ⟨_, rfl, Or.inl ⟨congrArg some hj, rfl⟩⟩
      · simp only [if_neg hj]
        exact ⟨_, rfl, Or.inr ⟨fun h => hj (Option.some_inj.mp h), rfl⟩⟩

/-! ## §2  Out of service without an open disruption -/

/-- The replica was brought back, but it is out for another reason. -/
structure Left (fleet : Fleet) (events : List FaultEvent) (t : ℚ) (name : List Char) : Prop where
  out : (fleet.atTime events t name).Out
  notMarked : ¬ MarkedDown events t name

theorem atTime_before {t : ℚ} (ht : t < e.tS) :
    fleet.atTime (events ++ [e]) t = fleet.atTime events t := by
  unfold Fleet.atTime
  rw [filter_of_before ht]

/-- From the last action on, the state is that after it. -/
theorem atTime_after {t : ℚ} (hsorted : ∀ x ∈ events, x.tS ≤ e.tS) (ht : e.tS ≤ t) :
    fleet.atTime (events ++ [e]) t = (fleet.atTime events t).perform e := by
  have hall : (events.filter fun x => decide (x.tS ≤ t)) = events :=
    List.filter_eq_self.mpr fun x hx => decide_eq_true ((hsorted x hx).trans ht)
  unfold Fleet.atTime
  rw [filter_of_after hsorted ht, hall, List.foldl_append]
  rfl

theorem markedDown_before {t : ℚ} {name : List Char} (ht : t < e.tS) :
    MarkedDown (events ++ [e]) t name ↔ MarkedDown events t name := by
  unfold MarkedDown
  rw [filter_of_before ht]

theorem markedDown_after {t : ℚ} {name : List Char} (hsorted : ∀ x ∈ events, x.tS ≤ e.tS)
    (ht : e.tS ≤ t) : MarkedDown (events ++ [e]) t name ↔
      if e.target = name then e.action.isDown = true else MarkedDown events t name := by
  have hall : (events.filter fun x => decide (x.tS ≤ t)) = events :=
    List.filter_eq_self.mpr fun x hx => decide_eq_true ((hsorted x hx).trans ht)
  unfold MarkedDown
  rw [filter_of_after hsorted ht, hall, mem_downOf_append]

theorem left_before {t : ℚ} {name : List Char} (ht : t < e.tS) :
    Left fleet (events ++ [e]) t name ↔ Left fleet events t name := by
  constructor
  · rintro ⟨hout, hnot⟩
    rw [atTime_before ht] at hout
    rw [markedDown_before ht] at hnot
    exact ⟨hout, hnot⟩
  · rintro ⟨hout, hnot⟩
    refine ⟨?_, ?_⟩
    · rw [atTime_before ht]
      exact hout
    · rw [markedDown_before ht]
      exact hnot

/-- An action on another replica. -/
theorem other_iff {t : ℚ} {name : List Char} (hsorted : ∀ x ∈ events, x.tS ≤ e.tS)
    (hname : e.target ≠ name) :
    fleet.atTime (events ++ [e]) t name = fleet.atTime events t name ∧
      (MarkedDown (events ++ [e]) t name ↔ MarkedDown events t name) := by
  rcases lt_or_ge t e.tS with ht | ht
  · rw [atTime_before ht]
    exact ⟨rfl, markedDown_before ht⟩
  · rw [atTime_after hsorted ht, Fleet.perform_apply, if_neg hname, markedDown_after hsorted ht,
      if_neg hname]
    exact ⟨rfl, Iff.rfl⟩

theorem left_other {t : ℚ} {name : List Char} (hsorted : ∀ x ∈ events, x.tS ≤ e.tS)
    (hname : e.target ≠ name) (h : Left fleet events t name) :
    Left fleet (events ++ [e]) t name := by
  obtain ⟨hstate, hmarked⟩ := @other_iff fleet events e t name hsorted hname
  exact ⟨hstate ▸ h.out, fun hm => h.notMarked (hmarked.mp hm)⟩

/-! ## §3  The books along a timeline -/

/-- The disruption covers the moment `t` of the replica: it is not restored by then, or it was
restored to a replica that stayed out. -/
structure Disruption.Spans (d : Disruption) (fleet : Fleet) (events : List FaultEvent) (t : ℚ)
    (name : List Char) : Prop where
  target : d.target = name
  started : d.startedS ≤ t
  restored : ∀ r ∈ d.restoredS, t < r ∨ ∀ c, r ≤ c → c ≤ t → Left fleet events c name

/-- The open disruptions, and a disruption for every moment of every replica that is out. -/
structure Books (fleet : Fleet) (events : List FaultEvent) (s : Driving) : Prop where
  isOpen : ∀ bound, (∀ x ∈ events, x.tS ≤ bound) → ∀ name i, s.openByTarget name = some i →
    ∃ d, s.disruptions[i]? = some d ∧ d.OpenOn name bound
  spans : ∀ t name, (fleet.atTime events t name).Out →
    ∃ (j : ℕ) (d : Disruption), s.disruptions[j]? = some d ∧ d.Spans fleet events t name

/-- Before the action nothing changes, but that a disruption may now end later. -/
theorem Disruption.Spans.before {d d' : Disruption} {t : ℚ} {name : List Char}
    (h : d.Spans fleet events t name) (ht : t < e.tS)
    (hd : d.Same d' ∨ d' = { d with restoredS := some e.tS }) :
    d'.Spans fleet (events ++ [e]) t name := by
  rcases hd with hsame | rfl
  · refine ⟨hsame.target.trans h.target, hsame.startedS ▸ h.started, fun r hr => ?_⟩
    rw [hsame.restoredS] at hr
    refine (h.restored r hr).imp_right fun hleft c hrc hct => ?_
    exact (left_before (hct.trans_lt ht)).mpr (hleft c hrc hct)
  · refine ⟨h.target, h.started, fun r hr => Or.inl ?_⟩
    cases hr
    exact ht

theorem Books.step_down (h : Books fleet events s) (hsorted : ∀ x ∈ events, x.tS ≤ e.tS)
    (hdown : e.action.isDown = true) : Books fleet (events ++ [e]) (s.apply e) := by
  have hopen := h.isOpen e.tS hsorted
  obtain ⟨-, i, hopen', ⟨d₀, hd₀, hon⟩, hkept⟩ := apply_down hdown (hopen e.target)
  have hbound : ∀ bound, (∀ x ∈ events ++ [e], x.tS ≤ bound) → e.tS ≤ bound := fun bound hb =>
    hb e (List.mem_append_right _ List.mem_cons_self)
  refine ⟨fun bound hb name j hj => ?_, fun t name hout => ?_⟩
  · rw [hopen'] at hj
    by_cases hname : name = e.target
    · rw [hname, Function.update_self] at hj
      cases hj
      exact ⟨d₀, hd₀, ⟨hname ▸ hon.target, hon.restoredS, hon.startedS.trans (hbound bound hb)⟩⟩
    · rw [Function.update_of_ne hname] at hj
      obtain ⟨d, hd, hdon⟩ := hopen name j hj
      obtain ⟨d', hd', hsame⟩ := hkept j d hd
      exact ⟨d', hd', ⟨hsame.target.trans hdon.target, hsame.restoredS.trans hdon.restoredS,
        hsame.startedS ▸ hdon.startedS.trans (hbound bound hb)⟩⟩
  · rcases lt_or_ge t e.tS with ht | ht
    · rw [atTime_before ht] at hout
      obtain ⟨j, d, hd, hspans⟩ := h.spans t name hout
      obtain ⟨d', hd', hsame⟩ := hkept j d hd
      exact ⟨j, d', hd', hspans.before ht (Or.inl hsame)⟩
    · by_cases hname : e.target = name
      · refine ⟨i, d₀, hd₀, ⟨hon.target.trans hname, hon.startedS.trans ht, fun r hr => ?_⟩⟩
        rw [hon.restoredS] at hr
        cases hr
      · rw [(other_iff hsorted hname).1] at hout
        obtain ⟨j, d, hd, hspans⟩ := h.spans t name hout
        obtain ⟨d', hd', hsame⟩ := hkept j d hd
        refine ⟨j, d', hd', ⟨hsame.target.trans hspans.target, hsame.startedS ▸ hspans.started,
          fun r hr => ?_⟩⟩
        rw [hsame.restoredS] at hr
        exact (hspans.restored r hr).imp_right fun hleft c hrc hct =>
          left_other hsorted hname (hleft c hrc hct)

theorem Books.step_up (h : Books fleet events s) (hsorted : ∀ x ∈ events, x.tS ≤ e.tS)
    (hup : e.action.isDown = false) : Books fleet (events ++ [e]) (s.apply e) := by
  have hopen := h.isOpen e.tS hsorted
  obtain ⟨-, hopen', hkept⟩ := apply_up (s := s) hup
  have hbound : ∀ bound, (∀ x ∈ events ++ [e], x.tS ≤ bound) → e.tS ≤ bound := fun bound hb =>
    hb e (List.mem_append_right _ List.mem_cons_self)
  have hleft : ∀ t c, e.tS ≤ t → e.tS ≤ c → (fleet.atTime (events ++ [e]) t e.target).Out →
      Left fleet (events ++ [e]) c e.target := by
    intro t c ht hc hout
    have hsame : fleet.atTime (events ++ [e]) c = fleet.atTime (events ++ [e]) t := by
      unfold Fleet.atTime
      rw [filter_of_after hsorted ht, filter_of_after hsorted hc]
    refine ⟨hsame ▸ hout, ?_⟩
    rw [markedDown_after hsorted hc, if_pos rfl, hup]
    exact Bool.false_ne_true
  have hnotOpen : ∀ (j : ℕ) (d : Disruption) (name : List Char), s.disruptions[j]? = some d →
      d.target = name → e.target ≠ name → s.openByTarget e.target ≠ some j := by
    intro j d name hd htarget hname hj
    obtain ⟨d₁, hd₁, hon⟩ := hopen e.target j hj
    rw [hd] at hd₁
    cases hd₁
    exact hname (hon.target.symm.trans htarget)
  refine ⟨fun bound hb name j hj => ?_, fun t name hout => ?_⟩
  · rw [hopen'] at hj
    by_cases hname : name = e.target
    · rw [hname, Function.update_self] at hj
      cases hj
    · rw [Function.update_of_ne hname] at hj
      obtain ⟨d, hd, hdon⟩ := hopen name j hj
      obtain ⟨d', hd', ⟨hthis, -⟩ | ⟨-, rfl⟩⟩ := hkept j d hd
      · exact absurd hthis (hnotOpen j d name hd hdon.target (Ne.symm hname))
      · exact ⟨d', hd', hdon.target, hdon.restoredS, hdon.startedS.trans (hbound bound hb)⟩
  · rcases lt_or_ge t e.tS with ht | ht
    · rw [atTime_before ht] at hout
      obtain ⟨j, d, hd, hspans⟩ := h.spans t name hout
      obtain ⟨d', hd', ⟨-, heq⟩ | ⟨-, rfl⟩⟩ := hkept j d hd
      · exact ⟨j, d', hd', hspans.before ht (Or.inr heq)⟩
      · exact ⟨j, d', hd', hspans.before ht (Or.inl (.refl d'))⟩
    · by_cases hname : e.target = name
      · subst hname
        cases hi : s.openByTarget e.target with
        | some i =>
            obtain ⟨d, hd, hon⟩ := hopen e.target i hi
            obtain ⟨d', hd', ⟨-, rfl⟩ | ⟨hnot, -⟩⟩ := hkept i d hd
            · refine ⟨i, _, hd', ⟨hon.target, hon.startedS.trans ht, fun r hr => Or.inr ?_⟩⟩
              cases hr
              exact fun c hc _ => hleft t c ht hc hout
            · exact absurd hi hnot
        | none =>
            have hbefore : (fleet.atTime events t e.target).Out := by
              have hnow := hout
              rw [atTime_after hsorted ht, Fleet.perform_apply, if_pos rfl] at hnow
              exact FaultAction.out_of_isUp hup hnow
            obtain ⟨j, d, hd, hspans⟩ := h.spans t e.target hbefore
            obtain ⟨d', hd', ⟨hthis, -⟩ | ⟨-, rfl⟩⟩ := hkept j d hd
            · rw [hi] at hthis
              cases hthis
            · refine ⟨j, d', hd', ⟨hspans.target, hspans.started, fun r hr => ?_⟩⟩
              refine (hspans.restored r hr).imp_right fun hall c hrc hct => ?_
              rcases lt_or_ge c e.tS with hc | hc
              · exact (left_before hc).mpr (hall c hrc hct)
              · exact hleft t c ht hc hout
      · rw [(other_iff hsorted hname).1] at hout
        obtain ⟨j, d, hd, hspans⟩ := h.spans t name hout
        obtain ⟨d', hd', ⟨hthis, -⟩ | ⟨-, rfl⟩⟩ := hkept j d hd
        · exact absurd hthis (hnotOpen j d name hd hspans.target hname)
        · refine ⟨j, d', hd', ⟨hspans.target, hspans.started, fun r hr => ?_⟩⟩
          exact (hspans.restored r hr).imp_right fun hall c hrc hct =>
            left_other hsorted hname (hall c hrc hct)

/-- The books of a whole run, from a fleet that serves. -/
theorem Books.drive (hfleet : ∀ name, ¬ (fleet name).Out)
    (hsorted : events.Pairwise fun a b => a.tS ≤ b.tS) :
    Books fleet events (Driving.drive fleet events) := by
  induction events using List.reverseRecOn with
  | nil =>
      refine ⟨fun _ _ _ _ hi => ?_, fun _ name hout => absurd hout (hfleet name)⟩
      cases hi
  | append_singleton events e ih =>
      obtain ⟨hfront, -, hlast⟩ := List.pairwise_append.mp hsorted
      have hbefore : ∀ x ∈ events, x.tS ≤ e.tS := fun x hx => hlast x hx e List.mem_cons_self
      have hdrive : Driving.drive fleet (events ++ [e]) =
          (Driving.drive fleet events).apply e := by
        unfold Driving.drive
        rw [List.foldl_append]
        rfl
      rw [hdrive]
      cases haction : e.action.isDown with
      | true => exact (ih hfront).step_down hbefore haction
      | false => exact (ih hfront).step_up hbefore haction

/-! ## §4  Windows -/

variable {completions : List Completion} {endS : ℚ}

/-- A replica that stays out completes no request successfully. -/
def NoneLeft (fleet : Fleet) (events : List FaultEvent) (completions : List Completion)
    (endS : ℚ) : Prop :=
  ∀ c ∈ completions, c.ok = true → c.tS ≤ endS → ¬ Left fleet events c.tS c.backend

/-- The recovery is a success of the replica, not before it was restored. -/
theorem recover_spec {d : Disruption} {ordered : List Completion} (hnew : d.recoveredS = none) :
    (d.recover ordered endS).startedS = d.startedS ∧
      ∀ t ∈ (d.recover ordered endS).recoveredS, ∃ r ∈ d.restoredS, ∃ c ∈ ordered,
        c.ok = true ∧ c.backend = d.target ∧ r ≤ c.tS ∧ c.tS ≤ endS ∧ c.tS = t := by
  unfold Disruption.recover
  split
  · refine ⟨rfl, fun t ht => ?_⟩
    rw [hnew] at ht
    cases ht
  · rename_i r hr
    split
    · refine ⟨rfl, fun t ht => ?_⟩
      rw [hnew] at ht
      cases ht
    · rename_i c hc
      refine ⟨rfl, fun t ht => ?_⟩
      cases ht
      have hp := List.find?_some hc
      simp only [Bool.and_eq_true, decide_eq_true_iff] at hp
      obtain ⟨⟨⟨hok, hbackend⟩, hfloor⟩, hend⟩ := hp
      exact ⟨r, hr, c, List.mem_of_find?_eq_some hc, hok, hbackend, hfloor, hend, rfl⟩

theorem mem_modify {d : Disruption} {ds : List Disruption} {i : ℕ} {f : Disruption → Disruption}
    (h : d ∈ ds.modify i f) : d ∈ ds ∨ ∃ d' ∈ ds, d = f d' := by
  obtain ⟨j, hj⟩ := List.mem_iff_getElem?.mp h
  rw [List.getElem?_modify] at hj
  obtain ⟨d', hd', heq⟩ := Option.map_eq_some_iff.mp hj
  have hmem : d' ∈ ds := List.mem_of_getElem? hd'
  split at heq
  · exact Or.inr ⟨d', hmem, heq.symm⟩
  · exact Or.inl (heq ▸ hmem)

theorem begin_recovered {nowS : ℚ} (h : ∀ d ∈ s.disruptions, d.recoveredS = none) :
    ∀ d ∈ (s.begin e nowS).2.disruptions, d.recoveredS = none := by
  unfold Driving.begin
  split
  · exact h
  · intro d hd
    rcases List.mem_append.mp hd with hd | hd
    · exact h d hd
    · rw [List.mem_singleton.mp hd]

/-- No action reads off a recovery. -/
theorem apply_recovered (h : ∀ d ∈ s.disruptions, d.recoveredS = none) :
    ∀ d ∈ (s.apply e).disruptions, d.recoveredS = none := by
  have hrestore : ∀ d ∈ (({ s with fleet := s.fleet.perform e } : Driving).restore e.target
      e.tS).disruptions, d.recoveredS = none := by
    unfold Driving.restore
    split
    · exact h
    · intro d hd
      rcases mem_modify hd with hd | ⟨d', hd', rfl⟩
      · exact h d hd
      · exact h d' hd'
  unfold Driving.apply
  cases e.action with
  | drain => exact begin_recovered h
  | partitionStart => exact begin_recovered h
  | kill =>
      intro d hd
      rcases mem_modify hd with hd | ⟨d', hd', rfl⟩
      · exact begin_recovered h d hd
      · exact begin_recovered h d' hd'
  | restart => exact hrestore
  | partitionEnd => exact hrestore

theorem drive_recovered :
    ∀ d ∈ (Driving.drive fleet events).disruptions, d.recoveredS = none := by
  induction events using List.reverseRecOn with
  | nil => exact fun d hd => absurd hd List.not_mem_nil
  | append_singleton events e ih =>
      unfold Driving.drive
      rw [List.foldl_append]
      exact apply_recovered ih

/-- A disruption that spans a moment covers it, when nothing it left out completes. -/
theorem Disruption.Spans.mem_window {d : Disruption} {t : ℚ} {name : List Char}
    (h : d.Spans fleet events t name) (hnew : d.recoveredS = none) (ht : t < endS)
    (hnone : NoneLeft fleet events completions endS) :
    let w := (d.recover (completions.mergeSort fun a b => decide (a.tS ≤ b.tS)) endS).window endS
    w.1 ≤ t ∧ t < w.2 := by
  obtain ⟨hstart, hrecovered⟩ := @recover_spec endS d
    (completions.mergeSort fun a b => decide (a.tS ≤ b.tS)) hnew
  generalize d.recover (completions.mergeSort fun a b => decide (a.tS ≤ b.tS)) endS = d'
    at hstart hrecovered
  have hfirst : d'.startedS ≤ t := by
    rw [hstart]
    exact h.started
  refine ⟨hfirst, lt_max_of_lt_right ?_⟩
  cases hrec : d'.recoveredS with
  | none => exact ht
  | some t' =>
      obtain ⟨r, hr, c, hc, hok, hbackend, hfloor, hend, rfl⟩ := hrecovered t' hrec
      rcases h.restored r hr with hlate | hleft
      · exact hlate.trans_le hfloor
      · by_contra hle
        have hgone := hleft c.tS hfloor (not_lt.mp hle)
        rw [← h.target, ← hbackend] at hgone
        exact hnone c (List.mem_mergeSort.mp hc) hok hend hgone

/-- **Impaired windows cover every impairment** of a run in which no replica completes a request
successfully while it stays out of service after having been brought back: no request is sent
in the steady state while a replica is out. -/
theorem impairedWindows_cover (hfleet : ∀ name, ¬ (fleet name).Out)
    (hsorted : events.Pairwise fun a b => a.tS ≤ b.tS)
    (hnone : NoneLeft fleet events completions endS) :
    (∀ t < endS, ∀ name, (fleet.atTime events t name).Out →
        t ∈ covered (impairedWindows fleet events completions endS)) ∧
      ∀ (seconds : ℤ → ℚ) (records : List RequestRecord) (t0Ns : ℤ),
        ∀ r ∈ (splitByWindows seconds records
            (impairedWindows fleet events completions endS) t0Ns).2,
          seconds (r.tSendNs - t0Ns) < endS →
            ∀ name, ¬ (fleet.atTime events (seconds (r.tSendNs - t0Ns)) name).Out := by
  have hcover : ∀ t < endS, ∀ name, (fleet.atTime events t name).Out →
      t ∈ covered (impairedWindows fleet events completions endS) := by
    intro t ht name hout
    obtain ⟨j, d, hd, hspans⟩ := (Books.drive hfleet hsorted).spans t name hout
    have hmem : d ∈ (Driving.drive fleet events).disruptions := List.mem_of_getElem? hd
    have hwindow := hspans.mem_window (drive_recovered d hmem) ht hnone
    unfold impairedWindows
    rw [(mergeWindows_spec _).2, mem_covered]
    unfold attributeRecoveries
    exact ⟨_, List.mem_map_of_mem (List.mem_map_of_mem hmem), hwindow⟩
  refine ⟨hcover, fun seconds records t0Ns r hr hend name hout => ?_⟩
  exact (splitByWindows_spec seconds records _ t0Ns).outside r hr (hcover _ hend name hout)

theorem created_serves (name : List Char) : ¬ (Fleet.created name).Out := by
  unfold InProcessWorker.Out Fleet.created
  decide

/-- Successes of either replica while it serves, one of a partitioned replica whose last action
was the partition, and a failure of one that is out. -/
def overlappingCompletions : List Completion :=
  [⟨18, ['a'], true⟩, ⟨12, ['b'], true⟩, ⟨16, ['a'], false⟩, ⟨29 / 2, ['b'], true⟩]

/-- One replica is killed and partitioned at once, the other partitioned meanwhile: the window
stays open at 16, after the restart. -/
theorem impairedWindows_cover_overlapping :
    (Fleet.created.atTime overlappingEvents 12 ['b']).Out ∧
      (12 : ℚ) ∈ covered (impairedWindows .created overlappingEvents overlappingCompletions 30) ∧
      (Fleet.created.atTime overlappingEvents 16 ['a']).Out ∧
      (16 : ℚ) ∈ covered (impairedWindows .created overlappingEvents overlappingCompletions 30) ∧
      ∀ (seconds : ℤ → ℚ) (records : List RequestRecord) (t0Ns : ℤ),
        ∀ r ∈ (splitByWindows seconds records (impairedWindows .created overlappingEvents
            overlappingCompletions 30) t0Ns).2,
          seconds (r.tSendNs - t0Ns) < 30 →
            ∀ name, ¬ (Fleet.created.atTime overlappingEvents
              (seconds (r.tSendNs - t0Ns)) name).Out := by
  have hnone : NoneLeft .created overlappingEvents overlappingCompletions 30 := by
    have hall : ∀ c ∈ overlappingCompletions, c.ok = true →
        (Fleet.created.atTime overlappingEvents c.tS c.backend).Out →
          MarkedDown overlappingEvents c.tS c.backend := by
      unfold InProcessWorker.Out MarkedDown
      decide +kernel
    exact fun c hc hok _ hleft => hleft.notMarked (hall c hc hok hleft.out)
  obtain ⟨hcover, hsteady⟩ := impairedWindows_cover created_serves
    (FaultSchedule.timeline overlapping_events).moments hnone
  have htwelve : (Fleet.created.atTime overlappingEvents 12 ['b']).Out := by
    unfold InProcessWorker.Out
    decide +kernel
  have hsixteen : (Fleet.created.atTime overlappingEvents 16 ['a']).Out := by
    unfold InProcessWorker.Out
    decide +kernel
  exact ⟨htwelve, hcover 12 (by norm_num) _ htwelve, hsixteen, hcover 16 (by norm_num) _ hsixteen,
    hsteady⟩

/-- A replica that drains from 10 to 15 and is partitioned from 11 to 12. -/
def drainedAndPartitioned : FaultSchedule ℚ where
  faults := [
    { kind := .kill, everyS := some 10, graceS := 5, accepted := by decide +kernel },
    { kind := .partition, atS := some 11, forS := some 1, accepted := by decide +kernel }]
  single := by decide +kernel

def drainedAndPartitionedEvents : List FaultEvent :=
  [⟨10, .drain, ['a'], .kill⟩, ⟨11, .partitionStart, ['a'], .partition⟩,
    ⟨12, .partitionEnd, ['a'], .partition⟩, ⟨15, .kill, ['a'], .kill⟩,
    ⟨17, .restart, ['a'], .kill⟩]

/-- A stream that began at 9.9, before the drain, ends well at 12.9: the disruption the end of
the partition closed counts as recovered, and at 14 the replica drains in the steady state. -/
theorem drain_uncovered :
    drainedAndPartitioned.events 20 [['a']] .first = .ok drainedAndPartitionedEvents ∧
      ¬ (Fleet.created.atTime drainedAndPartitionedEvents (99 / 10) ['a']).Out ∧
      (Fleet.created.atTime drainedAndPartitionedEvents (129 / 10) ['a']).backend.alive = true ∧
      (Fleet.created.atTime drainedAndPartitionedEvents (129 / 10) ['a']).backend.generation =
        (Fleet.created.atTime drainedAndPartitionedEvents (99 / 10) ['a']).backend.generation ∧
      (Fleet.created.atTime drainedAndPartitionedEvents 14 ['a']).Out ∧
      14 ∉ covered (impairedWindows .created drainedAndPartitionedEvents
        [⟨129 / 10, ['a'], true⟩] 30) := by
  have hexpand : FaultSchedule.expand 20 [['a']] .first drainedAndPartitioned.faults 0 =
      .ok [⟨10, .drain, ['a'], .kill⟩, ⟨15, .kill, ['a'], .kill⟩, ⟨17, .restart, ['a'], .kill⟩,
        ⟨11, .partitionStart, ['a'], .partition⟩, ⟨12, .partitionEnd, ['a'], .partition⟩] := by
    decide +kernel
  refine ⟨?_, ?_, by decide +kernel, by decide +kernel, ?_, ?_⟩
  · rw [FaultSchedule.events, if_neg (by decide +kernel), if_neg (by decide), hexpand]
    refine congrArg Except.ok (Lib.sortBy_of_perm (by decide +kernel) ?_)
    decide +kernel
  · unfold InProcessWorker.Out
    decide +kernel
  · unfold InProcessWorker.Out
    decide +kernel
  · unfold impairedWindows
    rw [(mergeWindows_spec _).2, mem_covered]
    unfold attributeRecoveries
    rw [List.mergeSort_singleton]
    decide +kernel

end TurboServe.Chaos
