import TurboServe.Gateway.LocalEngine

/-!
# One engine, and closed

However `generate` and `close` interleave, one engine is built and `close` closes it, as
long as no load ends after `close`.
-/

namespace TurboServe.Gateway

open TurboServe.Lib

/-- The engine a call is at. -/
def Phase.engine : Phase → Option ℕ
  | .starting e | .restarting e | .storing e | .generating e => some e
  | _ => none

/-- The call is building an engine, or has built it and not stored it. -/
def Phase.builds : Phase → Bool
  | .loading | .storing _ => true
  | _ => false

namespace LocalEngine

/-! ## §1  What is promised -/

structure Safe (s : LocalEngine) : Prop where
  one : s.engines.length ≤ 1
  refuses : ∀ x ∈ s.starts, x.afterClose = false
  released : s.closeReturned = true → (∀ c ∈ s.calls, c = .ended) → s.closing = [] →
    ∀ e ∈ s.engines, e = .closed

/-- No load ends with an engine once the backend is closed, and it is not closed while a
new engine is being started. -/
def Orderly (s : LocalEngine) : Input → Prop
  | .loaded i true => s.calls[i]? = some .loading → s.closed = false
  | .close => s.closed = false → ∀ e, .storing e ∉ s.calls
  | _ => True

/-! ## §2  The lock -/

variable {s : LocalEngine} {i : ℕ} {c x : Phase}

/-- At most one call holds the lock, and then it is locked. -/
def Exclusive (s : LocalEngine) : Prop :=
  s.calls.countP Phase.holds = if s.locked then 1 else 0

theorem countP_goTo (hi : s.calls[i]? = some c) :
    (s.calls.set i x).countP Phase.holds + (if c.holds then 1 else 0) =
      s.calls.countP Phase.holds + if x.holds then 1 else 0 := by
  obtain ⟨hlt, rfl⟩ := List.getElem?_eq_some_iff.mp hi
  rw [List.countP_set hlt]
  have hpos : (if (s.calls[i]).holds then 1 else 0) ≤ s.calls.countP Phase.holds := by
    split
    · next h => exact List.countP_pos_iff.mpr ⟨_, List.getElem_mem hlt, h⟩
    · exact Nat.zero_le _
  omega

/-- While call `i` holds the lock, no other does. -/
theorem Exclusive.others (h : s.Exclusive) (hi : s.calls[i]? = some c)
    (hc : c.holds = true) {d : Phase} (hd : d ∈ s.calls.set i x) :
    d = x ∨ d.holds = false := by
  have hlocked : s.calls.countP Phase.holds ≤ 1 := by
    rw [h]
    split <;> omega
  by_contra hne
  rw [not_or, Bool.not_eq_false] at hne
  have hset := countP_goTo (x := Phase.ended) hi
  rw [if_pos hc] at hset
  have hzero : (s.calls.set i .ended).countP Phase.holds = 0 := by
    simp only [Phase.holds, Bool.false_eq_true, if_false] at hset
    omega
  have hmem : d ∈ s.calls.set i .ended := by
    obtain ⟨j, hj, rfl⟩ := List.mem_iff_getElem.mp hd
    rw [List.length_set] at hj
    have hji : i ≠ j := by
      rintro rfl
      exact hne.1 (by simp)
    rw [List.getElem_set_ne hji]
    exact List.mem_iff_getElem.mpr ⟨j, by rwa [List.length_set], by
      rw [List.getElem_set_ne hji]⟩
  exact absurd hne.2 (by simpa using List.countP_eq_zero.mp hzero d hmem)

theorem Exclusive.free (h : s.Exclusive) (hl : s.locked = false) {d : Phase}
    (hd : d ∈ s.calls) : d.holds = false := by
  rw [Exclusive, hl] at h
  exact Bool.eq_false_iff.mpr (List.countP_eq_zero.mp h d hd)

/-! ## §3  Stages -/

/-- What the engines, the attribute and the calls in flight are at a time. -/
inductive Stage (s : LocalEngine) : Prop where
  | unbuilt (hb : s.engines = []) (he : s.engine = none) (hc : s.closing = [])
  | storing (ho : s.closed = false) (hb : s.engines = [.live]) (he : s.engine = none)
      (hc : s.closing = []) (hs : .storing 0 ∈ s.calls)
  | serving (ho : s.closed = false) (hb : s.engines = [.live]) (he : s.engine = some 0)
      (hc : s.closing = []) (hn : ∀ c ∈ s.calls, c.builds = false)
  | closing (ho : s.closed = true) (hb : s.engines = [.closing]) (he : s.engine = none)
      (hc : s.closing = [0]) (hn : ∀ e, .storing e ∉ s.calls)
  | closed (ho : s.closed = true) (hb : s.engines = [.closed]) (he : s.engine = none)
      (hc : s.closing = []) (hn : ∀ e, .storing e ∉ s.calls)

structure Sound (s : LocalEngine) : Prop where
  exclusive : s.Exclusive
  stage : s.Stage
  refers : ∀ c ∈ s.calls, ∀ e ∈ c.engine, e < s.engines.length
  returned : s.closeReturned = true → s.closed = true
  starts : ∀ x ∈ s.starts, x.afterClose = false

theorem Sound.safe (h : s.Sound) : s.Safe := by
  refine ⟨?_, h.starts, ?_⟩
  · cases h.stage with
    | unbuilt hb => simp [hb]
    | storing _ hb => simp [hb]
    | serving _ hb => simp [hb]
    | closing _ hb => simp [hb]
    | closed _ hb => simp [hb]
  · intro hret hended hnone
    have hclosed := h.returned hret
    cases h.stage with
    | unbuilt hb => simp [hb]
    | storing ho => rw [ho] at hclosed; cases hclosed
    | serving ho => rw [ho] at hclosed; cases hclosed
    | closing _ _ _ hc => rw [hc] at hnone; cases hnone
    | closed _ hb => simp [hb]

/-- A step of a call that builds nothing. -/
theorem Stage.quiet (h : s.Stage) {s' : LocalEngine} (hengines : s'.engines = s.engines)
    (hengine : s'.engine = s.engine) (hclosing : s'.closing = s.closing)
    (hclosed : s'.closed = s.closed) (hkeep : .storing 0 ∈ s.calls → .storing 0 ∈ s'.calls)
    (hnew : ∀ c ∈ s'.calls, c ∈ s.calls ∨ c.builds = false) : s'.Stage := by
  have hn' : (∀ e, .storing e ∉ s.calls) → ∀ e, .storing e ∉ s'.calls := by
    intro hn e he
    rcases hnew _ he with hmem | hb
    · exact hn e hmem
    · cases hb
  cases h with
  | unbuilt hb he hc =>
      exact .unbuilt (hengines.trans hb) (hengine.trans he) (hclosing.trans hc)
  | storing ho hb he hc hs =>
      exact .storing (hclosed.trans ho) (hengines.trans hb) (hengine.trans he)
        (hclosing.trans hc) (hkeep hs)
  | serving ho hb he hc hn =>
      refine .serving (hclosed.trans ho) (hengines.trans hb) (hengine.trans he)
        (hclosing.trans hc) fun c hmem => ?_
      rcases hnew c hmem with hmem | hb
      · exact hn c hmem
      · exact hb
  | closing ho hb he hc hn =>
      exact .closing (hclosed.trans ho) (hengines.trans hb) (hengine.trans he)
        (hclosing.trans hc) (hn' hn)
  | closed ho hb he hc hn =>
      exact .closed (hclosed.trans ho) (hengines.trans hb) (hengine.trans he)
        (hclosing.trans hc) (hn' hn)

/-! ## §4  Steps -/

theorem mem_set_of_ne {d : Phase} (hi : s.calls[i]? = some c) (hd : d ∈ s.calls)
    (hne : d ≠ c) : d ∈ s.calls.set i x := by
  obtain ⟨j, hj⟩ := List.mem_iff_getElem?.mp hd
  have hij : i ≠ j := by
    rintro rfl
    exact hne (Option.some.inj (hj.symm.trans hi))
  refine List.mem_iff_getElem?.mpr ⟨j, ?_⟩
  rw [List.getElem?_set_ne hij, hj]

/-- A call goes from `c` to `x`, neither of which has just built an engine. -/
theorem Sound.goTo (h : s.Sound) (hi : s.calls[i]? = some c) (hc : ∀ e, c ≠ .storing e)
    (hx : x.builds = false) (hxe : ∀ e ∈ x.engine, e < s.engines.length) {locked : Bool}
    (hlock : (if locked then 1 else 0) + (if c.holds then 1 else 0) =
      (if s.locked then 1 else 0) + if x.holds then 1 else 0) :
    Sound { s.goTo i x with locked := locked } := by
  refine ⟨?_, ?_, ?_, h.returned, h.starts⟩
  · have hset := countP_goTo (x := x) hi
    have hold := h.exclusive
    unfold Exclusive at hold ⊢
    change (s.calls.set i x).countP Phase.holds = if locked then 1 else 0
    omega
  · refine h.stage.quiet rfl rfl rfl rfl (fun hs => mem_set_of_ne hi hs (hc 0).symm) ?_
    intro d hd
    rcases List.mem_or_eq_of_mem_set hd with hd | rfl
    · exact Or.inl hd
    · exact Or.inr hx
  · intro d hd
    rcases List.mem_or_eq_of_mem_set hd with hd | rfl
    · exact h.refers d hd
    · exact hxe

/-- A live engine is one that no `close` has reached. -/
theorem Sound.open_of_live (h : s.Sound) {e : ℕ} (he : s.engines[e]? = some .live) :
    s.closed = false := by
  have hmem := List.mem_of_getElem? he
  cases h.stage with
  | unbuilt hb =>
      rw [hb] at hmem
      cases hmem
  | storing ho => exact ho
  | serving ho => exact ho
  | closing _ hb =>
      rw [hb, List.mem_singleton] at hmem
      cases hmem
  | closed _ hb =>
      rw [hb, List.mem_singleton] at hmem
      cases hmem

theorem Sound.generate (h : s.Sound) (hi : s.calls[i]? = some c)
    (hc : ∀ e, c ≠ .storing e) (hfree : c.holds = false) (e : ℕ) : (s.generate i e).Sound := by
  unfold LocalEngine.generate
  split
  · next he =>
      have hlt : e < s.engines.length := (List.getElem?_eq_some_iff.mp he).1
      have hgo : (s.goTo i (.generating e)).Sound :=
        h.goTo hi hc rfl (by rintro _ ⟨rfl⟩; exact hlt) (by rw [hfree]; rfl)
      have hbefore : s.closeReturned = false := by
        cases hret : s.closeReturned with
        | false => rfl
        | true => exact (h.returned hret).symm.trans (h.open_of_live he)
      refine ⟨hgo.exclusive, hgo.stage.quiet rfl rfl rfl rfl id fun d hd => Or.inl hd,
        hgo.refers, hgo.returned, ?_⟩
      intro start hstart
      rcases List.mem_append.mp hstart with hstart | hstart
      · exact h.starts start hstart
      · rw [List.mem_singleton.mp hstart]
        exact hbefore
  · exact h.goTo hi hc rfl (by rintro _ ⟨⟩) (by rw [hfree]; rfl)

theorem generate_goTo (i e : ℕ) (c : Phase) : (s.goTo i c).generate i e = s.generate i e := by
  unfold LocalEngine.generate LocalEngine.goTo
  simp only [List.set_set]

theorem Sound.engine_lt (h : s.Sound) {e : ℕ} (he : s.engine = some e) :
    e < s.engines.length := by
  cases h.stage with
  | unbuilt _ hnone => cases hnone.symm.trans he
  | storing _ _ hnone => cases hnone.symm.trans he
  | serving _ hb hsome =>
      cases hsome.symm.trans he
      simp [hb]
  | closing _ _ hnone => cases hnone.symm.trans he
  | closed _ _ hnone => cases hnone.symm.trans he

/-- A new call. -/
theorem Sound.join (h : s.Sound) (hb : x.builds = false) (hfree : x.holds = false)
    (hxe : ∀ e ∈ x.engine, e < s.engines.length) :
    Sound { s with calls := s.calls ++ [x] } := by
  refine ⟨?_, ?_, ?_, h.returned, h.starts⟩
  · change (s.calls ++ [x]).countP Phase.holds = _
    rw [List.countP_append, h.exclusive, List.countP_singleton, hfree]
    rfl
  · refine h.stage.quiet rfl rfl rfl rfl (List.mem_append_left _) fun d hd => ?_
    rcases List.mem_append.mp hd with hd | hd
    · exact Or.inl hd
    · rw [List.mem_singleton.mp hd]
      exact Or.inr hb
  · intro d hd
    rcases List.mem_append.mp hd with hd | hd
    · exact h.refers d hd
    · rw [List.mem_singleton.mp hd]
      exact hxe

theorem Sound.call (h : s.Sound) : s.call.Sound := by
  unfold LocalEngine.call
  split
  · exact h
  · split
    · next e he =>
        exact h.join rfl rfl (by rintro _ ⟨rfl⟩; exact h.engine_lt he)
    · exact h.join rfl rfl (by rintro _ ⟨⟩)

/-- The lock is free and there is no engine: the call loads one. -/
theorem Sound.load (h : s.Sound) (hi : s.calls[i]? = some .queued)
    (hfree : s.locked = false) (hnone : s.engine = none) :
    Sound { s.goTo i .loading with locked := true } := by
  have hidle : ∀ e, .storing e ∉ s.calls := fun e he => nomatch h.exclusive.free hfree he
  have hidle' : ∀ e, .storing e ∉ s.calls.set i .loading := by
    intro e he
    rcases List.mem_or_eq_of_mem_set he with he | he
    · exact hidle e he
    · cases he
  refine ⟨?_, ?_, ?_, h.returned, h.starts⟩
  · have hset := countP_goTo (x := .loading) hi
    have hold := h.exclusive
    rw [Exclusive, hfree] at hold
    rw [hold] at hset
    exact hset
  · cases h.stage with
    | unbuilt hb he hc => exact .unbuilt hb he hc
    | storing _ _ _ _ hs => exact absurd hs (hidle 0)
    | serving _ _ he => cases hnone.symm.trans he
    | closing ho hb he hc => exact .closing ho hb he hc hidle'
    | closed ho hb he hc => exact .closed ho hb he hc hidle'
  · intro d hd
    rcases List.mem_or_eq_of_mem_set hd with hd | rfl
    · exact h.refers d hd
    · rintro _ ⟨⟩

theorem Sound.acquire (h : s.Sound) (i : ℕ) : (s.acquire i).Sound := by
  unfold LocalEngine.acquire
  split
  · next hcond =>
      obtain ⟨hi, hfree⟩ := hcond
      split
      · next e he =>
          exact h.goTo hi nofun rfl (by rintro _ ⟨rfl⟩; exact h.engine_lt he)
            (by rw [hfree]; rfl)
      · next he => exact h.load hi hfree he
  · exact h

/-- A call that holds the lock has locked it. -/
theorem Exclusive.locked (h : s.Exclusive) (hi : s.calls[i]? = some c)
    (hc : c.holds = true) : s.locked = true := by
  cases hl : s.locked with
  | true => rfl
  | false => exact absurd hc (by simp [h.free hl (List.mem_of_getElem? hi)])

/-- The load of an open backend ends with an engine. -/
theorem Sound.store (h : s.Sound) (hi : s.calls[i]? = some .loading)
    (hopen : s.closed = false) :
    Sound { s.goTo i (.storing s.engines.length) with engines := s.engines ++ [.live] } := by
  have hlocked := h.exclusive.locked hi rfl
  have hmem := List.mem_of_getElem? hi
  -- the only stage with a load in flight and no `close`
  obtain ⟨hb, he, hc⟩ : s.engines = [] ∧ s.engine = none ∧ s.closing = [] := by
    cases h.stage with
    | unbuilt hb he hc => exact ⟨hb, he, hc⟩
    | storing _ _ _ _ hs =>
        have hother : Phase.storing 0 ∈ s.calls.set i .ended := mem_set_of_ne hi hs nofun
        rcases h.exclusive.others hi rfl hother with heq | hfree
        · cases heq
        · cases hfree
    | serving _ _ _ _ hn => cases hn _ hmem
    | closing ho => cases hopen.symm.trans ho
    | closed ho => cases hopen.symm.trans ho
  have hlt : i < s.calls.length := (List.getElem?_eq_some_iff.mp hi).1
  refine ⟨?_, ?_, ?_, h.returned, h.starts⟩
  · have hset := countP_goTo (x := .storing s.engines.length) hi
    exact (Nat.add_right_cancel hset).trans h.exclusive
  · refine .storing hopen ?_ he hc ?_
    · change s.engines ++ [_] = _
      rw [hb]
      rfl
    · change Phase.storing 0 ∈ s.calls.set i (.storing s.engines.length)
      rw [hb]
      exact List.mem_set hlt _
  · intro d hd e hde
    change e < (s.engines ++ [_]).length
    rw [List.length_append, List.length_singleton]
    rcases List.mem_or_eq_of_mem_set hd with hd | rfl
    · exact Nat.lt_succ_of_lt (h.refers d hd e hde)
    · obtain rfl := Option.some.inj hde
      exact Nat.lt_succ_self _

theorem Sound.loaded (h : s.Sound) {ok : Bool}
    (horderly : ok = true → s.calls[i]? = some .loading → s.closed = false) :
    (s.loaded i ok).Sound := by
  unfold LocalEngine.loaded
  split
  · next hi =>
      cases ok with
      | false =>
          exact h.goTo hi nofun rfl (by rintro _ ⟨⟩)
            (by rw [h.exclusive.locked hi rfl]; rfl)
      | true => exact h.store hi (horderly rfl hi)
  · exact h

/-- The engine that a call has built becomes the backend's, and the lock is free. -/
theorem Sound.stored (h : s.Sound) {e : ℕ} (hi : s.calls[i]? = some (.storing e)) :
    Sound { (s.goTo i (.starting e)).unlock with engine := some e } := by
  have hlocked := h.exclusive.locked hi rfl
  have hmem := List.mem_of_getElem? hi
  have hlt : e < s.engines.length := h.refers _ hmem e rfl
  have hidle : ∀ d ∈ s.calls.set i (.starting e), d.holds = false := by
    intro d hd
    rcases h.exclusive.others hi rfl hd with rfl | hfree
    · rfl
    · exact hfree
  refine ⟨?_, ?_, ?_, h.returned, h.starts⟩
  · exact List.countP_eq_zero.mpr fun d hd => by simp [hidle d hd]
  · cases h.stage with
    | unbuilt hb =>
        rw [hb] at hlt
        exact absurd hlt (Nat.not_lt_zero e)
    | storing ho hb he hc =>
        rw [hb, List.length_singleton, Nat.lt_one_iff] at hlt
        subst hlt
        refine .serving ho hb rfl hc fun d hd => ?_
        have hfree := hidle d hd
        cases d <;> first | rfl | cases hfree
    | serving _ _ _ _ hn => cases hn _ hmem
    | closing _ _ _ _ hn => exact absurd hmem (hn e)
    | closed _ _ _ _ hn => exact absurd hmem (hn e)
  · intro d hd
    rcases List.mem_or_eq_of_mem_set hd with hd | rfl
    · exact h.refers d hd
    · rintro _ ⟨rfl⟩
      exact hlt

theorem Sound.live_of_storing (h : s.Sound) {e : ℕ} (hi : s.calls[i]? = some (.storing e)) :
    s.engines[e]? = some .live := by
  have hmem := List.mem_of_getElem? hi
  have hlt : e < s.engines.length := h.refers _ hmem e rfl
  cases h.stage with
  | unbuilt hb =>
      rw [hb] at hlt
      exact absurd hlt (Nat.not_lt_zero e)
  | storing _ hb =>
      rw [hb, List.length_singleton, Nat.lt_one_iff] at hlt
      rw [hb, hlt]
      rfl
  | serving _ _ _ _ hn => cases hn _ hmem
  | closing _ _ _ _ hn => exact absurd hmem (hn e)
  | closed _ _ _ _ hn => exact absurd hmem (hn e)

theorem Sound.started (h : s.Sound) (i : ℕ) : (s.started i).Sound := by
  unfold LocalEngine.started
  split
  · next e hi => exact h.generate hi nofun rfl e
  · next e hi =>
      have hlt : i < s.calls.length := (List.getElem?_eq_some_iff.mp hi).1
      have hlocked := h.exclusive.locked hi rfl
      have hend : (s.unlock.goTo i .ended).Sound :=
        h.goTo hi nofun rfl (by rintro _ ⟨⟩) (by rw [hlocked]; rfl)
      split
      · split
        · next e' he' =>
            have hgo : (s.unlock.goTo i (.starting e')).Sound :=
              h.goTo hi nofun rfl (by rintro _ ⟨rfl⟩; exact h.engine_lt he')
                (by rw [hlocked]; rfl)
            rw [← generate_goTo i e' (.starting e')]
            exact hgo.generate (List.getElem?_set_self hlt) nofun rfl e'
        · exact hend
      · exact hend
  · next e hi =>
      have hlt : i < s.calls.length := (List.getElem?_eq_some_iff.mp hi).1
      split
      · rw [← generate_goTo i e (.starting e)]
        exact (h.stored hi).generate (List.getElem?_set_self hlt) nofun rfl e
      · next hdead => exact absurd (h.live_of_storing hi) hdead
  · exact h

theorem Sound.finish (h : s.Sound) (i : ℕ) : (s.finish i).Sound := by
  unfold LocalEngine.finish
  split
  · next e hi => exact h.goTo hi nofun rfl (by rintro _ ⟨⟩) rfl
  · exact h

theorem Sound.close (h : s.Sound) (horderly : s.closed = false → ∀ e, .storing e ∉ s.calls) :
    s.close.Sound := by
  unfold LocalEngine.close
  split
  · next hclosed =>
      refine ⟨h.exclusive, h.stage.quiet rfl rfl rfl rfl id fun d hd => Or.inl hd, h.refers,
        fun _ => hclosed, h.starts⟩
  · next hopen =>
      rw [Bool.not_eq_true] at hopen
      have hidle := horderly hopen
      split
      · next hnone =>
          refine ⟨h.exclusive, ?_, h.refers, fun _ => rfl, h.starts⟩
          cases h.stage with
          | unbuilt hb he hc => exact .unbuilt hb he hc
          | storing _ _ _ _ hs => exact absurd hs (hidle 0)
          | serving _ _ he => cases hnone.symm.trans he
          | closing ho => cases hopen.symm.trans ho
          | closed ho => cases hopen.symm.trans ho
      · next e he =>
          refine ⟨h.exclusive, ?_, ?_, fun _ => rfl, h.starts⟩
          · cases h.stage with
            | unbuilt _ hnone => cases hnone.symm.trans he
            | storing _ _ hnone => cases hnone.symm.trans he
            | serving _ hb hsome hc =>
                cases hsome.symm.trans he
                refine .closing rfl ?_ rfl ?_ hidle
                · change s.engines.set 0 .closing = _
                  rw [hb]
                  rfl
                · change s.closing ++ [0] = _
                  rw [hc]
                  rfl
            | closing ho => cases hopen.symm.trans ho
            | closed ho => cases hopen.symm.trans ho
          · intro d hd e' he'
            change e' < (s.engines.set e .closing).length
            rw [List.length_set]
            exact h.refers d hd e' he'

theorem Sound.closeDone (h : s.Sound) (j : ℕ) : (s.closeDone j).Sound := by
  unfold LocalEngine.closeDone
  split
  · next e hj =>
      have hmem := List.mem_of_getElem? hj
      cases h.stage with
      | unbuilt _ _ hc =>
          rw [hc] at hmem
          cases hmem
      | storing _ _ _ hc =>
          rw [hc] at hmem
          cases hmem
      | serving _ _ _ hc =>
          rw [hc] at hmem
          cases hmem
      | closed _ _ _ hc =>
          rw [hc] at hmem
          cases hmem
      | closing ho hb he hc hn =>
          rw [hc] at hj hmem
          obtain rfl := List.mem_singleton.mp hmem
          have hj0 : j < 1 := (List.getElem?_eq_some_iff.mp hj).1
          obtain rfl : j = 0 := Nat.lt_one_iff.mp hj0
          refine ⟨h.exclusive, .closed ho ?_ he ?_ hn, ?_, fun _ => ho, h.starts⟩
          · change s.engines.set 0 .closed = _
            rw [hb]
            rfl
          · change s.closing.eraseIdx 0 = _
            rw [hc]
            rfl
          · intro d hd e' he'
            change e' < (s.engines.set 0 .closed).length
            rw [List.length_set]
            exact h.refers d hd e' he'
  · exact h

/-- The step lemma. -/
theorem Sound.step (h : s.Sound) {input : Input} (horderly : s.Orderly input) :
    (s.step input).Sound := by
  cases input with
  | call => exact h.call
  | acquire i => exact h.acquire i
  | loaded i ok =>
      refine h.loaded ?_
      rintro rfl
      exact horderly
  | started i => exact h.started i
  | finish i => exact h.finish i
  | close => exact h.close horderly
  | closeDone j => exact h.closeDone j

theorem sound_init : init.Sound :=
  ⟨rfl, .unbuilt rfl rfl rfl, nofun, nofun, nofun⟩

end LocalEngine

/-! ## §5  Runs -/

/-- In a run whose steps are orderly, one engine is built, nothing starts on it after a
`close` has returned, and in the end it is closed. -/
theorem engine_lifetime (s : LocalEngine) (h : (localRuns LocalEngine.Orderly).Reachable s) :
    s.Safe := by
  have hinv : (localRuns LocalEngine.Orderly).Invariant LocalEngine.Sound := by
    constructor
    · rintro s rfl
      exact LocalEngine.sound_init
    · rintro s s' - hs ⟨input, horderly, rfl⟩
      exact hs.step horderly
  exact (hinv.reachable h).safe

namespace LocalEngine

def after (inputs : List Input) : LocalEngine := inputs.foldl (fun s input => s.step input) init

/-- Two calls, the first of which loads the engine, and a `close`. -/
def orderly : List Input :=
  [.call, .call, .acquire 0, .loaded 0 true, .started 0, .close, .closeDone 0]

/-- The backend is closed while the first of two calls loads: its engine becomes the
backend's, and stays. -/
def overtaken : List Input :=
  [.call, .acquire 0, .close, .loaded 0 true, .started 0, .finish 0]

/-- The backend is closed while the second of two calls waits for the lock. -/
def overtakenTwice : List Input :=
  [.call, .call, .acquire 0, .loaded 0 true, .started 0, .close, .acquire 1,
    .loaded 1 true]

end LocalEngine

/-- The second call found no engine and raises nothing; the first one's engine is closed. -/
theorem engine_lifetime_orderly :
    (LocalEngine.after LocalEngine.orderly).engines = [.closed] ∧
      (LocalEngine.after LocalEngine.orderly).Safe := by
  refine ⟨by decide, engine_lifetime _ ?_⟩
  have h₃ : (localRuns LocalEngine.Orderly).Reachable
      (LocalEngine.after [.call, .call, .acquire 0]) :=
    .step (.step (.step (.init rfl) ⟨.call, trivial, rfl⟩) ⟨.call, trivial, rfl⟩)
      ⟨.acquire 0, trivial, rfl⟩
  have h₅ : (localRuns LocalEngine.Orderly).Reachable
      (LocalEngine.after [.call, .call, .acquire 0, .loaded 0 true, .started 0]) :=
    .step (.step h₃ ⟨.loaded 0 true, fun _ => rfl, rfl⟩) ⟨.started 0, trivial, rfl⟩
  have hidle : (LocalEngine.after
      [.call, .call, .acquire 0, .loaded 0 true, .started 0]).calls =
        [.generating 0, .queued] := by decide
  have h₆ : (localRuns LocalEngine.Orderly).Reachable (LocalEngine.after
      [.call, .call, .acquire 0, .loaded 0 true, .started 0, .close]) := by
    refine .step h₅ ⟨.close, fun _ e he => ?_, rfl⟩
    rw [hidle] at he
    simp at he
  exact .step h₆ ⟨.closeDone 0, trivial, rfl⟩

/-- A call that waited for the lock builds a second engine, a call starts on an engine
after `close` has returned, and an engine is never closed. -/
theorem engine_lifetime_overtaken :
    (¬ ∀ s : LocalEngine, (localRuns fun _ _ => True).Reachable s → s.engines.length ≤ 1) ∧
    (¬ ∀ s : LocalEngine, (localRuns fun _ _ => True).Reachable s →
      ∀ x ∈ s.starts, x.afterClose = false) ∧
    ¬ ∀ s : LocalEngine, (localRuns fun _ _ => True).Reachable s →
      s.closeReturned = true → (∀ c ∈ s.calls, c = .ended) → s.closing = [] →
        ∀ e ∈ s.engines, e = .closed := by
  have hreach : ∀ inputs,
      (localRuns fun _ _ => True).Reachable (LocalEngine.after inputs) :=
    fun inputs => localRuns_foldl (fun _ _ => trivial) (.init rfl) inputs
  refine ⟨fun h => ?_, fun h => ?_, fun h => ?_⟩
  · exact absurd (h _ (hreach LocalEngine.overtakenTwice)) (by decide)
  · exact absurd (h _ (hreach LocalEngine.overtaken) ⟨0, true⟩ (by decide)) (by decide)
  · exact absurd (h _ (hreach LocalEngine.overtaken) (by decide) (by decide) (by decide) .live
      (by decide)) (by decide)

end TurboServe.Gateway
