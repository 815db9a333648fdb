import TurboServe.Canary.Controller

/-!
# What a lane's window counts

Expiry drops from the front of a deque ordered by arrival. Over a whole run that is one
`dropWhile` of everything accepted, which counts the samples inside the window exactly when no
sample that has left it arrived behind one that has not.
-/

namespace TurboServe.Canary

/-! ## §1  Dropping from the front -/

section Front

variable {α : Type*} {p q : α → Bool} {l l' : List α}

/-- What an earlier, weaker drop left out a later one drops too. -/
theorem dropWhile_dropWhile_append (h : ∀ x, p x = true → q x = true) :
    (l.dropWhile p ++ l').dropWhile q = (l ++ l').dropWhile q := by
  induction l with
  | nil => rfl
  | cons x l ih =>
      by_cases hx : p x = true
      · rw [List.dropWhile_cons_of_pos hx, List.cons_append, List.dropWhile_cons_of_pos (h x hx)]
        exact ih
      · rw [List.dropWhile_cons_of_neg hx]

/-- Dropping from the front leaves no more than what is to stay exactly when nothing to drop
stands behind something to stay. -/
theorem length_dropWhile_eq_iff :
    (l.dropWhile p).length = (l.filter fun x => !p x).length ↔
      l.Pairwise fun x y => p y = true → p x = true := by
  induction l with
  | nil => exact iff_of_true rfl List.Pairwise.nil
  | cons x l ih =>
      by_cases hx : p x = true
      · rw [List.dropWhile_cons_of_pos hx, List.filter_cons_of_neg (by simp [hx]), ih,
          List.pairwise_cons]
        exact ⟨fun h => ⟨fun _ _ _ => hx, h⟩, fun h => h.2⟩
      · rw [List.dropWhile_cons_of_neg hx, List.filter_cons_of_pos (by simp [hx]),
          List.length_cons, List.length_cons, Nat.add_right_cancel_iff, eq_comm,
          List.length_filter_eq_length_iff, List.pairwise_cons]
        constructor
        · intro hall
          have hnone : ∀ y ∈ l, p y ≠ true := fun y hy hp => by simpa [hp] using hall y hy
          refine ⟨fun y hy hp => absurd hp (hnone y hy), ?_⟩
          exact List.pairwise_of_forall_mem_list fun a _ b hb hp => absurd hp (hnone b hb)
        · rintro ⟨hall, -⟩ y hy
          by_contra hp
          exact hx (hall y hy (by simpa using hp))

/-- Then what is left is what is to stay. -/
theorem dropWhile_eq_filter (h : l.Pairwise fun x y => p y = true → p x = true) :
    l.dropWhile p = l.filter fun x => !p x := by
  refine (List.Sublist.eq_of_length ?_ (length_dropWhile_eq_iff.mpr h).symm).symm
  have hfront : (l.takeWhile p).filter (fun x => !p x) = [] :=
    List.filter_eq_nil_iff.mpr fun x hx => by simp [List.mem_takeWhile_imp hx]
  have hsplit : l.filter (fun x => !p x) = (l.dropWhile p).filter fun x => !p x := by
    conv_lhs => rw [← List.takeWhile_append_dropWhile (p := p) (l := l), List.filter_append, hfront]
    rfl
  rw [hsplit]
  exact List.filter_sublist

end Front

/-! ## §2  Runs of a window -/

inductive WindowCall : Type where
  | observe (ok : Bool) (ttftMs e2eMs : Option ℚ) (now : ℚ)
  | summary (now : ℚ)

namespace WindowCall

def now : WindowCall → ℚ
  | .observe _ _ _ now => now
  | .summary now => now

/-- The request a call records. -/
def sample? : WindowCall → Option Sample
  | .observe ok ttftMs e2eMs now => some ⟨now, ok, ttftMs, e2eMs⟩
  | .summary _ => none

end WindowCall

/-- The latest time seen at a call at `now`, after calls at `times`. -/
def latestOf (times : List ℚ) (now : ℚ) : ℚ := times.foldl max now

theorem latestOf_append (times : List ℚ) (t now : ℚ) :
    latestOf (times ++ [t]) now = max (latestOf times now) t := by
  unfold latestOf
  rw [List.foldl_append]
  rfl

theorem latestOf_le_iff {times : List ℚ} {now x : ℚ} :
    latestOf times now ≤ x ↔ now ≤ x ∧ ∀ t ∈ times, t ≤ x := by
  induction times using List.reverseRecOn with
  | nil => exact ⟨fun h => ⟨h, fun _ ht => absurd ht List.not_mem_nil⟩, fun h => h.1⟩
  | append_singleton times t ih =>
      rw [latestOf_append, max_le_iff, ih, List.forall_mem_append, List.forall_mem_singleton,
        and_assoc]

theorem max_latestOf (times : List ℚ) (a b : ℚ) :
    max (latestOf times a) b = max (latestOf times b) a := by
  induction times using List.reverseRecOn with
  | nil => exact max_comm a b
  | append_singleton times t ih =>
      rw [latestOf_append, latestOf_append, max_right_comm, ih, max_right_comm]

/-- The latest time only moves on. -/
theorem latestOf_mono {seen times : List ℚ} {t now : ℚ} (ht : t ∈ times) :
    latestOf seen t ≤ latestOf (seen ++ times) now := by
  obtain ⟨-, hall⟩ := latestOf_le_iff.mp (le_refl (latestOf (seen ++ times) now))
  exact latestOf_le_iff.mpr ⟨hall t (List.mem_append_right _ ht),
    fun x hx => hall x (List.mem_append_left _ hx)⟩

/-- Whether a sample is not older than the window when it arrives after calls at `seen`. -/
def inTime (windowS : ℚ) (seen : List ℚ) (s : Sample) : Bool :=
  !decide (s.t < latestOf seen s.t - windowS)

/-- The samples that arrive in time, `seen` being the times of the calls before. -/
def accepted (windowS : ℚ) : List ℚ → List WindowCall → List Sample
  | _, [] => []
  | seen, c :: cs =>
      (c.sample?.filter (inTime windowS seen)).toList ++ accepted windowS (seen ++ [c.now]) cs

namespace LaneWindow

variable {w : LaneWindow} {c : WindowCall} {seen : List ℚ}

def apply (w : LaneWindow) : WindowCall → LaneWindow
  | .observe ok ttftMs e2eMs now => w.observe ok ttftMs e2eMs now
  | .summary now => (w.summary now).2

def calls (w : LaneWindow) (cs : List WindowCall) : LaneWindow := cs.foldl apply w

/-- The ring buffer has room for what a call appends. -/
def Room (w : LaneWindow) : WindowCall → Prop
  | .observe _ _ _ now =>
      now < w.latest now - w.windowS ∨ (w.prune now).samples.length < w.maxSamples
  | .summary _ => True

/-- The calls never exceed the ring buffer's capacity. -/
def Fits (w : LaneWindow) : List WindowCall → Prop
  | [] => True
  | c :: cs => w.Room c ∧ (w.apply c).Fits cs

/-- The window has seen the calls at `times`. -/
def HasSeen (w : LaneWindow) (times : List ℚ) : Prop := ∀ now, w.latest now = latestOf times now

theorem observe_spec (ok : Bool) (ttftMs e2eMs : Option ℚ) (now : ℚ) :
    (w.observe ok ttftMs e2eMs now).now = some (w.latest now) ∧
      (w.observe ok ttftMs e2eMs now).windowS = w.windowS := by
  unfold observe
  dsimp only
  split <;> exact ⟨rfl, rfl⟩

theorem HasSeen.apply (h : w.HasSeen seen) (c : WindowCall) :
    (w.apply c).HasSeen (seen ++ [c.now]) := by
  have hnow : (w.apply c).now = some (w.latest c.now) := by
    cases c with
    | observe ok ttftMs e2eMs now => exact (observe_spec ok ttftMs e2eMs now).1
    | summary now => rfl
  intro now
  rw [latest, hnow]
  show max (w.latest c.now) now = _
  rw [h, latestOf_append, max_latestOf]

theorem apply_windowS (c : WindowCall) : (w.apply c).windowS = w.windowS := by
  cases c with
  | observe ok ttftMs e2eMs now => exact (observe_spec ok ttftMs e2eMs now).2
  | summary now => rfl

/-- With room, a call drops from the front what has expired and appends what is in time. -/
theorem apply_samples (h : w.HasSeen seen) (hroom : w.Room c) :
    (w.apply c).samples = (w.samples.dropWhile fun s =>
        decide (s.t < latestOf seen c.now - w.windowS)) ++
      (c.sample?.filter (inTime w.windowS seen)).toList := by
  cases c with
  | summary now =>
      show (w.prune now).samples = _ ++ []
      rw [List.append_nil, prune, h]
      rfl
  | observe ok ttftMs e2eMs now =>
      show (w.observe ok ttftMs e2eMs now).samples = _
      have hpruned : (w.prune now).samples =
          w.samples.dropWhile fun s => decide (s.t < latestOf seen now - w.windowS) := by
        rw [prune, h]
      unfold observe
      dsimp only
      by_cases hlate : now < w.latest now - w.windowS
      · have hout : inTime w.windowS seen ⟨now, ok, ttftMs, e2eMs⟩ = false := by
          rw [h] at hlate
          simp only [inTime, hlate, decide_true, Bool.not_true]
        rw [if_pos hlate, hpruned]
        simp only [WindowCall.sample?, WindowCall.now, Option.filter, hout, Bool.false_eq_true,
          if_false, Option.toList_none, List.append_nil]
        rfl
      · have hin : inTime w.windowS seen ⟨now, ok, ttftMs, e2eMs⟩ = true := by
          rw [h] at hlate
          simp only [inTime, hlate, decide_false, Bool.not_false]
        have hlen : (w.prune now).samples.length < w.maxSamples := hroom.resolve_left hlate
        have hdrop : ((w.prune now).samples ++ [(⟨now, ok, ttftMs, e2eMs⟩ : Sample)]).length -
            (w.prune now).maxSamples = 0 := by
          rw [List.length_append, List.length_singleton]
          show _ - w.maxSamples = 0
          omega
        rw [if_neg hlate, append, hdrop]
        simp only [List.drop_zero, WindowCall.sample?, WindowCall.now, Option.filter, hin,
          if_true, Option.toList_some, hpruned]
        rfl

/-- Over a run, the deque is one drop from the front of all that arrived in time. -/
theorem prune_calls {cs : List WindowCall} (h : w.HasSeen seen) (hfits : w.Fits cs) (now : ℚ) :
    ((w.calls cs).prune now).samples =
      (w.samples ++ accepted w.windowS seen cs).dropWhile fun s =>
        decide (s.t < latestOf (seen ++ cs.map (·.now)) now - w.windowS) := by
  induction cs generalizing w seen with
  | nil =>
      show (w.prune now).samples = _
      rw [prune, h, accepted, List.append_nil, List.map_nil, List.append_nil]
  | cons c cs ih =>
      obtain ⟨hroom, hrest⟩ := hfits
      show (((w.apply c).calls cs).prune now).samples = _
      have htimes : seen ++ [c.now] ++ cs.map (·.now) = seen ++ (c :: cs).map (·.now) := by
        rw [List.append_assoc]
        rfl
      rw [ih (h.apply c) hrest, apply_windowS, apply_samples h hroom, htimes, accepted,
        List.append_assoc]
      refine dropWhile_dropWhile_append fun s hs => ?_
      have hmono := @latestOf_mono seen ((c :: cs).map (·.now)) c.now now List.mem_cons_self
      have hlt := of_decide_eq_true hs
      exact decide_eq_true (by linarith)

end LaneWindow

/-! ## §3  The summary -/

/-- Whether a sample is in the window that ends at the latest time. -/
def counted (windowS : ℚ) (times : List ℚ) (now : ℚ) (s : Sample) : Bool :=
  decide (latestOf times now - windowS ≤ s.t)

/-- A sample refused on arrival is outside the window for good. -/
theorem filter_accepted {windowS : ℚ} {seen : List ℚ} (cs : List WindowCall) (now : ℚ) :
    (accepted windowS seen cs).filter (counted windowS (seen ++ cs.map (·.now)) now) =
      (cs.filterMap (·.sample?)).filter (counted windowS (seen ++ cs.map (·.now)) now) := by
  induction cs generalizing seen with
  | nil => rfl
  | cons c cs ih =>
      have hrest := @ih (seen ++ [c.now])
      rw [List.append_assoc, List.singleton_append, ← List.map_cons] at hrest
      rw [accepted, List.filter_append, hrest]
      cases c with
      | summary now => rfl
      | observe ok ttftMs e2eMs t =>
          have hmono := @latestOf_mono seen
            ((WindowCall.observe ok ttftMs e2eMs t :: cs).map (·.now)) t now List.mem_cons_self
          rw [List.filterMap_cons]
          simp only [WindowCall.sample?, Option.filter]
          by_cases hin : inTime windowS seen ⟨t, ok, ttftMs, e2eMs⟩ = true
          · rw [if_pos hin, Option.toList_some, ← List.filter_append]
            rfl
          · have hlate : t < latestOf seen t - windowS :=
              of_decide_eq_true (Bool.not_eq_false' .. ▸ Bool.not_eq_true _ ▸ hin)
            have hout : counted windowS
                (seen ++ (WindowCall.observe ok ttftMs e2eMs t :: cs).map (·.now)) now
                ⟨t, ok, ttftMs, e2eMs⟩ ≠ true := by
              intro hcounted
              have hle := of_decide_eq_true hcounted
              dsimp only at hle
              linarith
            rw [if_neg hin, List.filter_cons_of_neg hout]
            rfl

/-- The aggregate of a list of samples. -/
def LaneSummary.ofSamples (lane : Lane) (windowS : ℚ) (samples : List Sample) : LaneSummary where
  lane := lane
  requests := samples.length
  errors := samples.countP fun s => !s.ok
  p95TtftMs := percentile ((samples.filter (·.ok)).filterMap (·.ttftMs)) 95
  p95E2eMs := percentile ((samples.filter (·.ok)).filterMap (·.e2eMs)) 95
  windowS := some windowS
  errors_le := LaneWindow.countP_le samples

theorem LaneWindow.calls_setup (w : LaneWindow) (cs : List WindowCall) :
    (w.calls cs).lane = w.lane ∧ (w.calls cs).windowS = w.windowS := by
  induction cs generalizing w with
  | nil => exact ⟨rfl, rfl⟩
  | cons c cs ih =>
      have hlane : (w.apply c).lane = w.lane := by
        cases c with
        | summary now => rfl
        | observe ok ttftMs e2eMs now =>
            show (w.observe ok ttftMs e2eMs now).lane = _
            unfold LaneWindow.observe
            dsimp only
            split <;> rfl
      obtain ⟨h₁, h₂⟩ := ih (w.apply c)
      exact ⟨h₁.trans hlane, h₂.trans (LaneWindow.apply_windowS c)⟩

/-- **The window counts exactly the samples inside it** if and only if none of those accepted
that has left it by the time of the summary arrived behind one that has not. -/
theorem summary_exact_iff (lane : Lane) {windowS : ℚ} {maxSamples : ℕ} (cs : List WindowCall)
    (now : ℚ) (hfits : (LaneWindow.new lane windowS maxSamples).Fits cs) :
    (((LaneWindow.new lane windowS maxSamples).calls cs).summary now).1 =
        .ofSamples lane windowS
          ((cs.filterMap (·.sample?)).filter (counted windowS (cs.map (·.now)) now)) ↔
      (accepted windowS [] cs).Pairwise fun s s' =>
        s'.t < latestOf (cs.map (·.now)) now - windowS →
          s.t < latestOf (cs.map (·.now)) now - windowS := by
  have hseen : (LaneWindow.new lane windowS maxSamples).HasSeen [] := fun _ => rfl
  have hsamples := LaneWindow.prune_calls hseen hfits now
  obtain ⟨hlane, hwindow⟩ := (LaneWindow.new lane windowS maxSamples).calls_setup cs
  have hsummary : (((LaneWindow.new lane windowS maxSamples).calls cs).summary now).1 =
      .ofSamples lane windowS
        (((LaneWindow.new lane windowS maxSamples).calls cs).prune now).samples := by
    unfold LaneWindow.summary LaneSummary.ofSamples
    simp only [hlane, hwindow]
    rfl
  have hcounted : (counted windowS (cs.map (·.now)) now) = fun s => !decide
      (s.t < latestOf (cs.map (·.now)) now - windowS) := by
    funext s
    simp only [counted, ← decide_not, not_lt]
  have hkept := @filter_accepted windowS [] cs now
  rw [List.nil_append] at hkept
  rw [hsummary, hsamples, ← hkept, hcounted]
  constructor
  · intro heq
    have hlen := congrArg LaneSummary.requests heq
    have hpairs := length_dropWhile_eq_iff.mp hlen
    exact hpairs.imp fun h hlt => of_decide_eq_true (h (decide_eq_true hlt))
  · intro hpairs
    refine congrArg (LaneSummary.ofSamples lane windowS) (dropWhile_eq_filter ?_)
    exact hpairs.imp fun h hlt => decide_eq_true (h (of_decide_eq_true hlt))

/-- Two samples in order, the first of them gone. -/
theorem summary_exact_iff_inOrder :
    (((LaneWindow.new .canary 10 5).calls
        [.observe true none none 100, .observe false none none 105]).summary 112).1 =
      .ofSamples .canary 10 [⟨105, false, none, none⟩] := by
  have hfits : (LaneWindow.new .canary 10 5).Fits
      [.observe true none none 100, .observe false none none 105] := by
    refine ⟨Or.inr ?_, Or.inr ?_, trivial⟩ <;> decide +kernel
  have hexact := (summary_exact_iff .canary _ 112 hfits).mpr (by decide +kernel)
  rw [hexact]
  decide +kernel

/-- The sample of time 95 has left the window by 107 and still counts: it arrived behind the
sample of time 100. -/
theorem hidden_sample_counted :
    (LaneWindow.new .canary 10 5).Fits
        [.observe true none none 100, .observe false none none 95] ∧
      (((LaneWindow.new .canary 10 5).calls
        [.observe true none none 100, .observe false none none 95]).summary 107).1.requests = 2 ∧
      ([⟨100, true, none, none⟩, ⟨95, false, none, none⟩] : List Sample).filter
        (counted 10 [100, 95] 107) = [⟨100, true, none, none⟩] := by
  refine ⟨⟨Or.inr ?_, Or.inr ?_, trivial⟩, ?_, ?_⟩ <;> decide +kernel

end TurboServe.Canary
