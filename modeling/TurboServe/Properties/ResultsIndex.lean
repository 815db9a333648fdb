import Mathlib.Data.List.Nodup
import TurboServe.Bench.Index

/-!
# No run is lost from the results index

At every moment of every interleaving of calls, also calls whose process dies, the index
holds what it held before and the entries of the calls that have replaced it, in order.
-/

namespace TurboServe.Bench

variable {ι D : Type} [DecidableEq ι] {entry : ι → D} {s s' : IndexState ι D} {i : ι}

/-! ## §1  One step -/

/-- The phases with the lock held. -/
def CallPhase.holds : CallPhase D → Bool
  | .locked | .found | .entriesRead _ | .created _ | .written | .leaving _ => true
  | _ => false

/-- The phases a call can be in once its replace has happened. -/
def CallPhase.past : CallPhase D → Bool
  | .leaving false | .returned | .dead => true
  | _ => false

namespace IndexState

@[simp] theorem enter_phase_self (p : CallPhase D) : (s.enter i p).phase i = p :=
  Function.update_self ..

theorem enter_phase_of_ne (p : CallPhase D) {j : ι} (hj : j ≠ i) :
    (s.enter i p).phase j = s.phase j :=
  Function.update_of_ne hj ..

@[simp] theorem enter_temp (p : CallPhase D) : (s.enter i p).temp = s.temp := rfl

@[simp] theorem setTemp_temp_self (text : Option (FileText D)) : (s.setTemp i text).temp i = text :=
  Function.update_self ..

theorem setTemp_temp_of_ne (text : Option (FileText D)) {j : ι} (hj : j ≠ i) :
    (s.setTemp i text).temp j = s.temp j :=
  Function.update_of_ne hj ..

/-- What each step needs and what it does. -/
def Does (entry : ι → D) (s : IndexState ι D) (i : ι) (s' : IndexState ι D) : CallStep → Prop
  | .openLock => s.phase i = .idle ∧ s' = s.enter i .opened
  | .lock => s.phase i = .opened ∧ s.holder = none ∧
      s' = { s with holder := some i }.enter i .locked
  | .check => s.phase i = .locked ∧
      s' = s.enter i (if s.index.isSome then .found else .entriesRead [])
  | .read => s.phase i = .found ∧ ∃ text, s.index = some text ∧
      s' = s.enter i (.entriesRead (readEntries text))
  | .create => ∃ entries, s.phase i = .entriesRead entries ∧
      s' = (s.setTemp i (some .notJson)).enter i (.created (entries ++ [entry i]))
  | .write => ∃ entries, s.phase i = .created entries ∧
      s' = (s.setTemp i (some (dumps entries))).enter i .written
  | .replace => s.phase i = .written ∧
      s' = ({ s with index := s.temp i }.setTemp i none).enter i (.leaving false)
  | .unlock => ∃ failed, s.phase i = .leaving failed ∧
      s' = { s with holder := none }.enter i (if failed then .raised else .returned)
  | .fail => (s.phase i).past = false ∧
      (((s.phase i).holds = false ∧ s' = s.enter i .raised) ∨
        ((s.phase i).holds = true ∧ ∃ text, s' = (s.setTemp i text).enter i (.leaving true)))
  | .die =>
      s' = { s with holder := if s.holder = some i then none else s.holder }.enter i .dead

theorem enter_setTemp_self (p : CallPhase D) :
    s.enter i p = (s.setTemp i (s.temp i)).enter i p := by
  unfold setTemp
  rw [Function.update_eq_self]

theorem does_of_perform {a : CallStep} (h : s.perform entry i a = some s') :
    s.Does entry i s' a := by
  unfold perform at h
  cases a with
  | openLock => cases hp : s.phase i <;> simp_all [Does]
  | lock => cases hp : s.phase i <;> simp_all [Does]
  | check => cases hp : s.phase i <;> simp_all [Does]
  | read =>
      cases hp : s.phase i <;> simp_all [Does]
      obtain ⟨text, htext, rfl⟩ := h
      exact ⟨text, htext, rfl⟩
  | create => cases hp : s.phase i <;> simp_all [Does]
  | write => cases hp : s.phase i <;> simp_all [Does]
  | replace => cases hp : s.phase i <;> simp_all [Does]
  | unlock => cases hp : s.phase i <;> simp_all [Does]
  | fail =>
      rw [Does]
      cases hp : s.phase i <;> simp only [hp, reduceCtorEq, Option.some.injEq] at h <;> subst h <;>
        refine ⟨rfl, ?_⟩
      case idle => exact .inl ⟨rfl, rfl⟩
      case opened => exact .inl ⟨rfl, rfl⟩
      case locked => exact .inr ⟨rfl, _, enter_setTemp_self _⟩
      case found => exact .inr ⟨rfl, _, enter_setTemp_self _⟩
      case entriesRead => exact .inr ⟨rfl, _, enter_setTemp_self _⟩
      case created => exact .inr ⟨rfl, _, rfl⟩
      case written => exact .inr ⟨rfl, _, rfl⟩
  | die => cases hp : s.phase i <;> simp_all [Does]

/-! ## §2  The invariant -/

section Invariant

variable (entry : ι → D) (before : Option (FileText D)) (original : List D)

/-- The entries once the calls of `rs` have replaced the index, in this order. -/
def current (rs : List ι) : List D := original ++ rs.map entry

/-- What a call knows at a phase. -/
def KnowsAt (rs : List ι) (s : IndexState ι D) (i : ι) : CallPhase D → Prop
  | .found => s.index ≠ none
  | .entriesRead entries => entries = current entry original rs
  | .created entries => entries = current entry original rs ++ [entry i]
  | .written => s.temp i = some (dumps (current entry original rs ++ [entry i]))
  | .leaving false => i ∈ rs
  | .returned => i ∈ rs
  | _ => True

/-- The index holds the entries of the replaces so far, one call at a time is inside, and it
has read the index as it is. -/
structure Holds (rs : List ι) (s : IndexState ι D) : Prop where
  index : s.index = if rs = [] then before else some (dumps (current entry original rs))
  inside : ∀ i, (s.phase i).holds = true → s.holder = some i
  knows : ∀ i, KnowsAt entry original rs s i (s.phase i)
  past : ∀ i ∈ rs, (s.phase i).past = true
  nodup : rs.Nodup

variable {entry before original} {rs : List ι}

omit [DecidableEq ι] in
/-- What is known at a phase depends on the call's file and whether there is an index. -/
theorem KnowsAt.congr {p : CallPhase D} (h : KnowsAt entry original rs s i p)
    (htemp : s'.temp i = s.temp i) (hindex : s'.index = s.index) :
    KnowsAt entry original rs s' i p := by
  unfold KnowsAt at h ⊢
  rw [htemp, hindex]
  exact h

/-- A step that leaves the index alone: the call is inside only if it was or has just taken
a free lock, and knows what its new phase wants. -/
theorem Holds.move (h : Holds entry before original rs s) {p : CallPhase D}
    (hphase : s'.phase = Function.update s.phase i p) (hindex : s'.index = s.index)
    (htemp : ∀ j, j ≠ i → s'.temp j = s.temp j)
    (hother : ∀ j, j ≠ i → s.holder = some j → s'.holder = some j)
    (hself : p.holds = true → s'.holder = some i)
    (hknows : KnowsAt entry original rs s' i p) (hpast : i ∈ rs → p.past = true) :
    Holds entry before original rs s' := by
  have hsame : ∀ j, j ≠ i → s'.phase j = s.phase j := fun j hj => by
    rw [hphase, Function.update_of_ne hj]
  have hnew : s'.phase i = p := by rw [hphase, Function.update_self]
  refine ⟨hindex.trans h.index, fun j => ?_, fun j => ?_, fun j hj => ?_, h.nodup⟩
  · by_cases hj : j = i
    · subst hj
      rw [hnew]
      exact hself
    · rw [hsame j hj]
      exact fun hholds => hother j hj (h.inside j hholds)
  · by_cases hj : j = i
    · subst hj
      rw [hnew]
      exact hknows
    · rw [hsame j hj]
      exact (h.knows j).congr (htemp j hj) hindex
  · by_cases hji : j = i
    · subst hji
      rw [hnew]
      exact hpast hj
    · rw [hsame j hji]
      exact h.past j hj

theorem readEntries_dumps (entries : List D) : readEntries (dumps entries) = entries := by
  change (entries.map some).filterMap id = entries
  rw [List.filterMap_map]
  exact List.filterMap_some

/-- The index at the start: absent, or a valid array of objects. -/
def Valid (before : Option (FileText D)) (original : List D) : Prop :=
  (before = none ∧ original = []) ∨ before = some (dumps original)

omit [DecidableEq ι] in
/-- An index that exists holds the current entries; one that does not, none. -/
theorem Holds.entries (h : Holds entry before original rs s) (hvalid : Valid before original) :
    match s.index with
    | some text => readEntries text = current entry original rs
    | none => current entry original rs = [] := by
  rw [h.index]
  by_cases hrs : rs = []
  · rw [if_pos hrs, hrs, current, List.map_nil, List.append_nil]
    rcases hvalid with ⟨rfl, rfl⟩ | rfl
    · rfl
    · exact readEntries_dumps original
  · rw [if_neg hrs]
    exact readEntries_dumps _

omit [DecidableEq ι] in
/-- A call that has not replaced the index is not among those that have. -/
theorem Holds.not_mem (h : Holds entry before original rs s) (hpast : (s.phase i).past = false) :
    i ∉ rs := by
  intro hi
  rw [h.past i hi] at hpast
  cases hpast

omit [DecidableEq ι] in
theorem current_append (rs : List ι) (i : ι) :
    current entry original (rs ++ [i]) = current entry original rs ++ [entry i] := by
  unfold current
  rw [List.map_append, List.append_assoc]
  rfl

/-- The replace appends the entry of its call: nobody else is inside. -/
theorem Holds.replace (h : Holds entry before original rs s) (hphase : s.phase i = .written) :
    Holds entry before original (rs ++ [i])
      (({ s with index := s.temp i }.setTemp i none).enter i (.leaving false)) := by
  have hholder : s.holder = some i := h.inside i (by rw [hphase]; rfl)
  have htemp : s.temp i = some (dumps (current entry original (rs ++ [i]))) := by
    have hknows := h.knows i
    rw [hphase] at hknows
    rw [current_append]
    exact hknows
  have hother : ∀ j, j ≠ i → (s.phase j).holds = false := by
    intro j hj
    by_contra hholds
    have hj' := h.inside j (Bool.not_eq_false _ ▸ hholds)
    exact hj (Option.some.inj (hj'.symm.trans hholder))
  have hfresh : i ∉ rs := h.not_mem (by rw [hphase]; rfl)
  refine ⟨?_, fun j hholds => ?_, fun j => ?_, fun j hj => ?_, ?_⟩
  · rw [if_neg (List.append_ne_nil_of_right_ne_nil _ (List.cons_ne_nil i []))]
    exact htemp
  · by_cases hj : j = i
    · exact hj ▸ hholder
    · rw [enter_phase_of_ne _ hj] at hholds
      exact absurd (hholds.symm.trans (hother j hj)) Bool.true_eq_false.mp
  · by_cases hj : j = i
    · subst hj
      rw [enter_phase_self]
      exact List.mem_append_right _ List.mem_cons_self
    · rw [enter_phase_of_ne _ hj]
      have hknows := h.knows j
      have hout := hother j hj
      change KnowsAt entry original (rs ++ [i]) _ j (s.phase j)
      cases hp : s.phase j with
      | returned =>
          rw [hp] at hknows
          exact List.mem_append_left _ hknows
      | idle => trivial
      | opened => trivial
      | raised => trivial
      | dead => trivial
      | locked => rw [hp] at hout; cases hout
      | found => rw [hp] at hout; cases hout
      | entriesRead entries => rw [hp] at hout; cases hout
      | created entries => rw [hp] at hout; cases hout
      | written => rw [hp] at hout; cases hout
      | leaving failed => rw [hp] at hout; cases hout
  · by_cases hji : j = i
    · subst hji
      rw [enter_phase_self]
      rfl
    · rw [enter_phase_of_ne _ hji]
      exact h.past j ((List.mem_append.mp hj).resolve_right fun hm => hji (List.mem_singleton.mp hm))
  · rw [List.nodup_append]
    refine ⟨h.nodup, List.nodup_singleton i, fun a ha b hb hab => ?_⟩
    rw [List.mem_singleton] at hb
    exact hfresh (hb ▸ hab ▸ ha)

/-- A step of a call that stays outside, or stays inside, and leaves the index alone. -/
theorem Holds.stay (h : Holds entry before original rs s) {p : CallPhase D}
    {text : Option (FileText D)} (hin : p.holds = true → (s.phase i).holds = true)
    (hpast : (s.phase i).past = false)
    (hknows : KnowsAt entry original rs ((s.setTemp i text).enter i p) i p) :
    Holds entry before original rs ((s.setTemp i text).enter i p) := by
  refine h.move rfl rfl (fun j hj => setTemp_temp_of_ne text hj) (fun _ _ hj => hj) ?_ hknows ?_
  · exact fun hp => h.inside i (hin hp)
  · exact fun hi => absurd hi (h.not_mem hpast)

/-- A step other than the replace. -/
theorem Holds.step_of_ne (h : Holds entry before original rs s) (hvalid : Valid before original)
    {a : CallStep} (ha : a ≠ .replace) (hs : s.perform entry i a = some s') :
    Holds entry before original rs s' := by
  have hdoes := does_of_perform hs
  cases a with
  | replace => exact absurd rfl ha
  | openLock =>
      obtain ⟨hphase, rfl⟩ := hdoes
      rw [enter_setTemp_self]
      exact h.stay (fun hp => nomatch hp) (by rw [hphase]; rfl) trivial
  | lock =>
      obtain ⟨hphase, hfree, rfl⟩ := hdoes
      refine h.move rfl rfl (fun _ _ => rfl) (fun j _ hj => ?_) (fun _ => rfl) trivial fun hi => ?_
      · rw [hfree] at hj
        cases hj
      · exact absurd hi (h.not_mem (by rw [hphase]; rfl))
  | check =>
      obtain ⟨hphase, rfl⟩ := hdoes
      rw [enter_setTemp_self]
      refine h.stay (fun _ => by rw [hphase]; rfl) (by rw [hphase]; rfl) ?_
      have hentries := h.entries hvalid
      cases hindex : s.index with
      | none =>
          rw [hindex] at hentries
          exact hentries.symm
      | some text =>
          intro hnone
          cases hindex.symm.trans hnone
  | read =>
      obtain ⟨hphase, text, hindex, rfl⟩ := hdoes
      rw [enter_setTemp_self]
      refine h.stay (fun _ => by rw [hphase]; rfl) (by rw [hphase]; rfl) ?_
      have hentries := h.entries hvalid
      rw [hindex] at hentries
      exact hentries
  | create =>
      obtain ⟨entries, hphase, rfl⟩ := hdoes
      refine h.stay (fun _ => by rw [hphase]; rfl) (by rw [hphase]; rfl) ?_
      have hknows := h.knows i
      rw [hphase] at hknows
      exact congrArg (· ++ [entry i]) hknows
  | write =>
      obtain ⟨entries, hphase, rfl⟩ := hdoes
      refine h.stay (fun _ => by rw [hphase]; rfl) (by rw [hphase]; rfl) ?_
      have hknows := h.knows i
      rw [hphase] at hknows
      exact (setTemp_temp_self _).trans (congrArg (fun x => some (dumps x)) hknows)
  | unlock =>
      obtain ⟨failed, hphase, rfl⟩ := hdoes
      have hholder : s.holder = some i := h.inside i (by rw [hphase]; rfl)
      have hknows := h.knows i
      rw [hphase] at hknows
      refine h.move rfl rfl (fun _ _ => rfl) (fun j hj hheld => ?_) ?_ ?_ fun hi => ?_
      · exact absurd (Option.some.inj (hheld.symm.trans hholder)) hj
      · cases failed <;> exact fun hp => nomatch hp
      · cases failed with
        | false => exact hknows
        | true => trivial
      · have hpast := h.past i hi
        rw [hphase] at hpast
        cases failed with
        | false => rfl
        | true => cases hpast
  | fail =>
      obtain ⟨hpast, ⟨-, rfl⟩ | ⟨hin, text, rfl⟩⟩ := hdoes
      · rw [enter_setTemp_self]
        exact h.stay (fun hp => nomatch hp) hpast trivial
      · exact h.stay (fun _ => hin) hpast trivial
  | die =>
      obtain rfl := hdoes
      refine h.move rfl rfl (fun _ _ => rfl) (fun j hj hheld => ?_) (fun hp => nomatch hp) trivial
        fun _ => rfl
      have hother : s.holder ≠ some i := fun hi => hj (Option.some.inj (hheld.symm.trans hi))
      exact (if_neg hother).trans hheld

/-- One step of any call. -/
theorem Holds.step (h : Holds entry before original rs s) (hvalid : Valid before original)
    {a : CallStep} (hs : s.perform entry i a = some s') :
    Holds entry before original (rs ++ replaces [(i, a)]) s' := by
  by_cases ha : a = .replace
  · subst ha
    obtain ⟨hphase, rfl⟩ := does_of_perform hs
    exact h.replace hphase
  · have hnone : replaces [(i, a)] = [] := by
      rw [replaces, List.filterMap_cons, if_neg ha, List.filterMap_nil]
    rw [hnone, List.append_nil]
    exact h.step_of_ne hvalid ha hs

omit [DecidableEq ι] in
theorem Holds.start :
    Holds entry before original [] (IndexState.before before : IndexState ι D) :=
  ⟨rfl, fun _ h => (nomatch h), fun _ => trivial, fun _ h => (nomatch h), List.nodup_nil⟩

omit [DecidableEq ι] in
theorem replaces_append (trace : List (ι × CallStep)) (x : ι × CallStep) :
    replaces (trace ++ [x]) = replaces trace ++ replaces [x] :=
  List.filterMap_append

/-- Every run of any calls. -/
theorem Run.holds (hvalid : Valid before original) {trace : List (ι × CallStep)}
    (hrun : Run entry (IndexState.before before) trace s) :
    Holds entry before original (replaces trace) s := by
  induction hrun with
  | start => exact Holds.start
  | step _ hs ih =>
      rw [replaces_append]
      exact ih.step hvalid hs

/-- For any calls and every interleaving of their steps, processes dying between any two of
them: at every moment the index is what it was before the first replace, and from then on the
original entries and the entries of the calls whose replace has happened, each once, in the
order of the replaces. A call that has returned is among them. -/
theorem no_run_lost (hvalid : Valid before original) {trace : List (ι × CallStep)}
    (hrun : Run entry (IndexState.before before) trace s) :
    s.index = (if replaces trace = [] then before
        else some (dumps (original ++ (replaces trace).map entry))) ∧
      (replaces trace).Nodup ∧ ∀ i, s.phase i = .returned → i ∈ replaces trace := by
  have h := hrun.holds hvalid
  refine ⟨h.index, h.nodup, fun i hi => ?_⟩
  have hknows := h.knows i
  rw [hi] at hknows
  exact hknows

end Invariant

/-- Two calls on an absent index: the first replaces it, the second dies waiting. -/
theorem no_run_lost_two : ∃ s : IndexState ℕ ℕ, s.index = some (dumps [7]) := by
  have hrun : ∃ s, Run (fun _ => 7) (IndexState.before none : IndexState ℕ ℕ)
      [(0, .openLock), (1, .openLock), (0, .lock), (0, .check), (0, .create), (1, .die),
        (0, .write), (0, .replace)] s :=
    ⟨_, .step (.step (.step (.step (.step (.step (.step (.step .start rfl) rfl) rfl) rfl) rfl)
      rfl) rfl) rfl⟩
  obtain ⟨s, hs⟩ := hrun
  exact ⟨s, (no_run_lost (Or.inl ⟨rfl, rfl⟩) hs).1⟩

end IndexState

end TurboServe.Bench
