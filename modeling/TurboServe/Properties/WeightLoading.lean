import TurboServe.Lib.Association
import TurboServe.Lib.LastWrite
import TurboServe.Model.Weights

/-!
# Strict weight loads

When `load_weights` with `strict` returns, and when a module it returns for holds under
every name the tensor of that name.
-/

namespace TurboServe.Model

open Lib

variable {α δ : Type}

/-! ## §1  What a checkpoint has to fill -/

theorem firstOfObject_append (es : List Entry) (e : Entry) :
    firstOfObject (es ++ [e]) =
      if (firstOfObject es).any fun k => decide (k.object = e.object) then firstOfObject es
      else firstOfObject es ++ [e] := by
  unfold firstOfObject
  rw [List.foldl_append]
  rfl

theorem firstOfObject_sublist (es : List Entry) : (firstOfObject es).Sublist es := by
  induction es using List.reverseRecOn with
  | nil => exact List.Sublist.refl _
  | append_singleton es e ih =>
      rw [firstOfObject_append]
      split
      · exact ih.trans (List.sublist_append_left es [e])
      · exact ih.append (List.Sublist.refl [e])

theorem firstOfObject_nodup (es : List Entry) : ((firstOfObject es).map (·.object)).Nodup := by
  induction es using List.reverseRecOn with
  | nil => exact List.nodup_nil
  | append_singleton es e ih =>
      rw [firstOfObject_append]
      split
      · exact ih
      · rename_i hnew
        rw [List.map_append, List.nodup_append]
        refine ⟨ih, List.nodup_singleton _, ?_⟩
        intro object hobject o ho heq
        obtain ⟨k, hk, rfl⟩ := List.mem_map.mp hobject
        rw [List.map_singleton, List.mem_singleton] at ho
        exact hnew (List.any_eq_true.mpr ⟨k, hk, decide_eq_true (heq.trans ho)⟩)

namespace Module

variable (module : Module δ)

theorem mem_namedParameters {e : Entry} (h : e ∈ module.namedParameters) :
    e ∈ module.entries ∧ e.isParameter = true :=
  List.mem_filter.mp ((firstOfObject_sublist _).subset h)

theorem mem_namedBuffers {e : Entry} (h : e ∈ module.namedBuffers) :
    e ∈ module.entries ∧ e.isParameter = false := by
  have hmem := List.mem_filter.mp ((firstOfObject_sublist _).subset h)
  exact ⟨hmem.1, Bool.not_eq_true' _ ▸ hmem.2⟩

/-- No name is asked for twice. -/
theorem params_names_nodup : (module.params.map (·.1)).Nodup := by
  unfold params
  rw [List.map_map, List.map_append]
  have hkind : ∀ p : Entry → Bool, ((firstOfObject (module.entries.filter p)).map (·.name)).Nodup :=
    fun p => module.names_nodup.sublist
      (((firstOfObject_sublist _).trans List.filter_sublist).map _)
  refine List.nodup_append.mpr ⟨hkind _, (hkind _).sublist (List.filter_sublist.map _), ?_⟩
  intro name hname name' hname' heq
  obtain ⟨e, he, rfl⟩ := List.mem_map.mp hname
  obtain ⟨e', he', rfl⟩ := List.mem_map.mp hname'
  obtain ⟨hmem, hparameter⟩ := module.mem_namedParameters he
  obtain ⟨hmem', hbuffer⟩ := module.mem_namedBuffers (List.mem_filter.mp he').1
  have hsame := List.inj_on_of_nodup_map module.names_nodup hmem hmem' heq
  rw [hsame, hbuffer] at hparameter
  cases hparameter

/-- No tensor object is filled under two names. -/
theorem params_objects_nodup : (module.params.map (·.2)).Nodup := by
  unfold params
  rw [List.map_map, List.map_append]
  refine List.nodup_append.mpr ⟨firstOfObject_nodup _,
    (firstOfObject_nodup _).sublist (List.filter_sublist.map _), ?_⟩
  intro object hobject object' hobject' heq
  obtain ⟨e, he, rfl⟩ := List.mem_map.mp hobject
  obtain ⟨e', he', rfl⟩ := List.mem_map.mp hobject'
  obtain ⟨hmem, hparameter⟩ := module.mem_namedParameters he
  obtain ⟨hmem', hbuffer⟩ := module.mem_namedBuffers (List.mem_filter.mp he').1
  have hkind := module.separate e hmem e' hmem' heq
  rw [hparameter, hbuffer] at hkind
  cases hkind

end Module

/-! ## §2  The loop -/

section Loop

variable {cast : δ → α → α} {module : Module δ} {dtype : Option δ}

/-- Every tensor with a place in the module has the shape of that place. -/
def Fits (module : Module δ) (ts : List (String × CheckpointTensor α)) : Prop :=
  ∀ x ∈ ts, ∀ object, (x.1, object) ∈ module.params → module.shape object = x.2.shape

/-- What a parameter's object holds once the tensor has been copied into it. -/
def copied (cast : δ → α → α) (module : Module δ) (dtype : Option δ) (object : ℕ)
    (t : CheckpointTensor α) : α :=
  cast (module.dtype object) (cast (dtype.getD (module.dtype object)) t.data)

theorem mem_params_iff {name : String} {object : ℕ} :
    module.params.lookup name = some object ↔ (name, object) ∈ module.params :=
  lookup_eq_some_iff_mem module.params_names_nodup

theorem param_name_inj {name name' : String} {object : ℕ} (h : (name, object) ∈ module.params)
    (h' : (name', object) ∈ module.params) : name = name' :=
  congrArg Prod.fst (List.inj_on_of_nodup_map module.params_objects_nodup h h' rfl)

/-- The loop goes through exactly if every shape fits. -/
theorem copyTensors_returns {ts : List (String × CheckpointTensor α)} {s : Loading α} :
    (copyTensors cast module dtype ts s).2 = none ↔ Fits module ts := by
  induction ts generalizing s with
  | nil => exact iff_of_true rfl fun x hx => absurd hx List.not_mem_nil
  | cons x ts ih =>
      obtain ⟨name, t⟩ := x
      unfold copyTensors Fits
      rw [List.forall_mem_cons]
      cases hlookup : module.params.lookup name with
      | none =>
          refine ih.trans (Iff.symm (and_iff_right ?_))
          intro object hobject
          cases hlookup.symm.trans (mem_params_iff.mpr hobject)
      | some object =>
          have hfits : (∀ o, (name, o) ∈ module.params → module.shape o = t.shape) ↔
              module.shape object = t.shape := by
            constructor
            · exact fun h => h object (mem_params_iff.mp hlookup)
            · intro h o ho
              cases hlookup.symm.trans (mem_params_iff.mpr ho)
              exact h
          dsimp only
          rw [hfits]
          by_cases hshape : module.shape object = t.shape
          · rw [if_neg (not_not.mpr hshape), and_iff_right hshape]
            exact ih
          · rw [if_pos hshape]
            exact iff_of_false (fun h => nomatch h) fun h => hshape h.1

/-- A loop that goes through: the names it fills, those it finds no place for, and what the
objects hold, each the last tensor of its name. -/
structure Copied (cast : δ → α → α) (module : Module δ) (dtype : Option δ)
    (ts : List (String × CheckpointTensor α)) (s s' : Loading α) : Prop where
  seen : ∀ name, name ∈ s'.seen ↔
    name ∈ s.seen ∨ (name ∈ ts.map (·.1) ∧ name ∈ module.params.map (·.1))
  unexpected : s'.report.unexpected = s.report.unexpected ++
    (ts.map (·.1)).filter fun name => decide (name ∉ module.params.map (·.1))
  memory : ∀ name object, (name, object) ∈ module.params → s'.memory object =
    ((lastWrite ts name).map (copied cast module dtype object)).getD (s.memory object)

theorem copyTensors_copied {ts : List (String × CheckpointTensor α)} {s : Loading α}
    (hfits : Fits module ts) :
    Copied cast module dtype ts s (copyTensors cast module dtype ts s).1 := by
  induction ts generalizing s with
  | nil =>
      refine ⟨fun name => ?_, (List.append_nil _).symm, fun _ _ _ => rfl⟩
      exact (or_iff_left fun h => List.not_mem_nil h.1).symm
  | cons x ts ih =>
      obtain ⟨name, t⟩ := x
      have hrest : Fits module ts := fun y hy => hfits y (List.mem_cons_of_mem _ hy)
      unfold copyTensors
      cases hlookup : module.params.lookup name with
      | none =>
          have hnot : name ∉ module.params.map (·.1) := lookup_eq_none_iff_keys.mp hlookup
          have h := ih (s := { s with report := { s.report with
            unexpected := s.report.unexpected ++ [name] } }) hrest
          refine ⟨fun n => ?_, ?_, fun n object hn => ?_⟩
          · rw [h.seen, List.map_cons, List.mem_cons]
            refine or_congr_right (and_congr_left fun hmem => ?_)
            exact (or_iff_right fun hn : n = name => hnot (hn ▸ hmem)).symm
          · rw [h.unexpected, List.map_cons, List.filter_cons, if_pos (decide_eq_true hnot)]
            exact List.append_assoc ..
          · rw [h.memory n object hn, lastWrite_cons, if_neg, Option.or_none]
            rintro rfl
            exact hnot (List.mem_map.mpr ⟨_, hn, rfl⟩)
      | some object =>
          have hparam := mem_params_iff.mp hlookup
          have hmem : name ∈ module.params.map (·.1) := List.mem_map.mpr ⟨_, hparam, rfl⟩
          have hshape := hfits (name, t) List.mem_cons_self object hparam
          dsimp only
          rw [if_neg (not_not.mpr hshape)]
          have h := ih (s := s.copy cast module dtype name object t) hrest
          refine ⟨fun n => ?_, ?_, fun n o hn => ?_⟩
          · rw [h.seen, List.map_cons, List.mem_cons]
            change n ∈ name :: s.seen ∨ _ ↔ _
            rw [List.mem_cons]
            constructor
            · rintro ((rfl | hs) | ⟨hts, hp⟩)
              · exact Or.inr ⟨Or.inl rfl, hmem⟩
              · exact Or.inl hs
              · exact Or.inr ⟨Or.inr hts, hp⟩
            · rintro (hs | ⟨rfl | hts, hp⟩)
              · exact Or.inl (Or.inr hs)
              · exact Or.inl (Or.inl rfl)
              · exact Or.inr ⟨hts, hp⟩
          · rw [h.unexpected, List.map_cons, List.filter_cons,
              if_neg (by rw [decide_eq_true_eq]; exact not_not.mpr hmem)]
            rfl
          · rw [h.memory n o hn, lastWrite_cons]
            cases hlast : lastWrite ts n with
            | some u => rfl
            | none =>
                rw [Option.none_or]
                change Function.update s.memory object _ o = _
                by_cases heq : name = n
                · subst heq
                  cases hlookup.symm.trans (mem_params_iff.mpr hn)
                  rw [if_pos rfl, Function.update_self]
                  rfl
                · rw [if_neg heq, Function.update_of_ne]
                  · rfl
                  · rintro rfl
                    exact heq (param_name_inj hparam hn)

end Loop

/-! ## §3  Strict loads -/

section Strict

variable (cast : δ → α → α) (module : Module δ) (memory : ℕ → α) (files : List (Shard α))
  (dtype : Option δ) (tied : List String)

/-- The names a checkpoint has to supply. -/
def Module.untied : List String :=
  (module.params.map (·.1)).filter fun name => decide (name ∉ tied)

/-- A checkpoint that supplies every untied name, no unknown one, and only shapes that fit. -/
structure Accepted : Prop where
  fits : Fits module (iterCheckpointTensors files)
  known : ∀ x ∈ iterCheckpointTensors files, x.1 ∈ module.params.map (·.1)
  filled : ∀ name ∈ module.untied tied, name ∈ (iterCheckpointTensors files).map (·.1)

/-- A shape that does not fit, an unexpected tensor, or a missing parameter. -/
def Refused : Prop :=
  (∃ x ∈ iterCheckpointTensors files, ∃ object, (x.1, object) ∈ module.params ∧
      module.shape object ≠ x.2.shape) ∨
    (∃ x ∈ iterCheckpointTensors files, x.1 ∉ module.params.map (·.1)) ∨
    ∃ name ∈ module.untied tied, name ∉ (iterCheckpointTensors files).map (·.1)

/-- The tensors and the untied parameters correspond one to one with equal shapes, and every
one of these parameters holds the tensor of its own name. -/
structure OneToOne (after : ℕ → α) : Prop where
  names : ((iterCheckpointTensors files).map (·.1)).Perm (module.untied tied)
  shapes : Fits module (iterCheckpointTensors files)
  holds : ∀ x ∈ iterCheckpointTensors files, ∀ object, (x.1, object) ∈ module.params →
    after object = copied cast module dtype object x.2

/-- No name is supplied twice, and no tied one at all. -/
structure Unambiguous : Prop where
  nodup : ((iterCheckpointTensors files).map (·.1)).Nodup
  untied : ∀ x ∈ iterCheckpointTensors files, x.1 ∉ tied

variable {cast module memory files dtype tied}

theorem untied_nodup : (module.untied tied).Nodup := module.params_names_nodup.filter _

theorem refused_iff : Refused module files tied ↔ ¬ Accepted module files tied := by
  constructor
  · rintro (⟨x, hx, object, hobject, hshape⟩ | ⟨x, hx, hunknown⟩ | ⟨name, hname, hunfilled⟩) h
    · exact hshape (h.fits x hx object hobject)
    · exact hunknown (h.known x hx)
    · exact hunfilled (h.filled name hname)
  · intro h
    by_contra hnone
    unfold Refused at hnone
    push Not at hnone
    exact h ⟨hnone.1, hnone.2.1, hnone.2.2⟩

/-- What a load ends with once the loop has gone through. -/
theorem loadWeights_of_fits (hfits : Fits module (iterCheckpointTensors files)) :
    ∃ s, Copied cast module dtype (iterCheckpointTensors files)
        ⟨memory, [], { files := files.map (·.path) }⟩ s ∧
      (loadWeights cast module memory files dtype tied true).1 = s.memory ∧
      ((∃ report, (loadWeights cast module memory files dtype tied true).2 = .ok report) ↔
        (((module.params.map (·.1)).filter fun name => decide (name ∉ s.seen)).filter
            fun name => decide (name ∉ tied)) = [] ∧ s.report.unexpected = []) := by
  refine ⟨_, copyTensors_copied hfits, ?_⟩
  have hnone : (copyTensors cast module dtype (iterCheckpointTensors files)
      ⟨memory, [], { files := files.map (·.path) }⟩).2 = none := copyTensors_returns.mpr hfits
  unfold loadWeights
  generalize copyTensors cast module dtype (iterCheckpointTensors files)
    ⟨memory, [], { files := files.map (·.path) }⟩ = r at hnone ⊢
  obtain ⟨s, error⟩ := r
  subst hnone
  dsimp only
  generalize ((module.params.map (·.1)).filter fun name => decide (name ∉ s.seen)).filter
    (fun name => decide (name ∉ tied)) = missing
  rw [Bool.true_and, LoadReport.ok]
  dsimp only
  cases missing with
  | nil =>
      cases hunexpected : s.report.unexpected with
      | nil => exact ⟨rfl, iff_of_true ⟨_, rfl⟩ ⟨rfl, rfl⟩⟩
      | cons name names => exact ⟨rfl, iff_of_false (fun h => nomatch h) fun h => nomatch h.2⟩
  | cons name names => exact ⟨rfl, iff_of_false (fun h => nomatch h) fun h => nomatch h.1⟩

/-- A strict load returns exactly for an accepted checkpoint. -/
theorem loadWeights_returns :
    (∃ report, (loadWeights cast module memory files dtype tied true).2 = .ok report) ↔
      Accepted module files tied := by
  by_cases hfits : Fits module (iterCheckpointTensors files)
  · obtain ⟨s, hcopied, -, hreturns⟩ :=
      @loadWeights_of_fits α δ cast module memory files dtype tied hfits
    rw [hreturns, List.filter_eq_nil_iff, hcopied.unexpected, List.nil_append,
      List.filter_eq_nil_iff]
    constructor
    · rintro ⟨hmissing, hunexpected⟩
      refine ⟨hfits, fun x hx => ?_, fun name hname => ?_⟩
      · have hknown := hunexpected x.1 (List.mem_map.mpr ⟨x, hx, rfl⟩)
        rwa [decide_eq_true_eq, not_not] at hknown
      · obtain ⟨hparam, huntied⟩ := List.mem_filter.mp hname
        by_contra hnot
        refine hmissing name (List.mem_filter.mpr ⟨hparam, decide_eq_true fun hseen => ?_⟩) huntied
        exact hnot (((hcopied.seen name).mp hseen).resolve_left List.not_mem_nil).1
    · intro h
      constructor
      · intro name hname huntied
        obtain ⟨hparam, hunseen⟩ := List.mem_filter.mp hname
        have hfilled := h.filled name (List.mem_filter.mpr ⟨hparam, huntied⟩)
        exact of_decide_eq_true hunseen ((hcopied.seen name).mpr (Or.inr ⟨hfilled, hparam⟩))
      · intro name hname
        obtain ⟨x, hx, rfl⟩ := List.mem_map.mp hname
        rw [decide_eq_true_eq, not_not]
        exact h.known x hx
  · refine iff_of_false ?_ fun h => hfits h.fits
    rintro ⟨report, hreport⟩
    have hsome : (copyTensors cast module dtype (iterCheckpointTensors files)
        ⟨memory, [], { files := files.map (·.path) }⟩).2 ≠ none := mt copyTensors_returns.mp hfits
    unfold loadWeights at hreport
    generalize copyTensors cast module dtype (iterCheckpointTensors files)
      ⟨memory, [], { files := files.map (·.path) }⟩ = r at hsome hreport
    obtain ⟨s, error⟩ := r
    cases error with
    | none => exact hsome rfl
    | some e => cases hreport

/-- An unambiguous checkpoint that is accepted fills every untied parameter with the tensor
of its own name. -/
theorem oneToOne_of_accepted (h : Accepted module files tied) (hu : Unambiguous files tied) :
    OneToOne cast module files dtype tied
      (loadWeights cast module memory files dtype tied true).1 := by
  obtain ⟨s, hcopied, hmemory, -⟩ :=
    @loadWeights_of_fits α δ cast module memory files dtype tied h.fits
  refine ⟨?_, h.fits, ?_⟩
  · rw [List.perm_ext_iff_of_nodup hu.nodup untied_nodup]
    intro name
    constructor
    · intro hname
      obtain ⟨x, hx, rfl⟩ := List.mem_map.mp hname
      exact List.mem_filter.mpr ⟨h.known x hx, decide_eq_true (hu.untied x hx)⟩
    · exact h.filled name
  · intro x hx object hobject
    rw [hmemory, hcopied.memory x.1 object hobject, lastWrite_eq_of_nodup hu.nodup hx]
    rfl

/-- A strict load that returns has loaded the tensors one to one, exactly if the checkpoint
supplies no name twice and no tied one, or is refused for something else. -/
theorem strict_load_iff :
    ((∃ report, (loadWeights cast module memory files dtype tied true).2 = .ok report) →
        OneToOne cast module files dtype tied
          (loadWeights cast module memory files dtype tied true).1) ↔
      Unambiguous files tied ∨ Refused module files tied := by
  rw [refused_iff, loadWeights_returns]
  constructor
  · intro h
    by_cases haccepted : Accepted module files tied
    · have hnames := (h haccepted).names
      refine Or.inl ⟨hnames.nodup_iff.mpr untied_nodup, fun x hx => ?_⟩
      have hmem := hnames.subset (List.mem_map.mpr ⟨x, hx, rfl⟩)
      exact of_decide_eq_true (List.mem_filter.mp hmem).2
    · exact Or.inr haccepted
  · rintro (hu | hrefused) haccepted
    · exact oneToOne_of_accepted haccepted hu
    · exact absurd haccepted hrefused

end Strict

/-! ## §4  Two spellings of one name -/

/-- A module of one parameter. -/
def normModule : Module Unit where
  entries := [⟨"model.norm.weight", 0, .parameter⟩]
  shape := fun _ => [1]
  dtype := fun _ => ()
  names_nodup := by decide
  separate := by decide

/-- A shard with its tensor in two spellings. -/
def twoSpellings : List (Shard ℕ) :=
  [⟨"model.safetensors",
    [("model.norm.weight", ⟨[1], 4, 7⟩), ("transformer.norm.weight", ⟨[1], 4, 8⟩)]⟩]

/-- The load returns, and the parameter holds the tensor of the other spelling. -/
theorem twoSpellings_overwritten :
    (∃ report, (loadWeights (fun _ x => x) normModule (fun _ => 0) twoSpellings none [] true).2 =
        .ok report) ∧
      (loadWeights (fun _ x => x) normModule (fun _ => 0) twoSpellings none [] true).1 0 = 8 ∧
      ¬ OneToOne (fun _ x => x) normModule twoSpellings none []
        (loadWeights (fun _ x => x) normModule (fun _ => 0) twoSpellings none [] true).1 := by
  refine ⟨⟨_, rfl⟩, rfl, fun h => ?_⟩
  have hlength := h.names.length_eq
  exact absurd hlength (by decide)

end TurboServe.Model
