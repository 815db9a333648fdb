import TurboServe.Lib.Association
import TurboServe.Lora.AdapterFile
import TurboServe.Lib.LastWrite

/-!
# Adapter files: faithful or refused

What a directory must hold to be loaded, and when what is loaded is what it holds.
-/

namespace TurboServe.Lora

open TurboServe.Lib

variable {V δ α : Type}

/-! ## §1  The factors of a file -/

/-- The key names a factor of a module. -/
def Names (key : String) (factor : String × Side) : Prop :=
  peftModuleName key = .ok (some factor)

/-- The tensors that are factors, under what they name. -/
def named (ts : List (String × FileTensor δ α)) : List ((String × Side) × FileTensor δ α) :=
  ts.filterMap fun x =>
    match peftModuleName x.1 with
    | .ok (some factor) => some (factor, x.2)
    | _ => none

theorem mem_named {ts : List (String × FileTensor δ α)} {factor : String × Side}
    {t : FileTensor δ α} :
    (factor, t) ∈ named ts ↔ ∃ x ∈ ts, Names x.1 factor ∧ x.2 = t := by
  unfold named Names
  rw [List.mem_filterMap]
  refine exists_congr fun x => and_congr_right fun _ => ?_
  cases peftModuleName x.1 with
  | error e => simp
  | ok n =>
      cases n with
      | none => simp
      | some f => simp

theorem lookup_assign {K W : Type} [DecidableEq K] (k : K) (w : W) (d : List (K × W))
    (k' : K) : (assign k w d).lookup k' = if k = k' then some w else d.lookup k' := by
  induction d with
  | nil =>
      rw [assign, lookup_cons_if, List.lookup_nil]
      exact if_congr eq_comm rfl rfl
  | cons e d ih =>
      rw [assign]
      split
      · rename_i hek
        rw [lookup_cons_if, lookup_cons_if, ← hek]
        by_cases h : k' = e.1
        · rw [if_pos h, if_pos h.symm]
        · rw [if_neg h, if_neg h, if_neg (Ne.symm h)]
      · rename_i hek
        rw [lookup_cons_if, lookup_cons_if, ih]
        by_cases h : k' = e.1
        · rw [if_pos h, if_pos h, if_neg fun hk => hek (h ▸ hk.symm)]
        · rw [if_neg h, if_neg h]

/-- A dict holds under each key what was last assigned to it. -/
theorem lookup_dictOf {K W : Type} [DecidableEq K] (entries : List (K × W)) (k : K) :
    (dictOf entries).lookup k = lastWrite entries k := by
  induction entries using List.reverseRecOn with
  | nil => rfl
  | append_singleton entries e ih =>
      unfold dictOf at ih ⊢
      rw [List.foldl_append, lastWrite_append_singleton, ← ih]
      exact lookup_assign e.1 e.2 _ k

/-- All factors of a file, module by module. -/
def factorsOf (ts : List (String × FileTensor δ α)) : List (String × Factors δ α) :=
  (named ts).foldl (fun f x => putFactor f x.1.1 x.1.2 x.2) []

theorem collectFactors_ok_iff {ts : List (String × FileTensor δ α)}
    {f₀ f : List (String × Factors δ α)} :
    collectFactors ts f₀ = .ok f ↔ (∀ x ∈ ts, ∃ n, peftModuleName x.1 = .ok n) ∧
      f = (named ts).foldl (fun f x => putFactor f x.1.1 x.1.2 x.2) f₀ := by
  induction ts generalizing f₀ with
  | nil =>
      rw [collectFactors]
      constructor
      · intro h
        exact ⟨fun x hx => (nomatch hx), (Except.ok.inj h).symm⟩
      · rintro ⟨-, rfl⟩
        rfl
  | cons x ts ih =>
      rw [collectFactors, List.forall_mem_cons, named, List.filterMap_cons]
      cases hx : peftModuleName x.1 with
      | error e =>
          refine iff_of_false (fun h => nomatch h) ?_
          rintro ⟨⟨⟨n, hn⟩, -⟩, -⟩
          cases hn
      | ok n =>
          have hn : ∃ m, (Except.ok n : Except AdapterFault _) = .ok m := ⟨n, rfl⟩
          cases n with
          | none =>
              rw [and_iff_right hn]
              exact ih
          | some factor =>
              rw [and_iff_right hn]
              exact ih

/-- The factors of a module are the last tensors that name them. -/
theorem lookup_factorsOf (ts : List (String × FileTensor δ α)) (m : String) (side : Side) :
    ((factorsOf ts).lookup m).bind (·.get side) = lastWrite (named ts) (m, side) := by
  unfold factorsOf
  induction named ts using List.reverseRecOn with
  | nil => rfl
  | append_singleton ws w ih =>
      rw [List.foldl_append, lastWrite_append_singleton, List.foldl_cons, List.foldl_nil,
        putFactor, lookup_assign]
      by_cases hm : w.1.1 = m
      · subst hm
        rw [if_pos rfl, Option.bind_some]
        have hold : ((((ws.foldl (fun f x => putFactor f x.1.1 x.1.2 x.2) []).lookup
            w.1.1).getD {}).get side) = lastWrite ws (w.1.1, side) := by
          rw [← ih]
          cases (ws.foldl (fun f x => putFactor f x.1.1 x.1.2 x.2) []).lookup w.1.1 with
          | none => cases side <;> rfl
          | some f => rfl
        by_cases hside : w.1.2 = side
        · subst hside
          rw [if_pos (rfl : w.1 = (w.1.1, w.1.2))]
          cases w.1.2 <;> rfl
        · rw [if_neg fun h => hside (congrArg Prod.snd h), ← hold]
          revert hside
          cases w.1.2 <;> cases side <;> simp [Factors.set, Factors.get]
      · rw [if_neg hm, if_neg (fun h => hm (congrArg Prod.fst h)), ih]

theorem nodup_factorsOf (ts : List (String × FileTensor δ α)) :
    ((factorsOf ts).map (·.1)).Nodup := by
  unfold factorsOf
  induction named ts using List.reverseRecOn with
  | nil => exact .nil
  | append_singleton ws w ih =>
      rw [List.foldl_append]
      exact (nodup_keys_assign ih _ _).1

/-- A module is only there if a tensor names one of its sides. -/
theorem factorsOf_side {ts : List (String × FileTensor δ α)} {m : String}
    {f : Factors δ α} (h : (factorsOf ts).lookup m = some f) :
    ∃ side, (lastWrite (named ts) (m, side)).isSome := by
  unfold factorsOf at h
  revert f
  induction named ts using List.reverseRecOn with
  | nil => exact fun h => nomatch h
  | append_singleton ws w ih =>
      intro f h
      rw [List.foldl_append, List.foldl_cons, List.foldl_nil, putFactor, lookup_assign] at h
      by_cases hm : w.1.1 = m
      · refine ⟨w.1.2, ?_⟩
        rw [lastWrite_append_singleton, if_pos (show w.1 = (m, w.1.2) from Prod.ext hm rfl)]
        rfl
      · rw [if_neg hm] at h
        obtain ⟨side, hside⟩ := ih h
        refine ⟨side, ?_⟩
        rw [lastWrite_append_singleton, if_neg fun hw => hm (congrArg Prod.fst hw)]
        exact hside

/-- The modules the loop goes through, each with the last tensors of its two sides. -/
theorem mem_factorsOf {ts : List (String × FileTensor δ α)} {m : String}
    {f : Factors δ α} : (m, f) ∈ factorsOf ts ↔
      (∃ side, (lastWrite (named ts) (m, side)).isSome) ∧
        f = ⟨lastWrite (named ts) (m, .a), lastWrite (named ts) (m, .b)⟩ := by
  have ha := lookup_factorsOf ts m .a
  have hb := lookup_factorsOf ts m .b
  constructor
  · intro h
    have hl : (factorsOf ts).lookup m = some f := lookup_of_mem (nodup_factorsOf ts) h
    rw [hl, Option.bind_some] at ha hb
    rw [← ha, ← hb]
    exact ⟨factorsOf_side hl, rfl⟩
  · rintro ⟨⟨side, hside⟩, rfl⟩
    rw [← lookup_factorsOf] at hside
    obtain ⟨f, hf⟩ : ∃ f, (factorsOf ts).lookup m = some f := by
      cases hl : (factorsOf ts).lookup m with
      | none => simp [hl] at hside
      | some f => exact ⟨f, rfl⟩
    rw [hf, Option.bind_some] at ha hb
    rw [← ha, ← hb]
    exact mem_of_lookup hf

/-! ## §2  One module -/

theorem makeWeights_ok {m : String} {x y : FileTensor δ α} {scaling : α}
    {w : LoRAWeights δ α} (h : makeWeights m x y scaling = .ok w) :
    ∃ r i k, x.shape = [r, i] ∧ y.shape = [k, r] ∧ w.a = ⟨r, i, x.entry⟩ ∧
      w.b = ⟨k, r, y.entry⟩ ∧ w.scaling = scaling := by
  unfold makeWeights at h
  split at h
  · rename_i r i k r' hx hy
    split at h
    · rename_i hr
      obtain rfl := Except.ok.inj h
      subst hr
      exact ⟨r, i, k, hx, hy, rfl, rfl, rfl⟩
    · cases h
  · cases h

theorem makeWeights_of_shapes {m : String} {x y : FileTensor δ α} (scaling : α) {r i k : ℕ}
    (hx : x.shape = [r, i]) (hy : y.shape = [k, r]) :
    ∃ w, makeWeights m x y scaling = .ok w := by
  unfold makeWeights
  rw [hx, hy]
  exact ⟨_, dif_pos rfl⟩

@[simp] theorem shape_toDtype [DecidableEq δ] (T : Numerics δ α) (dtype : Option δ)
    (t : FileTensor δ α) : (t.toDtype T dtype).shape = t.shape := by
  unfold FileTensor.toDtype
  split
  · rfl
  · split <;> rfl

section Build

variable [DecidableEq δ] [Div α] (P : Builtins V α) (T : Numerics δ α) (o : Options V α)
  (dtype : Option δ)

/-- The module ends with the key, behind a dot. -/
def DottedSuffix (key module : String) : Prop := ('.' :: key.toList) <:+ module.toList

/-- The value a pattern has for a module: that of its own key, else of the first key that
is a dotted suffix, else the default. -/
structure OwnValue (pattern : Config V) (m : String) (default value : α) : Prop where
  exact_key : ∀ v, pattern.lookup m = some v → P.float v = .ok value
  suffix_key : pattern.lookup m = none → ∀ before e after, pattern = before ++ e :: after →
    DottedSuffix e.1 m → (∀ e' ∈ before, ¬ DottedSuffix e'.1 m) → P.float e.2 = .ok value
  no_key : pattern.lookup m = none → (∀ e ∈ pattern, ¬ DottedSuffix e.1 m) → value = default

omit [Div α] in
theorem ownValue_of_lookup {pattern : Except AdapterFault (Config V)} {m : String}
    {default value : α} (h : patternLookup P pattern m default = .ok value) :
    ∃ entries, pattern = .ok entries ∧ OwnValue P entries m default value := by
  unfold patternLookup at h
  cases pattern with
  | error e => cases h
  | ok entries =>
      refine ⟨entries, rfl, ?_⟩
      dsimp only at h
      cases hl : entries.lookup m with
      | some v =>
          rw [hl] at h
          refine ⟨fun v' hv => ?_, fun hn => ?_, fun hn => ?_⟩
          · rw [hl] at hv
            exact Option.some_inj.mp hv ▸ h
          · rw [hl] at hn
            cases hn
          · rw [hl] at hn
            cases hn
      | none =>
          -- no entry is the module itself
          have hne : ∀ e ∈ entries, m ≠ e.1 := by
            intro e he hm
            have := List.lookup_eq_none_iff.mp hl e he
            simp [hm] at this
          rw [hl] at h
          dsimp only at h
          refine ⟨fun v hv => ?_, fun _ before e after heq hsuffix hbefore => ?_,
            fun _ hnone => ?_⟩
          · rw [hl] at hv
            cases hv
          · have hfind : entries.find? (fun kv =>
                ('.' :: kv.1.toList) <:+ m.toList ∨ m = kv.1) = some e := by
              rw [heq, List.find?_append, List.find?_eq_none.mpr, Option.none_or]
              · exact List.find?_cons_of_pos (decide_eq_true (.inl hsuffix))
              · intro e' he'
                rw [decide_eq_true_eq, not_or]
                exact ⟨hbefore e' he', hne e' (heq ▸ List.mem_append_left _ he')⟩
            rw [hfind] at h
            exact h
          · have hfind : entries.find? (fun kv =>
                ('.' :: kv.1.toList) <:+ m.toList ∨ m = kv.1) = none := by
              refine List.find?_eq_none.mpr fun e he => ?_
              rw [decide_eq_true_eq, not_or]
              exact ⟨hnone e he, hne e he⟩
            rw [hfind] at h
            exact (Except.ok.inj h).symm

/-- What the factors `x` and `y` of a module must be to be loaded. -/
def Buildable (m : String) (x y : FileTensor δ α) : Prop :=
  ∃ r i k, x.shape = [r, i] ∧ y.shape = [k, r] ∧ 1 ≤ r ∧
    (∃ alpha, patternLookup P o.alphaPattern m o.baseAlpha = .ok alpha) ∧
    ∃ q, patternLookup P o.rankPattern m (P.ofInt r) = .ok q ∧ P.trunc q = .ok r

/-- What is then loaded: the two matrices, and the module's own alpha over its own rank, or
over its root. -/
def Holds (m : String) (x y : FileTensor δ α) (w : LoRAWeights δ α) : Prop :=
  ∃ r i k, x.shape = [r, i] ∧ y.shape = [k, r] ∧
    w.a = ⟨r, i, (x.toDtype T dtype).entry⟩ ∧ w.b = ⟨k, r, (y.toDtype T dtype).entry⟩ ∧
    ∃ entries alpha, o.alphaPattern = .ok entries ∧ OwnValue P entries m o.baseAlpha alpha ∧
      w.scaling = alpha / if o.useRslora then P.sqrt r else P.ofInt r

/-- A module is built exactly from two buildable factors. -/
theorem buildWeights_ok {m : String} {f : Factors δ α} {e : String × LoRAWeights δ α}
    (h : buildWeights P T o dtype (m, f) = .ok e) :
    e.1 = m ∧ ∃ x y, f.a = some x ∧ f.b = some y ∧ Buildable P o m x y ∧
      Holds P T o dtype m x y e.2 := by
  unfold buildWeights at h
  cases hx : f.a with
  | none => simp [hx] at h
  | some x =>
      cases hy : f.b with
      | none => simp [hx, hy] at h
      | some y =>
          simp only [hx, hy, shape_toDtype] at h
          cases hshape : x.shape with
          | nil => simp [hshape] at h
          | cons rank rest =>
              simp only [hshape] at h
              obtain ⟨alpha, halpha, h⟩ := bind_ok_iff.mp h
              obtain ⟨scaling, hscaling, h⟩ := bind_ok_iff.mp h
              obtain ⟨w, hw, h⟩ := bind_ok_iff.mp h
              obtain ⟨q, hq, h⟩ := bind_ok_iff.mp h
              obtain ⟨n, hn, h⟩ := bind_ok_iff.mp h
              obtain ⟨hrank, h⟩ := check_ok_iff.mp h
              obtain ⟨hpos, hscaled⟩ := check_ok_iff.mp hscaling
              obtain ⟨r, i, k, hsx, hsy, hwa, hwb, hws⟩ := makeWeights_ok hw
              rw [shape_toDtype] at hsx hsy
              obtain ⟨rfl, rfl⟩ := List.cons_eq_cons.mp (hshape.symm.trans hsx)
              obtain rfl := Except.ok.inj h
              obtain ⟨entries, hentries, hown⟩ := ownValue_of_lookup P halpha
              refine ⟨rfl, x, y, rfl, rfl, ⟨rank, i, k, hsx, hsy, by omega, ⟨alpha, halpha⟩,
                q, hq, ?_⟩, rank, i, k, hsx, hsy, hwa, hwb, entries, alpha, hentries, hown, ?_⟩
              · rw [hn, not_not.mp hrank]
              · rw [hws, ← Except.ok.inj hscaled]

theorem buildWeights_of_buildable {m : String} {f : Factors δ α} {x y : FileTensor δ α}
    (hx : f.a = some x) (hy : f.b = some y) (h : Buildable P o m x y) :
    ∃ w, buildWeights P T o dtype (m, f) = .ok w := by
  obtain ⟨r, i, k, hsx, hsy, hpos, ⟨alpha, halpha⟩, q, hq, hn⟩ := h
  obtain ⟨w, hw⟩ := makeWeights_of_shapes (m := m) (x := x.toDtype T dtype)
    (y := y.toDtype T dtype) (alpha / if o.useRslora then P.sqrt r else P.ofInt r)
    ((shape_toDtype T dtype x).trans hsx) ((shape_toDtype T dtype y).trans hsy)
  refine ⟨(m, w), ?_⟩
  unfold buildWeights
  simp only [hx, hy, shape_toDtype, hsx]
  refine bind_ok_iff.mpr ⟨alpha, halpha, bind_ok_iff.mpr ⟨_, ?_, bind_ok_iff.mpr ⟨w, hw,
    bind_ok_iff.mpr ⟨q, hq, bind_ok_iff.mpr ⟨r, hn, ?_⟩⟩⟩⟩⟩
  · exact if_neg (by omega)
  · exact if_neg (fun h => h rfl)

end Build

/-! ## §3  A directory -/

section Directory

variable [DecidableEq δ] [Div α] (P : Builtins V α) (T : Numerics δ α)
  (dir : AdapterDirectory V δ α) (name : Option String) (dtype : Option δ)

/-- No two keys of the weights file name one factor. -/
def Unambiguous : Prop :=
  ∀ ts, readTensors dir.weights = .ok ts →
    ∀ x ∈ ts, ∀ y ∈ ts, ∀ factor, Names x.1 factor → Names y.1 factor → x.1 = y.1

/-- Nothing else is wrong with the directory: the files can be read and their config is
one of a supported variant, every key can be parsed and some key names a factor, and the
last tensors to name the two factors of a module can be built. -/
def Acceptable : Prop :=
  dir.isDir = true ∧ ∃ config ts o, readConfig P dir.config = .ok config ∧
    readTensors dir.weights = .ok ts ∧ readOptions P config = .ok o ∧
    (∀ x ∈ ts, ∃ n, peftModuleName x.1 = .ok n) ∧ named ts ≠ [] ∧
    (∀ m side, (lastWrite (named ts) (m, side)).isSome → ∃ x y,
      lastWrite (named ts) (m, .a) = some x ∧ lastWrite (named ts) (m, .b) = some y ∧
        Buildable P o m x y) ∧
    (∃ modules, targetModulesOf P config = .ok modules) ∧
    (name.getD "" = "" → dir.name ≠ "")

/-- The adapter is the one of the directory: no key names an unsupported feature, its
factors and those of the file are one to one, and each module holds its own. -/
structure Faithful (A : LoadedAdapter δ α) (config : Config V)
    (ts : List (String × FileTensor δ α)) (o : Options V α) : Prop where
  config_eq : readConfig P dir.config = .ok config
  tensors_eq : readTensors dir.weights = .ok ts
  options_eq : readOptions P config = .ok o
  supported : ∀ x ∈ ts, ∀ marker ∈ unsupportedMarkers, ¬ marker.1.toList <:+: x.1.toList
  single : ∀ x ∈ ts, ∀ y ∈ ts, ∀ factor, Names x.1 factor → Names y.1 factor → x.1 = y.1
  covered : ∀ x ∈ ts, ∀ m side, Names x.1 (m, side) → ∃ w, A.weights.lookup m = some w
  own : ∀ m w, A.weights.lookup m = some w → ∃ x ∈ ts, ∃ y ∈ ts,
    Names x.1 (m, .a) ∧ Names y.1 (m, .b) ∧ Holds P T o dtype m x.2 y.2 w

variable {P T dir name dtype}

theorem supported_of_ok {key : String} {n : Option (String × Side)}
    (h : peftModuleName key = .ok n) :
    ∀ marker ∈ unsupportedMarkers, ¬ marker.1.toList <:+: key.toList := by
  unfold peftModuleName at h
  split at h
  · cases h
  · rename_i hnone
    intro marker hmarker hin
    exact absurd (decide_eq_true hin) (List.find?_eq_none.mp hnone marker hmarker)

/-- The modules of a file, each built from the last tensors that name its factors. -/
structure BuiltFrom (P : Builtins V α) (T : Numerics δ α) (o : Options V α)
    (dtype : Option δ) (ts : List (String × FileTensor δ α))
    (built : List (String × LoRAWeights δ α)) : Prop where
  covers : ∀ m side, (lastWrite (named ts) (m, side)).isSome → ∃ x y w,
    lastWrite (named ts) (m, .a) = some x ∧ lastWrite (named ts) (m, .b) = some y ∧
      Buildable P o m x y ∧ (m, w) ∈ built
  own : ∀ m w, (m, w) ∈ built → ∃ x y, lastWrite (named ts) (m, .a) = some x ∧
    lastWrite (named ts) (m, .b) = some y ∧ Holds P T o dtype m x y w

theorem BuiltFrom.of_mapM {o : Options V α} {ts : List (String × FileTensor δ α)}
    {built : List (String × LoRAWeights δ α)}
    (h : ((factorsOf ts).insertionSort fun p q => p.1 ≤ q.1).mapM
      (buildWeights P T o dtype) = .ok built) : BuiltFrom P T o dtype ts built := by
  have hrel := mapM_ok_iff.mp h
  constructor
  · intro m side hside
    have hmem : (m, (⟨lastWrite (named ts) (m, .a), lastWrite (named ts) (m, .b)⟩ :
        Factors δ α)) ∈ (factorsOf ts).insertionSort fun p q => p.1 ≤ q.1 :=
      (List.mem_insertionSort _).mpr (mem_factorsOf.mpr ⟨⟨side, hside⟩, rfl⟩)
    obtain ⟨e, he, hbuild⟩ := related_left hrel hmem
    obtain ⟨rfl, x, y, hx, hy, hxy, -⟩ := buildWeights_ok P T o dtype hbuild
    exact ⟨x, y, e.2, hx, hy, hxy, he⟩
  · intro m w hw
    obtain ⟨⟨m', f⟩, he, hbuild⟩ := related_right hrel hw
    obtain ⟨heq, x, y, hx, hy, -, hholds⟩ := buildWeights_ok P T o dtype hbuild
    obtain rfl : m = m' := heq
    obtain ⟨-, rfl⟩ := mem_factorsOf.mp ((List.mem_insertionSort _).mp he)
    exact ⟨x, y, hx, hy, hholds⟩

/-- What a load that returns has done. -/
theorem loaded_spec {A : LoadedAdapter δ α}
    (h : loadPeftAdapter P T dir name dtype = .ok A) :
    Acceptable P dir name ∧ ∃ config ts o built, readConfig P dir.config = .ok config ∧
      readTensors dir.weights = .ok ts ∧ readOptions P config = .ok o ∧
      (∀ x ∈ ts, ∃ n, peftModuleName x.1 = .ok n) ∧
      BuiltFrom P T o dtype ts built ∧ A.weights = dictOf built := by
  unfold loadPeftAdapter at h
  obtain ⟨hdir, h⟩ := check_ok_iff.mp h
  obtain ⟨config, hconfig, h⟩ := bind_ok_iff.mp h
  obtain ⟨ts, hts, h⟩ := bind_ok_iff.mp h
  obtain ⟨o, ho, h⟩ := bind_ok_iff.mp h
  obtain ⟨factors, hfactors, h⟩ := bind_ok_iff.mp h
  obtain ⟨hkeys, rfl⟩ := collectFactors_ok_iff.mp hfactors
  obtain ⟨built, hbuilt, h⟩ := bind_ok_iff.mp h
  have hfrom : BuiltFrom P T o dtype ts built := .of_mapM hbuilt
  by_cases hne : dictOf built = []
  · simp only [dif_pos hne] at h
    cases h
  · simp only [dif_neg hne] at h
    obtain ⟨modules, hmodules, h⟩ := bind_ok_iff.mp h
    by_cases hname : (if name.getD "" = "" then dir.name else name.getD "") = ""
    · rw [dif_pos hname] at h
      cases h
    · rw [dif_neg hname] at h
      obtain rfl := Except.ok.inj h
      refine ⟨⟨by simpa using hdir, config, ts, o, hconfig, hts, ho, hkeys, ?_, ?_,
        ⟨modules, hmodules⟩, fun hempty hdirname => ?_⟩, config, ts, o, built, hconfig, hts,
        ho, hkeys, hfrom, rfl⟩
      · intro hnil
        have hbuiltnil : built = [] := by
          have hlen := (mapM_ok_iff.mp hbuilt).length_eq
          rw [hnil] at hlen
          exact List.eq_nil_of_length_eq_zero hlen.symm
        rw [hbuiltnil] at hne
        exact hne rfl
      · intro m side hside
        obtain ⟨x, y, w, hx, hy, hxy, -⟩ := hfrom.covers m side hside
        exact ⟨x, y, hx, hy, hxy⟩
      · rw [if_pos hempty] at hname
        exact hname hdirname

/-- An acceptable directory is loaded. -/
theorem exists_loaded (T : Numerics δ α) (dtype : Option δ) (h : Acceptable P dir name) :
    ∃ A, loadPeftAdapter P T dir name dtype = .ok A := by
  obtain ⟨hdir, config, ts, o, hconfig, hts, ho, hkeys, hne, hmodules, ⟨modules, htargets⟩,
    hname⟩ := h
  obtain ⟨built, hbuilt⟩ := exists_mapM_ok (f := buildWeights P T o dtype)
    ((factorsOf ts).insertionSort fun p q => p.1 ≤ q.1) (by
      rintro ⟨m, f⟩ he
      obtain ⟨⟨side, hside⟩, rfl⟩ := mem_factorsOf.mp ((List.mem_insertionSort _).mp he)
      obtain ⟨x, y, hx, hy, hxy⟩ := hmodules m side hside
      exact buildWeights_of_buildable P T o dtype hx hy hxy)
  have hfrom : BuiltFrom P T o dtype ts built := .of_mapM hbuilt
  have hdict : dictOf built ≠ [] := by
    intro hnil
    obtain ⟨⟨⟨m, side⟩, t⟩, hmem⟩ := List.exists_mem_of_ne_nil _ hne
    obtain ⟨x, y, w, -, -, -, hw⟩ := hfrom.covers m side
      (lastWrite_isSome_iff.mpr ⟨t, hmem⟩)
    have hsome := lastWrite_isSome_iff.mpr ⟨w, hw⟩
    rw [← lookup_dictOf, hnil] at hsome
    cases hsome
  have hnamed : (if name.getD "" = "" then dir.name else name.getD "") ≠ "" := by
    split
    · rename_i hempty
      exact hname hempty
    · rename_i hne
      exact hne
  unfold loadPeftAdapter
  rw [if_neg (by simp [hdir])]
  have hfactors : collectFactors ts [] = .ok (factorsOf ts) :=
    collectFactors_ok_iff.mpr ⟨hkeys, rfl⟩
  rw [bind_of_ok hconfig, bind_of_ok hts, bind_of_ok ho, bind_of_ok hfactors,
    bind_of_ok hbuilt]
  simp only [dif_neg hdict]
  rw [bind_of_ok htargets, dif_neg hnamed]
  exact ⟨_, rfl⟩

/-- A directory is loaded faithfully or refused exactly if its keys are unambiguous or it is
refused for something else. -/
theorem faithful_or_refused_iff (P : Builtins V α) (T : Numerics δ α)
    (dir : AdapterDirectory V δ α) (name : Option String) (dtype : Option δ) :
    (∀ A, loadPeftAdapter P T dir name dtype = .ok A →
      ∃ config ts o, Faithful P T dir dtype A config ts o) ↔
      Unambiguous dir ∨ ¬ Acceptable P dir name := by
  constructor
  · intro h
    by_cases hacc : Acceptable P dir name
    · obtain ⟨A, hA⟩ := exists_loaded T dtype hacc
      obtain ⟨config, ts, o, hfaithful⟩ := h A hA
      refine .inl fun ts' hts' => ?_
      obtain rfl := Except.ok.inj (hfaithful.tensors_eq.symm.trans hts')
      exact hfaithful.single
    · exact .inr hacc
  · intro h A hA
    obtain ⟨hacc, config, ts, o, built, hconfig, hts, ho, hkeys, hfrom, hweights⟩ :=
      loaded_spec hA
    refine ⟨config, ts, o, hconfig, hts, ho, fun x hx => ?_,
      h.resolve_right (not_not.mpr hacc) ts hts, fun x hx m side hnames => ?_,
      fun m w hw => ?_⟩
    · obtain ⟨n, hn⟩ := hkeys x hx
      exact supported_of_ok hn
    · obtain ⟨_, _, w, -, -, -, hw⟩ := hfrom.covers m side
        (lastWrite_isSome_iff.mpr ⟨x.2, mem_named.mpr ⟨x, hx, hnames, rfl⟩⟩)
      rw [hweights, lookup_dictOf]
      exact Option.isSome_iff_exists.mp (lastWrite_isSome_iff.mpr ⟨w, hw⟩)
    · rw [hweights, lookup_dictOf] at hw
      obtain ⟨x, y, hx, hy, hholds⟩ := hfrom.own m w (mem_of_lastWrite hw)
      obtain ⟨x', hx', hnx, rfl⟩ := mem_named.mp (mem_of_lastWrite hx)
      obtain ⟨y', hy', hny, rfl⟩ := mem_named.mp (mem_of_lastWrite hy)
      exact ⟨x', hx', y', hy', hnx, hny, hholds⟩

end Directory

/-! ## §4  Two adapter names in one file -/

/-- The built-ins where the config is empty. -/
def rationals : Builtins Unit ℚ where
  truthy := fun _ => false
  str := fun _ => ""
  float := fun _ => .ok 0
  int := fun _ => .ok 0
  items := fun _ => .ok []
  iter := fun _ => .ok []
  ofInt := fun n => n
  trunc := fun q => .ok ⌊q⌋
  sqrt := fun n => Nat.sqrt n

def column (x : ℚ) : FileTensor Unit ℚ := ⟨(), [1, 1], fun _ _ => x⟩

/-- The `A` factor of one projection under two adapter names, and one `B`. -/
def twoNames : List (String × FileTensor Unit ℚ) :=
  [("base_model.model.q.lora_A.first.weight", column 2),
    ("base_model.model.q.lora_A.second.weight", column 3),
    ("base_model.model.q.lora_B.first.weight", column 5)]

def twoNamesDirectory : AdapterDirectory Unit Unit ℚ :=
  ⟨"tenant-0", true, .object [], .tensors twoNames⟩

/-- Two tensors for one factor are loaded, and one of them is lost. -/
theorem twoNames_loaded :
    ¬ ∀ A, loadPeftAdapter rationals ⟨fun _ x => x, ()⟩ twoNamesDirectory none none = .ok A →
      ∃ config ts o, Faithful rationals ⟨fun _ x => x, ()⟩ twoNamesDirectory none A
        config ts o := by
  intro h
  have h₁ : peftModuleName "base_model.model.q.lora_A.first.weight" =
      .ok (some ("q", .a)) := by decide +kernel
  have h₂ : peftModuleName "base_model.model.q.lora_A.second.weight" =
      .ok (some ("q", .a)) := by decide +kernel
  have h₃ : peftModuleName "base_model.model.q.lora_B.first.weight" =
      .ok (some ("q", .b)) := by decide +kernel
  have hnamed : named twoNames =
      [(("q", .a), column 2), (("q", .a), column 3), (("q", .b), column 5)] := by
    simp [named, twoNames, h₁, h₂, h₃]
  have hbuildable : Buildable rationals ⟨0, false, .ok [], .ok []⟩ "q" (column 3)
      (column 5) :=
    ⟨1, 1, 1, rfl, rfl, le_rfl, ⟨0, rfl⟩, 1, rfl, by decide +kernel⟩
  have hacc : Acceptable rationals twoNamesDirectory none := by
    refine ⟨rfl, [], twoNames, ⟨0, false, .ok [], .ok []⟩, by decide +kernel, rfl, rfl, ?_, ?_,
      fun m side hside => ?_, ⟨[], rfl⟩, fun _ => by decide⟩
    · intro x hx
      simp only [twoNames, List.mem_cons, List.not_mem_nil, or_false] at hx
      rcases hx with rfl | rfl | rfl
      · exact ⟨_, h₁⟩
      · exact ⟨_, h₂⟩
      · exact ⟨_, h₃⟩
    · rw [hnamed]
      exact List.cons_ne_nil _ _
    · obtain ⟨t, ht⟩ := lastWrite_isSome_iff.mp hside
      rw [hnamed] at ht ⊢
      obtain rfl : m = "q" := by
        simp only [List.mem_cons, Prod.mk.injEq, List.not_mem_nil, or_false] at ht
        rcases ht with ⟨⟨hm, -⟩, -⟩ | ⟨⟨hm, -⟩, -⟩ | ⟨⟨hm, -⟩, -⟩ <;> exact hm
      exact ⟨column 3, column 5, rfl, rfl, hbuildable⟩
  obtain ⟨A, hA⟩ := exists_loaded ⟨fun _ x => x, ()⟩ none hacc
  obtain ⟨config, ts, o, hfaithful⟩ := h A hA
  obtain rfl := Except.ok.inj (hfaithful.tensors_eq : Except.ok twoNames = .ok ts)
  have heq := hfaithful.single _ List.mem_cons_self _ (List.mem_cons_of_mem _ List.mem_cons_self)
    ("q", .a) h₁ h₂
  exact absurd heq (by decide)

end TurboServe.Lora
