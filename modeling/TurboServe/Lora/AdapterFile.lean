import TurboServe.Lora.Registry
import TurboServe.Lib.Fallible

/-!
# Adapter directories

`engine/lora/adapter.py`: a PEFT adapter directory read into the factors of an adapter.
What Python's built-ins make of a JSON value is a parameter.
-/

namespace TurboServe.Lora

/-- Which factor of a module a tensor is. -/
inductive Side : Type where
  | a
  | b
deriving DecidableEq

/-- What the loader raises: `AdapterError` by its ground, and what a built-in raises. -/
inductive AdapterFault : Type where
  | notADirectory
  | noConfig
  | unreadableConfig (text : String)
  | configNotObject
  | peftType (value : String)
  | dora
  | modulesToSave
  | targetParameters
  | bias (value : String)
  | fanInFanOut
  | pickled
  | noWeightsFile
  | unreadableWeights (text : String)
  | unsupportedFeature (feature key : String)
  | namesNoModule (key : String)
  | missingFactor (module : String) (missing : Side)
  | rankNotPositive (rank : ℕ)
  | notTwoDimensional (module : String) (a b : List ℕ)
  | rankMismatch (module : String) (a b : List ℕ)
  | rankPattern (module : String) (rank : ℕ) (pattern : ℤ)
  | noFactors
  | emptyName
  | python (text : String)
deriving DecidableEq

/-! ## §1  The files -/

/-- Built-ins on JSON values: `bool`, `str`, `float`, `int`, `.items()` and iteration; and
on numbers `float` of an integer, `int` of a float and `math.sqrt`. -/
structure Builtins (V α : Type) where
  truthy : V → Bool
  str : V → String
  float : V → Except AdapterFault α
  int : V → Except AdapterFault ℤ
  items : V → Except AdapterFault (List (String × V))
  iter : V → Except AdapterFault (List V)
  ofInt : ℤ → α
  trunc : α → Except AdapterFault ℤ
  sqrt : ℕ → α

/-- A JSON object. -/
abbrev Config (V : Type) : Type := List (String × V)

/-- A tensor of any shape; the entries of two dimensions are the ones ever read. -/
structure FileTensor (δ α : Type) where
  dtype : δ
  shape : List ℕ
  entry : ℕ → ℕ → α

inductive ConfigFile (V : Type) : Type where
  | missing
  | unreadable (text : String)
  | notObject
  | object (config : Config V)

inductive WeightsFile (δ α : Type) : Type where
  | missing
  | pickled
  | unreadable (text : String)
  | tensors (tensors : List (String × FileTensor δ α))

structure AdapterDirectory (V δ α : Type) where
  name : String
  isDir : Bool
  config : ConfigFile V
  weights : WeightsFile δ α

/-! ## §2  Keys -/

/-- Key fragments of features the engine does not implement. -/
def unsupportedMarkers : List (String × String) :=
  [("lora_embedding_A", "LoRA on embedding layers"),
    ("lora_embedding_B", "LoRA on embedding layers"),
    ("lora_magnitude_vector", "DoRA (weight-decomposed LoRA)"),
    ("lora_bias", "biased LoRA adapters")]

/-- What PEFT puts in front of the base model's module path. -/
def peftPrefixes : List String := ["base_model.model.", "base_model."]

/-- The side a part of a key marks. -/
def sideOf (part : List Char) : Option Side :=
  if part = "lora_A".toList then some .a
  else if part = "lora_B".toList then some .b
  else none

/-- The parts before the first marker, and its side. -/
def splitAtMarker (before : List (List Char)) :
    List (List Char) → Option (List (List Char) × Side)
  | [] => none
  | part :: rest =>
      match sideOf part with
      | some side => some (before, side)
      | none => splitAtMarker (before ++ [part]) rest

/-- Drop the first of PEFT's prefixes that is there. -/
def withoutPeft (module : List Char) : List Char :=
  match peftPrefixes.find? fun p => p.toList <+: module with
  | some p => module.drop p.length
  | none => module

/-- Split a key into the engine's module name and the side; a key of no factor is `none`. -/
def peftModuleName (key : String) : Except AdapterFault (Option (String × Side)) :=
  match unsupportedMarkers.find? fun m => m.1.toList <:+: key.toList with
  | some m => .error (.unsupportedFeature m.2 key)
  | none =>
      match splitAtMarker [] (key.toList.splitOn '.') with
      | none => .ok none
      | some (before, side) =>
          let module := withoutPeft (['.'].intercalate before)
          if module = [] then .error (.namesNoModule key)
          else .ok (some (String.ofList module, side))

/-! ## §3  Factors and scaling -/

section Load

variable {V δ α : Type} (P : Builtins V α)

/-- The factors found of one module. -/
structure Factors (δ α : Type) where
  a : Option (FileTensor δ α) := none
  b : Option (FileTensor δ α) := none

def Factors.get (f : Factors δ α) : Side → Option (FileTensor δ α)
  | .a => f.a
  | .b => f.b

def Factors.set (f : Factors δ α) (side : Side) (t : FileTensor δ α) : Factors δ α :=
  match side with
  | .a => { f with a := some t }
  | .b => { f with b := some t }

/-- `factors.setdefault(module, {})[side] = tensor` -/
def putFactor (factors : List (String × Factors δ α)) (module : String) (side : Side)
    (t : FileTensor δ α) : List (String × Factors δ α) :=
  assign module (((factors.lookup module).getD {}).set side t) factors

/-- The loop over the tensors; keys of no factor are skipped. -/
def collectFactors :
    List (String × FileTensor δ α) → List (String × Factors δ α) →
      Except AdapterFault (List (String × Factors δ α))
  | [], factors => .ok factors
  | (key, t) :: rest, factors =>
      match peftModuleName key with
      | .error e => .error e
      | .ok none => collectFactors rest factors
      | .ok (some (module, side)) => collectFactors rest (putFactor factors module side t)

/-- The scalar multiplying `B @ A`. -/
def adapterScaling [Div α] (rank : ℕ) (alpha : α) (useRslora : Bool) :
    Except AdapterFault α :=
  if rank < 1 then .error (.rankNotPositive rank)
  else .ok (alpha / if useRslora then P.sqrt rank else P.ofInt rank)

/-- The override of a module: its own key, else the first key it ends with behind a dot.
A pattern that is no dict raises here, when it is first looked into. -/
def patternLookup (pattern : Except AdapterFault (Config V)) (module : String)
    (default : α) : Except AdapterFault α :=
  match pattern with
  | .error e => .error e
  | .ok pattern =>
      match pattern.lookup module with
      | some v => P.float v
      | none =>
          match pattern.find? fun kv =>
              ('.' :: kv.1.toList) <:+ module.toList ∨ module = kv.1 with
          | some kv => P.float kv.2
          | none => .ok default

/-- `tensor.to(dtype=dtype or tensor.dtype)` -/
def FileTensor.toDtype [DecidableEq δ] (T : Numerics δ α) (t : FileTensor δ α)
    (dtype : Option δ) : FileTensor δ α :=
  match dtype with
  | none => t
  | some d =>
      if d = t.dtype then t
      else { t with dtype := d, entry := fun i j => T.cast d (t.entry i j) }

/-- `LoRAWeights.__post_init__` on the two factors. -/
def makeWeights (module : String) (a b : FileTensor δ α) (scaling : α) :
    Except AdapterFault (LoRAWeights δ α) :=
  match a.shape, b.shape with
  | [r, i], [o, r'] =>
      if h : r = r' then
        .ok ⟨a.dtype, ⟨r, i, a.entry⟩, ⟨o, r', b.entry⟩, scaling, h⟩
      else .error (.rankMismatch module a.shape b.shape)
  | _, _ => .error (.notTwoDimensional module a.shape b.shape)

/-- What the loader reads off the config. -/
structure Options (V α : Type) where
  baseAlpha : α
  useRslora : Bool
  rankPattern : Except AdapterFault (Config V)
  alphaPattern : Except AdapterFault (Config V)

/-- One module's factors, scaled, and checked against the rank pattern. -/
def buildWeights [DecidableEq δ] [Div α] (T : Numerics δ α) (o : Options V α)
    (dtype : Option δ) (entry : String × Factors δ α) :
    Except AdapterFault (String × LoRAWeights δ α) :=
  match entry.2.a, entry.2.b with
  | none, _ => .error (.missingFactor entry.1 .a)
  | some _, none => .error (.missingFactor entry.1 .b)
  | some a, some b => do
      let a := a.toDtype T dtype
      let b := b.toDtype T dtype
      match a.shape with
      | [] => .error (.python "tuple index out of range")
      | rank :: _ =>
          let alpha ← patternLookup P o.alphaPattern entry.1 o.baseAlpha
          let scaling ← adapterScaling P rank alpha o.useRslora
          let weights ← makeWeights entry.1 a b scaling
          let patternRank ← patternLookup P o.rankPattern entry.1 (P.ofInt rank)
          let n ← P.trunc patternRank
          if n ≠ rank then .error (.rankPattern entry.1 rank n)
          else .ok (entry.1, weights)

/-! ## §4  Loading a directory -/

/-- `bool(config.get(key))` -/
def given (config : Config V) (key : String) : Bool := ((config.lookup key).map P.truthy).getD false

/-- Read the config and refuse the variants the engine cannot serve. -/
def readConfig (file : ConfigFile V) : Except AdapterFault (Config V) :=
  match file with
  | .missing => .error .noConfig
  | .unreadable text => .error (.unreadableConfig text)
  | .notObject => .error .configNotObject
  | .object config =>
      let peftType := (((config.lookup "peft_type").map P.str).getD "LORA").toUpper
      let bias := (((config.lookup "bias").map P.str).getD "none").toLower
      if peftType ≠ "LORA" then .error (.peftType peftType)
      else if given P config "use_dora" then .error .dora
      else if given P config "modules_to_save" then .error .modulesToSave
      else if given P config "target_parameters" then .error .targetParameters
      else if bias ≠ "none" then .error (.bias bias)
      else if given P config "fan_in_fan_out" then .error .fanInFanOut
      else .ok config

/-- The tensors of the safetensors file; the pickle is refused. -/
def readTensors (file : WeightsFile δ α) :
    Except AdapterFault (List (String × FileTensor δ α)) :=
  match file with
  | .missing => .error .noWeightsFile
  | .pickled => .error .pickled
  | .unreadable text => .error (.unreadableWeights text)
  | .tensors tensors => .ok tensors

/-- `config.get(key) or {}`, as a dict. -/
def patternOf (config : Config V) (key : String) : Except AdapterFault (Config V) :=
  match config.lookup key with
  | none => .ok []
  | some v => if P.truthy v then P.items v else .ok []

/-- `r`, `lora_alpha`, `use_rslora` and the two patterns. -/
def readOptions (config : Config V) : Except AdapterFault (Options V α) := do
  let baseRank ←
    match config.lookup "r" with
    | none => .ok 0
    | some v => if P.truthy v then P.int v else .ok 0
  let baseAlpha ←
    match config.lookup "lora_alpha" with
    | none => .ok (P.ofInt baseRank)
    | some v => if P.truthy v then P.float v else .ok (P.ofInt 0)
  .ok ⟨baseAlpha, given P config "use_rslora", patternOf P config "rank_pattern",
    patternOf P config "alpha_pattern"⟩

/-- `tuple(sorted(str(m) for m in config.get("target_modules") or ()))` -/
def targetModulesOf (config : Config V) : Except AdapterFault (List String) :=
  match config.lookup "target_modules" with
  | none => .ok []
  | some v =>
      if P.truthy v then do
        let modules ← P.iter v
        .ok ((modules.map P.str).insertionSort (· ≤ ·))
      else .ok []

/-- A dict built by assignments. -/
def dictOf {K W : Type} [DecidableEq K] (entries : List (K × W)) : List (K × W) :=
  entries.foldl (fun d e => assign e.1 e.2 d) []

theorem nodup_keys_assign {K W : Type} [DecidableEq K] {d : List (K × W)}
    (h : (d.map (·.1)).Nodup) (k : K) (w : W) : ((assign k w d).map (·.1)).Nodup ∧
      ∀ k' ∈ (assign k w d).map (·.1), k' = k ∨ k' ∈ d.map (·.1) := by
  induction d with
  | nil => exact ⟨List.nodup_singleton k, fun k' hk' => .inl (List.mem_singleton.mp hk')⟩
  | cons e d ih =>
      obtain ⟨hnot, hnd⟩ := List.nodup_cons.mp h
      obtain ⟨ihnd, ihmem⟩ := ih hnd
      rw [assign]
      split
      · rename_i hek
        rw [List.map_cons, ← hek]
        exact ⟨List.nodup_cons.mpr ⟨hnot, hnd⟩, fun k' hk' => .inr hk'⟩
      · rename_i hek
        rw [List.map_cons]
        refine ⟨List.nodup_cons.mpr ⟨fun hmem => ?_, ihnd⟩, fun k' hk' => ?_⟩
        · rcases ihmem _ hmem with heq | hin
          · exact hek heq
          · exact hnot hin
        · rcases List.mem_cons.mp hk' with rfl | hk'
          · exact .inr List.mem_cons_self
          · exact (ihmem k' hk').imp_right (List.mem_cons_of_mem _)

theorem nodup_dictOf {K W : Type} [DecidableEq K] (entries : List (K × W)) :
    ((dictOf entries).map (·.1)).Nodup := by
  induction entries using List.reverseRecOn with
  | nil => exact .nil
  | append_singleton entries e ih =>
      unfold dictOf at ih ⊢
      rw [List.foldl_append]
      exact (nodup_keys_assign ih e.1 e.2).1

/-- An adapter with what its config says of it. -/
structure LoadedAdapter (δ α : Type) extends LoRAAdapter δ α where
  alpha : α
  targetModules : List String
  baseModel : String
  useRslora : Bool

/-- Read a PEFT adapter directory. -/
def loadPeftAdapter [DecidableEq δ] [Div α] (T : Numerics δ α)
    (dir : AdapterDirectory V δ α) (name : Option String) (dtype : Option δ) :
    Except AdapterFault (LoadedAdapter δ α) :=
  if ¬ dir.isDir then .error .notADirectory
  else do
    let config ← readConfig P dir.config
    let tensors ← readTensors dir.weights
    let o ← readOptions P config
    let factors ← collectFactors tensors []
    let built ← (factors.insertionSort fun p q => p.1 ≤ q.1).mapM (buildWeights P T o dtype)
    let weights := dictOf built
    if hne : weights = [] then .error .noFactors
    else do
      let targetModules ← targetModulesOf P config
      let name := if name.getD "" = "" then dir.name else name.getD ""
      if hname : name = "" then .error .emptyName
      else
        .ok { name := name, weights := weights
              rank := (weights.map (·.2.rank)).foldl max 0
              name_ne := hname, weights_ne_nil := hne, keys_nodup := nodup_dictOf built
              alpha := o.baseAlpha, targetModules := targetModules
              baseModel :=
                match config.lookup "base_model_name_or_path" with
                | none => ""
                | some v => if P.truthy v then P.str v else ""
              useRslora := o.useRslora }

end Load

end TurboServe.Lora
