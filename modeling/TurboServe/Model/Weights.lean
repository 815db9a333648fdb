import Mathlib.Algebra.BigOperators.Group.List.Basic
import Mathlib.Data.List.Infix

/-!
# The checkpoint loader

`engine/model/weights.py`: checkpoint names mapped to parameter names, and every tensor
copied into the storage of the parameter it names. What a cast does to a tensor's elements
is a parameter.
-/

namespace TurboServe.Model

/-! ## §1  Names -/

/-- Checkpoint tensors that are recomputed at construction time. -/
def skipSuffixes : List String :=
  [".rotary_emb.inv_freq", ".attn.bias", ".attn.masked_bias", ".masked_bias"]

/-- Prefixes some exporters put in front of the decoder stack. -/
def prefixRewrites : List (String × String) :=
  [("transformer.", "model."), ("language_model.model.", "model."),
    ("language_model.lm_head.", "lm_head.")]

/-- `new + name[len(old):]` -/
def replacePrefix (old new : String) (name : List Char) : List Char :=
  new.toList ++ name.drop old.length

/-- The parameter a checkpoint tensor is for; `none` to skip it. -/
def mapWeightName (name : String) : Option String :=
  if skipSuffixes.any fun suffix => decide (suffix.toList <:+ name.toList) then none
  else
    let renamed :=
      match prefixRewrites.find? fun r => decide (r.1.toList <+: name.toList) with
      | some (old, new) => replacePrefix old new name.toList
      | none => name.toList
    let undecorated :=
      if "model.decoder.".toList <+: renamed then replacePrefix "model.decoder." "model." renamed
      else renamed
    some (String.ofList undecorated)

/-! ## §2  Modules and checkpoints -/

inductive EntryKind : Type where
  | parameter
  | buffer (persistent : Bool)
deriving DecidableEq

/-- One name of a module's tree and the tensor object under it. -/
structure Entry where
  name : String
  object : ℕ
  kind : EntryKind
deriving DecidableEq

def Entry.isParameter (e : Entry) : Bool := decide (e.kind = .parameter)

/-- A module: its names, and the shape and the dtype of every tensor object. Two names may
share an object (tied weights), but no buffer is a parameter. -/
structure Module (δ : Type) where
  entries : List Entry
  shape : ℕ → List ℕ
  dtype : ℕ → δ
  names_nodup : (entries.map (·.name)).Nodup
  separate : ∀ e ∈ entries, ∀ e' ∈ entries, e.object = e'.object → e.isParameter = e'.isParameter

/-- The first entry of each object. -/
def firstOfObject (entries : List Entry) : List Entry :=
  entries.foldl
    (fun kept e => if kept.any fun k => decide (k.object = e.object) then kept else kept ++ [e]) []

namespace Module

variable {δ : Type} (module : Module δ)

/-- `named_parameters()`: an object shared by several names comes under the first. -/
def namedParameters : List Entry := firstOfObject (module.entries.filter (·.isParameter))

/-- `named_buffers()` -/
def namedBuffers : List Entry := firstOfObject (module.entries.filter fun e => !e.isParameter)

/-- The names in `state_dict()`. -/
def persistent (e : Entry) : Bool := decide (e.kind ≠ .buffer false)

/-- What a checkpoint has to fill: the parameters, then the persistent buffers. -/
def params : List (String × ℕ) :=
  (module.namedParameters ++ module.namedBuffers.filter persistent).map fun e =>
    (e.name, e.object)

end Module

/-- A tensor of a checkpoint. -/
structure CheckpointTensor (α : Type) where
  shape : List ℕ
  elementSize : ℕ
  data : α

/-- A shard: its path and its named tensors. -/
structure Shard (α : Type) where
  path : String
  tensors : List (String × CheckpointTensor α)

/-- Every tensor that is not skipped, under the name it is mapped to. -/
def iterCheckpointTensors {α : Type} (files : List (Shard α)) :
    List (String × CheckpointTensor α) :=
  files.flatMap fun file =>
    file.tensors.filterMap fun x => (mapWeightName x.1).map fun name => (name, x.2)

/-! ## §3  Loading -/

inductive WeightLoadError : Type where
  | shapeMismatch (name : String) (model checkpoint : List ℕ)
  /-- The first eight missing and unexpected names. -/
  | mismatch (missing unexpected : List String)
deriving DecidableEq

/-- What a load did. -/
structure LoadReport where
  numTensors : ℕ := 0
  numBytes : ℕ := 0
  files : List String := []
  missing : List String := []
  unexpected : List String := []
  tied : List String := []
deriving DecidableEq

/-- Whether every parameter was filled and every tensor consumed. -/
def LoadReport.ok (r : LoadReport) : Bool := r.missing.isEmpty && r.unexpected.isEmpty

section Load

variable {α δ : Type} (cast : δ → α → α)

/-- A load under way: the contents of every tensor object, and the names filled. -/
structure Loading (α : Type) where
  memory : ℕ → α
  seen : List String
  report : LoadReport

/-- `target.copy_(tensor.to(dtype))` and the counts. -/
def Loading.copy (s : Loading α) (module : Module δ) (dtype : Option δ) (name : String)
    (object : ℕ) (t : CheckpointTensor α) : Loading α where
  memory := Function.update s.memory object
    (cast (module.dtype object) (cast (dtype.getD (module.dtype object)) t.data))
  seen := name :: s.seen
  report := { s.report with
    numTensors := s.report.numTensors + 1
    numBytes := s.report.numBytes + t.shape.prod * t.elementSize }

/-- The loop over the tensors, up to the first shape that does not fit. -/
def copyTensors (module : Module δ) (dtype : Option δ) :
    List (String × CheckpointTensor α) → Loading α → Loading α × Option WeightLoadError
  | [], s => (s, none)
  | (name, t) :: rest, s =>
      match module.params.lookup name with
      | none =>
          copyTensors module dtype rest
            { s with report := { s.report with unexpected := s.report.unexpected ++ [name] } }
      | some object =>
          if module.shape object ≠ t.shape then
            (s, some (.shapeMismatch name (module.shape object) t.shape))
          else copyTensors module dtype rest (s.copy cast module dtype name object t)

/-- Copy every tensor of the files into the module: what its tensors hold afterwards, also
when the load is refused, and the report. -/
def loadWeights (module : Module δ) (memory : ℕ → α) (files : List (Shard α))
    (dtype : Option δ) (tiedParameters : List String) (strict : Bool) :
    (ℕ → α) × Except WeightLoadError LoadReport :=
  match copyTensors cast module dtype (iterCheckpointTensors files)
      ⟨memory, [], { files := files.map (·.path) }⟩ with
  | (s, some error) => (s.memory, .error error)
  | (s, none) =>
      let unfilled := (module.params.map (·.1)).filter fun name => decide (name ∉ s.seen)
      let report := { s.report with
        tied := unfilled.filter fun name => decide (name ∈ tiedParameters)
        missing := unfilled.filter fun name => decide (name ∉ tiedParameters) }
      if strict && !report.ok then
        (s.memory, .error (.mismatch (report.missing.take 8) (report.unexpected.take 8)))
      else (s.memory, .ok report)

end Load

end TurboServe.Model
