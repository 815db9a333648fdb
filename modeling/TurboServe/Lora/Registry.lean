import TurboServe.Lora.Layers

/-!
# The adapter registry

`engine/lora/registry.py`: adapters in host memory, and a pool of slots filled on
demand and evicted least recently used first. A call is a function of the registry
that returns its result beside the registry it leaves: a call that raises may have
changed it.
-/

namespace TurboServe.Lora

/-- The base model's adapter id and slot. -/
def noLora : ℤ := 0

/-- An adapter's name or its id. -/
inductive Key : Type where
  | name (name : String)
  | id (id : ℤ)
deriving DecidableEq

/-- `d[k] = v` on a dict in insertion order. -/
def assign {K V : Type} [DecidableEq K] (k : K) (v : V) : List (K × V) → List (K × V)
  | [] => [(k, v)]
  | (k', v') :: rest => if k' = k then (k, v) :: rest else (k', v') :: assign k v rest

/-- `move_to_end` on an ordered dict, which may lack the key. -/
def moveToEnd (lru : List ℤ) (a : ℤ) : List ℤ := lru.erase a ++ [a]

/-! ## §1  Per-token slots -/

/-- `LoRABatch`: the slot of each token, and the grouping by slot. -/
structure LoRABatch where
  tokenLoraSlot : List ℕ
  activeSlots : List ℕ
  order : List ℕ
  segments : List (ℕ × ℕ × ℕ)
deriving DecidableEq

namespace LoRABatch

/-- Positions of the tokens of one slot. -/
def positions (slots : List ℕ) (slot : ℕ) : List ℕ :=
  (List.range slots.length).filter fun i => slots.getD i 0 = slot

def segmentsFrom (slots : List ℕ) (start : ℕ) : List ℕ → List (ℕ × ℕ × ℕ)
  | [] => []
  | slot :: rest =>
      let stop := start + (positions slots slot).length
      (slot, start, stop) :: segmentsFrom slots stop rest

def fromTokenSlots (slots : List ℕ) : LoRABatch :=
  let active := (slots.filter (· ≠ 0)).dedup.insertionSort (· ≤ ·)
  { tokenLoraSlot := slots
    activeSlots := active
    order := active.flatMap (positions slots)
    segments := segmentsFrom slots 0 active }

end LoRABatch

/-! ## §2  The registry -/

structure LoRARegistry (δ α : Type) where
  numSlots : ℕ
  maxRank : ℕ
  dtype : Option δ
  shapes : List (String × ℕ × ℕ)
  adapters : List (ℤ × LoRAAdapter δ α)
  idsByName : List (String × ℤ)
  nextId : ℤ
  slotOf : ℤ → Option ℕ
  adapterOf : ℕ → Option ℤ
  freeSlots : List ℕ
  lru : List ℤ
  pinned : Finset ℤ
  layers : List (String × LoRALinear δ α)
  numSlots_pos : 1 ≤ numSlots
  maxRank_pos : 1 ≤ maxRank

namespace LoRARegistry

variable {δ α : Type}

def new (numSlots maxRank : ℕ) (dtype : Option δ) (hn : 1 ≤ numSlots) (hr : 1 ≤ maxRank) :
    LoRARegistry δ α :=
  { numSlots := numSlots, maxRank := maxRank, dtype := dtype, shapes := []
    adapters := [], idsByName := [], nextId := noLora + 1
    slotOf := fun _ => none, adapterOf := fun _ => none
    freeSlots := List.range' 1 numSlots, lru := [], pinned := ∅, layers := []
    numSlots_pos := hn, maxRank_pos := hr }

variable [DecidableEq δ] (T : Numerics δ α) (r : LoRARegistry δ α)

/-- Record the model: its projection shapes and its first parameter's dtype. -/
def bind (shapes : List (String × ℕ × ℕ)) (reference : Option δ) :
    Except Fault Unit × LoRARegistry δ α :=
  (r.adapters.forM fun p => p.2.validateAgainst shapes,
    { r with shapes := shapes, dtype := r.dtype <|> reference })

def attach (name : String) (layer : LoRALinear δ α) :
    Except Fault Unit × LoRARegistry δ α :=
  if layer.numSlots ≠ r.numSlots ∨ layer.maxRank ≠ r.maxRank then
    (.error (.poolGeometry name (layer.numSlots, layer.maxRank) (r.numSlots, r.maxRank)), r)
  else (.ok (), { r with layers := assign name layer r.layers })

/-- The checks of `register_adapter`. -/
def admissible (A : LoRAAdapter δ α) : Except Fault Unit :=
  if (r.idsByName.lookup A.name).isSome then .error (.alreadyRegistered A.name)
  else if A.rank > r.maxRank then .error (.adapterRank A.name A.rank r.maxRank)
  else
    match if r.shapes = [] then .ok () else A.validateAgainst r.shapes with
    | .error e => .error e
    | .ok _ =>
        match if r.layers.isEmpty then []
          else A.modules.filter fun m => (r.layers.lookup m).isNone with
        | [] => .ok ()
        | untargeted => .error (.untargeted A.name untargeted)

def registerAdapter (A : LoRAAdapter δ α) : Except Fault ℤ × LoRARegistry δ α :=
  match r.admissible A with
  | .error e => (.error e, r)
  | .ok _ =>
      let A' := match r.dtype with
        | none => A
        | some d => A.toDtype T d
      (.ok r.nextId,
        { r with
          nextId := r.nextId + 1
          adapters := r.adapters ++ [(r.nextId, A')]
          idsByName := r.idsByName ++ [(A.name, r.nextId)] })

def idFor : Key → Except Fault ℤ
  | .id i => .ok i
  | .name n =>
      match r.idsByName.lookup n with
      | some i => .ok i
      | none => .error (.unknownName n)

/-! ## §3  Residency -/

/-- Release a slot; the layers keep the stale bytes. -/
def evictSlot (slot : ℕ) : Except Fault (LoRARegistry δ α) :=
  match r.adapterOf slot with
  | none => .error (.missingKey slot)
  | some a =>
      .ok { r with
        adapterOf := Function.update r.adapterOf slot none
        slotOf := Function.update r.slotOf a none
        lru := r.lru.erase a
        freeSlots := r.freeSlots ++ [slot] }

/-- The adapters of the LRU that a step with this working set may evict. -/
def evictable (isProtected : List ℤ) : List ℤ :=
  r.lru.filter fun a => a ∉ isProtected ∧ a ∉ r.pinned

/-- A free slot, after evicting the least recently used adapter if need be. -/
def takeSlot (isProtected : List ℤ) : Except Fault ℕ × LoRARegistry δ α :=
  match r.freeSlots with
  | s :: rest => (.ok s, { r with freeSlots := rest })
  | [] =>
      match r.evictable isProtected with
      | [] => (.error (.noSlotLeft r.numSlots r.pinned.card), r)
      | a :: _ =>
          match r.slotOf a with
          | none => (.error (.missingKey a), r)
          | some s =>
              match r.evictSlot s with
              | .error e => (.error e, r)
              | .ok r' =>
                  match r'.freeSlots with
                  | [] => (.error (.missingKey s), r')
                  | s' :: rest => (.ok s', { r' with freeSlots := rest })

/-- A loop over the layers that stops at the first one that raises. -/
def forLayers (f : String → LoRALinear δ α → Except Fault (LoRALinear δ α)) :
    List (String × LoRALinear δ α) → Except Fault Unit × List (String × LoRALinear δ α)
  | [] => (.ok (), [])
  | (name, layer) :: rest =>
      match f name layer with
      | .error e => (.error e, (name, layer) :: rest)
      | .ok layer' => ((forLayers f rest).1, (name, layer') :: (forLayers f rest).2)

variable [Zero α]

/-- What `_load` does to one layer. -/
def loadLayer (A : LoRAAdapter δ α) (slot : ℕ) (name : String) (layer : LoRALinear δ α) :
    Except Fault (LoRALinear δ α) :=
  match A.weights.lookup name with
  | none => layer.clearSlot slot
  | some w => layer.loadSlot T slot (w.toDtype T layer.dtype)

/-- Copy one adapter's factors into every layer's slot, then record the slot. -/
def load (a : ℤ) (slot : ℕ) : Except Fault Unit × LoRARegistry δ α :=
  match r.adapters.lookup a with
  | none => (.error (.missingKey a), r)
  | some A =>
      let loaded := forLayers (loadLayer T A slot) r.layers
      match loaded.1 with
      | .error e => (.error e, { r with layers := loaded.2 })
      | .ok _ =>
          (.ok (),
            { r with
              layers := loaded.2
              slotOf := Function.update r.slotOf a (some slot)
              adapterOf := Function.update r.adapterOf slot (some a)
              lru := moveToEnd r.lru a })

/-- The distinct adapters a call asks for, in increasing order. -/
def wanted (ids : List ℤ) : List ℤ :=
  (ids.filter (· ≠ noLora)).dedup.insertionSort (· ≤ ·)

/-- The resident adapters of the working set with their slots, and the others. -/
def hits (ids : List ℤ) : List (ℤ × ℕ) :=
  ids.filterMap fun a => (r.slotOf a).map fun s => (a, s)

def misses (ids : List ℤ) : List ℤ := ids.filter fun a => (r.slotOf a).isNone

/-- The second loop of `activate`: a slot for each miss. -/
def loadAll (isProtected : List ℤ) :
    List ℤ → List (ℤ × ℕ) → LoRARegistry δ α →
      Except Fault (List (ℤ × ℕ)) × LoRARegistry δ α
  | [], mapping, r => (.ok mapping, r)
  | a :: rest, mapping, r =>
      match r.takeSlot isProtected with
      | (.error e, r') => (.error e, r')
      | (.ok slot, r') =>
          match r'.load T a slot with
          | (.error e, r'') => (.error e, r'')
          | (.ok _, r'') => loadAll isProtected rest (mapping ++ [(a, slot)]) r''

/-- Make every adapter of `ids` resident; the mapping is for exactly these. -/
def activate (ids : List ℤ) : Except Fault (List (ℤ × ℕ)) × LoRARegistry δ α :=
  let want := wanted ids
  if want = [] then (.ok [], r)
  else
    match want.filter fun a => (r.adapters.lookup a).isNone with
    | [] =>
        if want.length > r.numSlots then
          (.error (.tooManyAdapters want.length r.numSlots), r)
        else
          let touched := { r with
            lru := ((r.hits want).map (·.1)).foldl moveToEnd r.lru }
          loadAll T want (r.misses want) (r.hits want) touched
    | unknown => (.error (.unknownIds unknown), r)

def pin (key : Key) : Except Fault ℕ × LoRARegistry δ α :=
  match r.idFor key with
  | .error e => (.error e, r)
  | .ok a =>
      match r.activate T [a] with
      | (.error e, r') => (.error e, r')
      | (.ok mapping, r') =>
          match mapping.lookup a with
          | none => (.error (.missingKey a), r')
          | some slot => (.ok slot, { r' with pinned := insert a r'.pinned })

def unpin (key : Key) : Except Fault Bool × LoRARegistry δ α :=
  match r.idFor key with
  | .error e => (.error e, r)
  | .ok a =>
      if a ∈ r.pinned then (.ok true, { r with pinned := r.pinned.erase a })
      else (.ok false, r)

def deactivate (key : Key) : Except Fault Bool × LoRARegistry δ α :=
  match r.idFor key with
  | .error e => (.error e, r)
  | .ok a =>
      if a ∈ r.pinned then (.error (.pinned a), r)
      else
        match r.slotOf a with
        | none => (.ok false, r)
        | some s =>
            match r.evictSlot s with
            | .error e => (.error e, r)
            | .ok r' => (.ok true, r')

/-- Clear one layer's slots in turn. -/
def clearSlots (layer : LoRALinear δ α) (slots : List ℕ) :
    Except Fault (LoRALinear δ α) :=
  slots.foldlM (fun layer slot => layer.clearSlot slot) layer

/-- Evict everything, pinned included, and zero the buffers. -/
def resetSlots : Except Fault Unit × LoRARegistry δ α :=
  let cleared := forLayers (fun _ layer => clearSlots layer (List.range' 1 r.numSlots))
    r.layers
  match cleared.1 with
  | .error e => (.error e, { r with layers := cleared.2 })
  | .ok _ =>
      (.ok (),
        { r with
          layers := cleared.2, slotOf := fun _ => none, adapterOf := fun _ => none
          lru := [], pinned := ∅, freeSlots := List.range' 1 r.numSlots })

/-- Adapter id of every token: `items` are the scheduled sequences' adapter ids with
their numbers of new tokens. -/
def tokenLoraIds (items : List (ℤ × ℕ)) : List ℤ :=
  items.flatMap fun p => List.replicate p.2 p.1

/-- The slot of one token, from the mapping of the step. -/
def slotIn (mapping : List (ℤ × ℕ)) (a : ℤ) : Except Fault ℕ :=
  if a = noLora then .ok 0
  else
    match mapping.lookup a with
    | some s => .ok s
    | none => .error (.missingKey a)

/-- The per-step hook; `none` when no token carries an adapter. -/
def buildContext (items : List (ℤ × ℕ)) :
    Except Fault (Option LoRABatch) × LoRARegistry δ α :=
  let ids := tokenLoraIds items
  if ids.all (· = noLora) then (.ok none, r)
  else
    match r.activate T ids with
    | (.error e, r') => (.error e, r')
    | (.ok mapping, r') =>
        match ids.mapM (slotIn mapping) with
        | .error e => (.error e, r')
        | .ok slots => (.ok (some (LoRABatch.fromTokenSlots slots)), r')

end LoRARegistry

/-! ## §4  Calls -/

inductive Op (δ α : Type) : Type where
  | registerAdapter (A : LoRAAdapter δ α)
  | attach (name : String) (layer : LoRALinear δ α)
  | bind (shapes : List (String × ℕ × ℕ)) (reference : Option δ)
  | activate (ids : List ℤ)
  | pin (key : Key)
  | unpin (key : Key)
  | deactivate (key : Key)
  | resetSlots
  | buildContext (items : List (ℤ × ℕ))

namespace LoRARegistry

variable {δ α : Type} [DecidableEq δ] [Zero α] (T : Numerics δ α)

/-- The registry a call leaves, whether it returns or raises. -/
def call (r : LoRARegistry δ α) : Op δ α → LoRARegistry δ α
  | .registerAdapter A => (r.registerAdapter T A).2
  | .attach name layer => (r.attach name layer).2
  | .bind shapes reference => (r.bind shapes reference).2
  | .activate ids => (r.activate T ids).2
  | .pin key => (r.pin T key).2
  | .unpin key => (r.unpin key).2
  | .deactivate key => (r.deactivate key).2
  | .resetSlots => r.resetSlots.2
  | .buildContext items => (r.buildContext T items).2

def run (r : LoRARegistry δ α) (ops : List (Op δ α)) : LoRARegistry δ α :=
  ops.foldl (call T) r

end LoRARegistry

end TurboServe.Lora
