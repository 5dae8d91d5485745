import Mathlib.Data.List.Dedup
import Mathlib.Data.List.Sort
import Mimir.Kv.CacheManager

/-! The memory layout of the KV cache: layers in groups and tensors, and the layouts of all workers made alike. -/

namespace Mimir

open Python

/-- A torch dtype, by its identity and the bytes of one element. -/
structure DType where
  code : Nat
  size : Nat
  deriving DecidableEq

/-- The classes of attention specs, with the fields only they have. -/
inductive AttentionKind where
  | full (slidingWindow attentionChunkSize : Option Nat)
  | chunkedLocal (attentionChunkSize : Nat)
  | slidingWindow (slidingWindow : Nat)
  | crossAttention
  | encoderOnly
  deriving DecidableEq

/-- The fields of `AttentionSpec`. -/
structure AttentionFields where
  blockSize : Nat
  numKvHeads : Nat
  headSize : Nat
  dtype : DType
  useMla : Bool
  deriving DecidableEq

/-- The `KVCacheSpec` of one layer. -/
inductive LayerSpec where
  | attention (fields : AttentionFields) (kind : AttentionKind)
  | mamba (blockSize : Nat) (shapes : List (List Nat)) (dtypes : List DType)
      (pageSizePadded : Option Nat) (mambaType numSpeculativeBlocks : Nat)
  deriving DecidableEq

/-- `KVCacheTensor`: a memory pool and the layers that use it. -/
structure KVCacheTensor (L : Type) where
  size : Nat
  sharedBy : List L

/-- `KVCacheGroupSpec`: layers with one block table. -/
structure KVCacheGroupSpec (L : Type) where
  layerNames : List L
  kvCacheSpec : LayerSpec

/-- `KVCacheConfig` of one worker. -/
structure KVCacheConfig (L : Type) where
  numBlocks : Nat
  kvCacheTensors : List (KVCacheTensor L)
  kvCacheGroups : List (KVCacheGroupSpec L)

/-- The settings of the model, the scheduler and the ranks that bound the memory of one request. -/
structure MemoryLimits where
  maxModelLen : Int
  maxNumBatchedTokens : Int
  dcpWorldSize : Nat
  maxEncoderLen : Int

namespace LayerSpec

/-- `page_size_bytes`. -/
def pageSizeBytes : LayerSpec → Except Err Nat
  | .attention fields _ =>
    -- Latent attention stores one vector instead of a key and a value.
    let coef := if fields.useMla then 1 else 2
    .ok (coef * fields.blockSize * fields.numKvHeads * fields.headSize * fields.dtype.size)
  | .mamba _ shapes dtypes pageSizePadded _ _ =>
    let pageSize := (List.zipWith (fun shape dtype => shape.prod * dtype.size) shapes dtypes).sum
    match pageSizePadded with
    | none => .ok pageSize
    | some padded => do
      require (pageSize ≤ padded) ⟨.assertion, .mambaPageSize⟩
      .ok padded

/-- `max_memory_usage_bytes`: the memory one layer uses for one request. -/
def maxMemoryUsageBytes (limits : MemoryLimits) (spec : LayerSpec) : Except Err Int := do
  let pageSize ← spec.pageSizeBytes
  match spec with
  | .attention fields (.full _ _) =>
    -- Each rank of decode context parallelism saves its share of the tokens.
    let maxModelLen := if limits.dcpWorldSize > 1 then cdiv limits.maxModelLen limits.dcpWorldSize
      else limits.maxModelLen
    .ok (cdiv maxModelLen fields.blockSize * pageSize)
  | .attention fields (.chunkedLocal attentionChunkSize) =>
    let numTokens := min (attentionChunkSize + limits.maxNumBatchedTokens) limits.maxModelLen
    .ok (cdiv numTokens fields.blockSize * pageSize)
  | .attention fields (.slidingWindow slidingWindow) => do
    require (limits.dcpWorldSize = 1) ⟨.assertion, .slidingWindowRanks⟩
    let numTokens := min ((slidingWindow : Int) - 1 + limits.maxNumBatchedTokens) limits.maxModelLen
    -- The window may not start at the beginning of a block.
    .ok ((cdiv numTokens fields.blockSize + 1) * pageSize)
  | .attention fields .crossAttention => .ok (cdiv limits.maxEncoderLen fields.blockSize * pageSize)
  | .attention _ .encoderOnly => .ok 0
  | .mamba .. => .ok pageSize

/-- The window fields of a spec of `FullAttentionSpec`. -/
def fullWindows : LayerSpec → Option (AttentionFields × Option Nat × Option Nat)
  | .attention fields (.full slidingWindow attentionChunkSize) =>
    some (fields, slidingWindow, attentionChunkSize)
  | _ => none

/-- `merge_window_sizes`, of a set. -/
def mergeWindowSizes (windowSizes : List Nat) : Except Err (Option Nat) :=
  match windowSizes.dedup with
  | [] => .ok none
  | [size] => .ok (some size)
  | _ => .error ⟨.value, .mergeWindowSizes⟩

/-- `FullAttentionSpec.merge`. -/
def mergeFull (fields : AttentionFields) (specs : List LayerSpec) : Except Err LayerSpec := do
  require (∀ spec ∈ specs, spec.fullWindows.isSome) ⟨.assertion, .mergeSpecs⟩
  let all := specs.filterMap fullWindows
  let slidingWindow ← mergeWindowSizes (all.filterMap fun spec => spec.2.1)
  let attentionChunkSize ← mergeWindowSizes (all.filterMap fun spec => spec.2.2)
  require (∀ spec ∈ all, spec.1 = fields) ⟨.assertion, .mergeSpecs⟩
  require (slidingWindow = none ∨ attentionChunkSize = none) ⟨.assertion, .mergeSpecs⟩
  .ok (.attention fields (.full slidingWindow attentionChunkSize))

/-- `specs[0].merge(specs)`. -/
def merge (specs : List LayerSpec) : Except Err LayerSpec :=
  match specs with
  | [] => .error ⟨.index, .mergeSpecs⟩
  | .attention fields (.full _ _) :: _ => mergeFull fields specs
  | first :: rest => do
    require (∀ spec ∈ rest, spec = first) ⟨.assertion, .mergeSpecs⟩
    .ok first

/-- The place of a spec's class among the class names in alphabetical order. -/
def className : LayerSpec → Nat
  | .attention _ (.chunkedLocal _) => 0
  | .attention _ .crossAttention => 1
  | .attention _ .encoderOnly => 2
  | .attention _ (.full _ _) => 3
  | .mamba .. => 4
  | .attention _ (.slidingWindow _) => 5

/-- `unify_hybrid_kv_cache_specs` for one layer of a model with full attention. -/
def toFullAttention : LayerSpec → LayerSpec
  | .attention fields (.slidingWindow slidingWindow) =>
    .attention fields (.full (some slidingWindow) none)
  | .attention fields (.chunkedLocal attentionChunkSize) =>
    .attention fields (.full none (some attentionChunkSize))
  | spec => spec

/-- The manager class of a group, with the fields it reads; encoder-only layers have none. -/
def managerKind : LayerSpec → Option SpecKind
  | .attention _ (.full _ _) => some .fullAttention
  | .attention _ (.slidingWindow slidingWindow) => some (.slidingWindow slidingWindow)
  | .attention _ (.chunkedLocal attentionChunkSize) => some (.chunkedLocal attentionChunkSize)
  | .attention _ .crossAttention => some .crossAttention
  | .attention _ .encoderOnly => none
  | .mamba _ _ _ _ _ numSpeculativeBlocks => some (.mamba numSpeculativeBlocks)

/-- `block_size`. -/
def blockSize : LayerSpec → Nat
  | .attention fields _ => fields.blockSize
  | .mamba blockSize .. => blockSize

end LayerSpec

/-- The slices `layers[i:i + size]` for `i` in `range(0, len(layers), size)`. -/
def chunks {α : Type} (size : Nat) (layers : List α) : List (List α) :=
  (List.range (cdiv layers.length size).toNat).map fun i => (layers.drop (i * size)).take size

/-- `get_num_blocks` without an override. -/
def getNumBlocks (numLayers : Nat) (availableMemory : Int) (pageSize : Nat) : Except Err Nat := do
  require (pageSize ≠ 0 ∧ numLayers ≠ 0) ⟨.zeroDivision, .numBlocks⟩
  .ok ((availableMemory.fdiv pageSize).fdiv numLayers).toNat

section Layers

variable {L : Type} [DecidableEq L] (kvCacheSpec : PyDict L LayerSpec)

/-- `get_uniform_page_size`. -/
def getUniformPageSize : Except Err Nat := do
  let pageSizes ← kvCacheSpec.values.mapM LayerSpec.pageSizeBytes
  match pageSizes.dedup with
  | [pageSize] => .ok pageSize
  | _ => .error ⟨.assertion, .uniformPageSize⟩

/-- `create_kv_cache_group_specs`. -/
def createKvCacheGroupSpecs (groupedLayerNames : List (List L)) :
    Except Err (List (KVCacheGroupSpec L)) :=
  groupedLayerNames.mapM fun layerNames => do
    let layerSpecs ← layerNames.mapM fun name => orRaise (kvCacheSpec.get? name) ⟨.key, .mergeSpecs⟩
    let merged ← LayerSpec.merge layerSpecs
    .ok ⟨layerNames, merged⟩

/-- `is_kv_cache_type_uniform`: only a failed assertion of the merge counts as a no. -/
def isKvCacheTypeUniform : Except Err Bool :=
  match LayerSpec.merge kvCacheSpec.values with
  | .ok _ => .ok true
  | .error e => if e.kind = .assertion then .ok false else .error e

/-- `_get_kv_cache_config_uniform_type`: a tensor for each layer. -/
def getKvCacheConfigUniformType (availableMemory : Int) : Except Err (KVCacheConfig L) := do
  let pageSize ← getUniformPageSize kvCacheSpec
  let numBlocks ← getNumBlocks kvCacheSpec.keys.length availableMemory pageSize
  let kvCacheGroups ← createKvCacheGroupSpecs kvCacheSpec [kvCacheSpec.keys]
  .ok {
    numBlocks
    kvCacheTensors := kvCacheSpec.keys.map fun name => ⟨pageSize * numBlocks, [name]⟩
    kvCacheGroups }

/-- The layers of each spec, in the order of the model. -/
def sameTypeLayers : PyDict LayerSpec (List L) :=
  kvCacheSpec.items.foldl
    (fun layers item => layers.set item.2 ((layers.get? item.2).getD [] ++ [item.1])) .empty

/-- The layers in the column of a tensor, one from each group that is long enough. -/
def sharedBy (groupedLayers : List (List L)) (i : Nat) : List L :=
  groupedLayers.filterMap fun layers => layers[i]?

/-- `_get_kv_cache_config_uniform_page_size`: a tensor for each column of the groups. -/
def getKvCacheConfigUniformPageSize (availableMemory : Int) : Except Err (KVCacheConfig L) := do
  let layersByType := (sameTypeLayers kvCacheSpec).values
  let groupSize ← orRaise (layersByType.map List.length).min? ⟨.value, .numBlocks⟩
  let groupedLayers := layersByType.flatMap (chunks groupSize)
  let kvCacheGroups ← createKvCacheGroupSpecs kvCacheSpec groupedLayers
  let pageSize ← getUniformPageSize kvCacheSpec
  let numBlocks ← getNumBlocks groupSize availableMemory pageSize
  .ok {
    numBlocks
    kvCacheTensors := (List.range groupSize).map fun i =>
      ⟨pageSize * numBlocks, sharedBy groupedLayers i⟩
    kvCacheGroups }

/-- Mapping the values of a dictionary. -/
def mapValues {K V W : Type} (f : V → W) (d : PyDict K V) : PyDict K W :=
  ⟨d.items.map fun item => (item.1, f item.2), by
    rw [List.map_map]
    exact d.nodup⟩

/-- Whether a spec is of a class. -/
def anyOf (className : List Nat) : Bool :=
  kvCacheSpec.values.any fun spec => spec.className ∈ className

/-- `unify_hybrid_kv_cache_specs`. -/
def unifyHybridKvCacheSpecs : Except Err (PyDict L LayerSpec) := do
  if ← isKvCacheTypeUniform kvCacheSpec then .ok kvCacheSpec
  else
    -- Windows and chunks become full attention only beside full attention.
    let unified := if anyOf kvCacheSpec [3] && anyOf kvCacheSpec [0, 5] then
      mapValues LayerSpec.toFullAttention kvCacheSpec else kvCacheSpec
    let uniform ← isKvCacheTypeUniform unified
    require (uniform = true) ⟨.value, .hybridSpecs⟩
    .ok unified

/-- The specs the layout is made for. -/
def layoutSpecs (disableHybridKvCacheManager : Bool) (kvCacheSpec : PyDict L LayerSpec) :
    Except Err (PyDict L LayerSpec) :=
  if disableHybridKvCacheManager then unifyHybridKvCacheSpecs kvCacheSpec else .ok kvCacheSpec

/-- `get_kv_cache_config`, where there is memory for a request of the longest length. -/
def getKvCacheConfig (disableHybridKvCacheManager : Bool) (kvCacheSpec : PyDict L LayerSpec)
    (availableMemory : Int) : Except Err (KVCacheConfig L) := do
  require (kvCacheSpec.keys = [] ∨ 0 < availableMemory) ⟨.value, .availableMemory⟩
  let kvCacheSpec ← layoutSpecs disableHybridKvCacheManager kvCacheSpec
  if kvCacheSpec.keys = [] then .ok ⟨1, [], []⟩
  else if ← isKvCacheTypeUniform kvCacheSpec then
    getKvCacheConfigUniformType kvCacheSpec availableMemory
  else do
    let pageSizes ← kvCacheSpec.values.mapM LayerSpec.pageSizeBytes
    require (pageSizes.dedup.length = 1) ⟨.notImplemented, .uniformPageSize⟩
    getKvCacheConfigUniformPageSize kvCacheSpec availableMemory

/-- The order of the groups: by class name, and by the fields among specs of one class. -/
def groupBefore (fieldsBefore : LayerSpec → LayerSpec → Bool) (a b : KVCacheGroupSpec L) : Prop :=
  a.kvCacheSpec.className < b.kvCacheSpec.className ∨
    a.kvCacheSpec.className = b.kvCacheSpec.className ∧ fieldsBefore a.kvCacheSpec b.kvCacheSpec

instance (fieldsBefore : LayerSpec → LayerSpec → Bool) (a b : KVCacheGroupSpec L) :
    Decidable (groupBefore fieldsBefore a b) :=
  inferInstanceAs (Decidable (_ ∨ _ ∧ _))

/-- The sort of the groups of one worker. -/
def sortGroups (fieldsBefore : LayerSpec → LayerSpec → Bool) (config : KVCacheConfig L) :
    KVCacheConfig L :=
  { config with kvCacheGroups := config.kvCacheGroups.insertionSort (groupBefore fieldsBefore) }

/-- `unify_kv_cache_configs`; `zip` compares only as many groups as both workers have. -/
def unifyKvCacheConfigs (fieldsBefore : LayerSpec → LayerSpec → Bool)
    (kvCacheConfigs : List (KVCacheConfig L)) : Except Err (List (KVCacheConfig L)) := do
  let sorted := kvCacheConfigs.map (sortGroups fieldsBefore)
  let first : List (KVCacheGroupSpec L) := (sorted.head?.map (·.kvCacheGroups)).getD []
  require (∀ config ∈ sorted.tail, ∀ pair ∈ first.zip config.kvCacheGroups,
    pair.1.kvCacheSpec = pair.2.kvCacheSpec) ⟨.assertion, .kvCacheGroups⟩
  let minNumBlocks ← orRaise (sorted.map (·.numBlocks)).min? ⟨.value, .kvCacheGroups⟩
  .ok (sorted.map fun config => { config with numBlocks := minNumBlocks })

end Layers

end Mimir
