import Mimir.Kv.Manager

/-! The KV cache manager: the groups' managers over one pool, cache lookups and slot allocation. -/

namespace Mimir

open Python

/-- What the KV cache manager is built from. -/
structure KVConfig where
  groups : List KVCacheSpec
  numBlocks : Nat
  blocksPositive : 0 < numBlocks
  enableCaching : Bool
  useEagle : Bool
  maxModelLen : Int
  dcpWorldSize : Nat
  enableKvCacheEvents : Bool := false

/-- What the events of stored blocks read of a request: whether it has a LoRA, if there are events. -/
def KVConfig.event {H : Type} (cfg : KVConfig) (r : Request H) : Option Bool :=
  if cfg.enableKvCacheEvents then some r.loraRequest.isSome else none

/-- The state of the KV cache manager: the block pool and one manager for each group. -/
structure KVCacheManager (H : Type) where
  blockPool : BlockPool H
  managers : List Manager

namespace KVCacheManager

variable {H : Type} (cfg : KVConfig) (kv : KVCacheManager H)

/-- The manager before any request. -/
def init (cfg : KVConfig) : KVCacheManager H where
  blockPool := .init cfg.numBlocks cfg.enableCaching
  managers := cfg.groups.mapIdx fun i spec => .init spec i cfg.dcpWorldSize

/-- `get_blocks`: the block list of a request in each group. -/
def getBlocks (id : RequestId) : List (List BlockId) :=
  kv.managers.map fun m => m.blocksOf id

/-- `create_empty_block_list`. -/
def createEmptyBlockList : List (List BlockId) :=
  kv.managers.map fun _ => []

/-- `KVCacheCoordinator.get_num_blocks_to_allocate`: cross-attention is sized by the encoder. -/
def numBlocksToAllocate (p : BlockPool H) (id : RequestId) (numTokens numEncoderTokens : Int) :
    List Manager → List (List BlockId) → Int
  | [], _ => 0
  | m :: ms, newComputedBlocks =>
    (match m.spec.kind with
      | .crossAttention => m.getNumBlocksToAllocate p id numEncoderTokens []
      | _ => m.getNumBlocksToAllocate p id numTokens (newComputedBlocks.headD []))
    + numBlocksToAllocate p id numTokens numEncoderTokens ms newComputedBlocks.tail

/-- `KVCacheCoordinator.save_new_computed_blocks`. -/
def saveNewComputedBlocks (id : RequestId) :
    List Manager → List (List BlockId) → Except Err (List Manager)
  | [], _ => .ok []
  | m :: ms, newComputedBlocks => do
    let m ← m.saveNewComputedBlocks id (newComputedBlocks.headD [])
    let ms ← saveNewComputedBlocks id ms newComputedBlocks.tail
    .ok (m :: ms)

/-- `KVCacheCoordinator.free`. -/
def freeAll (id : RequestId) : List Manager → BlockPool H → List Manager × BlockPool H
  | [], p => ([], p)
  | m :: ms, p =>
    let (m, p) := m.free p id
    let (ms, p) := freeAll id ms p
    (m :: ms, p)

/-- `KVCacheManager.free`. -/
def free (id : RequestId) : KVCacheManager H :=
  let (managers, blockPool) := freeAll id kv.managers kv.blockPool
  { blockPool, managers }

/-- `KVCacheCoordinator.remove_skipped_blocks`. -/
def removeSkippedBlocks (id : RequestId) (numComputedTokens : Int) :
    List Manager → BlockPool H → Except Err (List Manager × BlockPool H)
  | [], p => .ok ([], p)
  | m :: ms, p => do
    let (m, p) ← m.removeSkippedBlocks p id numComputedTokens
    let (ms, p) ← removeSkippedBlocks id numComputedTokens ms p
    .ok (m :: ms, p)

/-- `get_num_common_prefix_blocks`; without prefix caching nothing is shared. -/
def getNumCommonPrefixBlocks (cfg : KVConfig) (kv : KVCacheManager H) (id : RequestId)
    (numRunningRequests : Nat) : List Nat :=
  kv.managers.map fun m =>
    if cfg.enableCaching then m.getNumCommonPrefixBlocks kv.blockPool id numRunningRequests else 0

/-- `reset_prefix_cache`. -/
def resetPrefixCache (kv : KVCacheManager H) : Bool × KVCacheManager H :=
  let (done, blockPool) := kv.blockPool.resetPrefixCache
  (done, { kv with blockPool })

variable [DecidableEq H]

/-- `KVCacheCoordinator.allocate_new_blocks`. -/
def allocateNewBlocks (id : RequestId) (numTokens numEncoderTokens : Int) :
    List Manager → BlockPool H → Except Err (List (List BlockId) × List Manager × BlockPool H)
  | [], p => .ok ([], [], p)
  | m :: ms, p => do
    let tokens := match m.spec.kind with
      | .crossAttention => numEncoderTokens
      | _ => numTokens
    let (new, m, p) ← m.allocateNewBlocks p id tokens
    let (news, ms, p) ← allocateNewBlocks id numTokens numEncoderTokens ms p
    .ok (new :: news, m :: ms, p)

/-- `KVCacheCoordinator.cache_blocks`. -/
def cacheAll (event : Option Bool) (id : RequestId) (blockHashes : List H) (numTokens : Int) :
    List Manager → BlockPool H → Except Err (List Manager × BlockPool H)
  | [], p => .ok ([], p)
  | m :: ms, p => do
    let (m, p) ← m.cacheBlocks p event id blockHashes numTokens
    let (ms, p) ← cacheAll event id blockHashes numTokens ms p
    .ok (m :: ms, p)

/-- `KVCacheManager.cache_blocks`: caches only where prefix caching is on. -/
def cacheBlocks (r : Request H) (numComputedTokens : Int) :
    Except Err (KVCacheManager H) :=
  if cfg.enableCaching then do
    let (managers, blockPool) ←
      cacheAll (cfg.event r) r.requestId r.blockHashes numComputedTokens kv.managers kv.blockPool
    .ok { blockPool, managers }
  else .ok kv

/-- The ids of the groups whose attention type passes a test. -/
def groupIdsWhere (test : SpecKind → Bool) : List Nat :=
  (List.range cfg.groups.length).filter fun i =>
    match cfg.groups[i]? with
    | some spec => test spec.kind
    | none => false

/-- Whether a group has full attention. -/
def isFull (kind : SpecKind) : Bool := kind = .fullAttention

/-- `verify_and_split_kv_cache_groups`: the groups with full attention are alike, and so are the others. -/
def Verified : Prop :=
  cfg.enableCaching = true → ∀ a ∈ cfg.groups, ∀ b ∈ cfg.groups, isFull a.kind = isFull b.kind → a = b

/-- `HybridKVCacheCoordinator.find_longest_cache_hit`: the other groups search within the full hit. -/
def hybridHit (p : BlockPool H) (full other : KVCacheSpec) (blockHashes : List H)
    (maxCacheHitLength : Int) : Except Err (List (List BlockId) × Int) := do
  let fullIds := groupIdsWhere cfg isFull
  let otherIds := groupIdsWhere cfg fun kind => !isFull kind
  let hitFull ← findLongestCacheHit p full 1 fullIds cfg.useEagle blockHashes maxCacheHitLength
  let fullLength : Int := (hitFull.headD []).length * full.blockSize
  let hitOther ← findLongestCacheHit p other 1 otherIds cfg.useEagle blockHashes fullLength
  let hitLength := (hitOther.headD []).length * other.blockSize
  require (hitLength % full.blockSize = 0) ⟨.assertion, .hitLengthAlignment⟩
  -- The full-attention hit is cut to the length the other groups reached.
  let hitFull := hitFull.map (List.take (hitLength / full.blockSize))
  let fullFirst : Bool := fullIds.getLast?.getD 0 < otherIds.headD 0
  .ok (if fullFirst then hitFull ++ hitOther else hitOther ++ hitFull, hitLength)

/-- `find_longest_cache_hit` of the coordinator that the configuration selects. -/
def findLongestHit (blockHashes : List H)
    (maxCacheHitLength : Int) : Except Err (List (List BlockId) × Int) :=
  if cfg.enableCaching then
    match cfg.groups with
    | [spec] => do
      let hit ← Mimir.findLongestCacheHit kv.blockPool spec cfg.dcpWorldSize [0] cfg.useEagle
        blockHashes maxCacheHitLength
      let blockSize :=
        if cfg.dcpWorldSize > 1 then spec.blockSize * cfg.dcpWorldSize else spec.blockSize
      .ok (hit, (hit.headD []).length * blockSize)
    | groups =>
      match groups.find? (fun spec => isFull spec.kind),
          groups.find? (fun spec => !isFull spec.kind) with
      | some full, some other => hybridHit cfg kv.blockPool full other blockHashes maxCacheHitLength
      | _, _ => .error ⟨.assertion, .hitLengthAlignment⟩
  else .ok (kv.createEmptyBlockList, 0)

/-- `get_computed_blocks`: the longest cached prefix, leaving the last token to compute. -/
def getComputedBlocks (r : Request H) :
    Except Err (List (List BlockId) × Int) :=
  -- A request for prompt logprobs has to compute its whole prompt.
  if !cfg.enableCaching || r.wantsPromptLogprobs then
    .ok (kv.createEmptyBlockList, 0)
  else findLongestHit cfg kv r.blockHashes ((r.numTokens : Int) - 1)

/-- The arguments of `allocate_slots` beside the request, with the source's defaults. -/
structure AllocArgs where
  numNewTokens : Int
  numNewComputedTokens : Int := 0
  newComputedBlocks : Option (List (List BlockId)) := none
  numLookaheadTokens : Int := 0
  delayCacheBlocks : Bool := false
  numEncoderTokens : Int := 0

/-- The tokens for which a call of `allocate_slots` needs slots. -/
def tokensNeedSlot (r : Request H) (args : AllocArgs) : Int :=
  min (r.numComputedTokens + args.numNewComputedTokens + args.numNewTokens +
    args.numLookaheadTokens) cfg.maxModelLen

/-- The hit blocks are touched; without prefix caching there are none. -/
def touchComputed (p : BlockPool H) (newComputedBlocks : List (List BlockId)) :
    Except Err (BlockPool H) :=
  if cfg.enableCaching then p.touch newComputedBlocks
  else do
    require (∀ group ∈ newComputedBlocks, group = []) ⟨.assertion, .computedWithoutCaching⟩
    .ok p

/-- Only finalized tokens are cached, not draft tokens that may be rejected. -/
def tokensToCache (r : Request H) (args : AllocArgs) : Int :=
  min (r.numComputedTokens + args.numNewComputedTokens + args.numNewTokens) r.numTokens

/-- The end of `allocate_slots`: the full blocks are cached, unless their tokens are still to come. -/
def cacheCommitted (r : Request H) (args : AllocArgs) (managers : List Manager)
    (p : BlockPool H) : Except Err (List Manager × BlockPool H) :=
  if !cfg.enableCaching || args.delayCacheBlocks then .ok (managers, p)
  else cacheAll (cfg.event r) r.requestId r.blockHashes (tokensToCache r args) managers p

/-- The part of `allocate_slots` that follows a successful check of the free blocks. -/
def commitSlots (r : Request H) (args : AllocArgs) (newComputedBlocks : List (List BlockId)) :
    Except Err (List (List BlockId) × KVCacheManager H) := do
  let blockPool ← touchComputed cfg kv.blockPool newComputedBlocks
  let managers ← saveNewComputedBlocks r.requestId kv.managers newComputedBlocks
  let (newBlocks, managers, blockPool) ← allocateNewBlocks r.requestId (tokensNeedSlot cfg r args)
    args.numEncoderTokens managers blockPool
  let (managers, blockPool) ← cacheCommitted cfg r args managers blockPool
  .ok (newBlocks, { blockPool, managers })

/-- `allocate_slots`: `none` when the free blocks do not suffice. -/
def allocateSlots (r : Request H) (args : AllocArgs) :
    Except Err (Option (List (List BlockId)) × KVCacheManager H) := do
  require (args.numNewTokens ≠ 0) ⟨.value, .allocateZeroTokens⟩
  let newComputedBlocks := args.newComputedBlocks.getD kv.createEmptyBlockList
  -- Skipped blocks are freed even when the request cannot be scheduled.
  let (managers, blockPool) ←
    removeSkippedBlocks r.requestId r.numComputedTokens kv.managers kv.blockPool
  let kv : KVCacheManager H := { blockPool, managers }
  let needed := numBlocksToAllocate kv.blockPool r.requestId (tokensNeedSlot cfg r args)
    args.numEncoderTokens kv.managers newComputedBlocks
  if needed > kv.blockPool.getNumFreeBlocks then .ok (none, kv)
  else do
    let (newBlocks, kv) ← commitSlots cfg kv r args newComputedBlocks
    .ok (some newBlocks, kv)

end KVCacheManager

end Mimir
