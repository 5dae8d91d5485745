import Mimir.Kv.BlockPool

/-! The managers of one KV cache group each: block lists of requests and cache hits by attention type. -/

namespace Mimir

open Python

/-- The attention types a KV cache group can have. -/
inductive SpecKind where
  | fullAttention
  | slidingWindow (slidingWindow : Nat)
  | chunkedLocal (attentionChunkSize : Nat)
  | mamba (numSpeculativeBlocks : Nat)
  | crossAttention
  deriving DecidableEq

/-- A KV cache group's spec: its attention type and its block size, which is positive. -/
structure KVCacheSpec where
  kind : SpecKind
  blockSize : Nat
  positive : 0 < blockSize
  deriving DecidableEq

/-- The manager of one group; `blockSize` is the spec's, times the context-parallel size. -/
structure Manager where
  spec : KVCacheSpec
  blockSize : Nat
  kvCacheGroupId : Nat
  /-- The block list of each request; a missing key stands for the empty list. -/
  reqToBlocks : PyDict RequestId (List BlockId)
  /-- How many blocks of a request are cached; only for requests that hold blocks. -/
  numCachedBlock : PyDict RequestId Int

namespace Manager

variable (m : Manager)

/-- `get_manager_for_kv_cache_spec`: the manager of a group before any request. -/
def init (spec : KVCacheSpec) (kvCacheGroupId dcpWorldSize : Nat) : Manager where
  spec := spec
  blockSize := if dcpWorldSize > 1 then spec.blockSize * dcpWorldSize else spec.blockSize
  kvCacheGroupId := kvCacheGroupId
  reqToBlocks := .empty
  numCachedBlock := .empty

/-- `req_to_blocks[request_id]`, a default dictionary of lists. -/
def blocksOf (id : RequestId) : List BlockId := (m.reqToBlocks.get? id).getD []

/-- The number of token slots a manager needs, with the extra blocks of linear attention. -/
def tokensNeeded (numTokens : Int) : Int :=
  match m.spec.kind with
  | .mamba numSpeculativeBlocks =>
    if numSpeculativeBlocks > 0 then
      numTokens + (m.spec.blockSize : Int) * numSpeculativeBlocks
    else numTokens
  | _ => numTokens

section

variable {H : Type} (p : BlockPool H)

/-- `get_num_blocks_to_allocate`: hit blocks that are free count as allocated too. -/
def getNumBlocksToAllocate (id : RequestId) (numTokens : Int)
    (newComputedBlocks : List BlockId) : Int :=
  let numRequiredBlocks := cdiv (m.tokensNeeded numTokens) m.blockSize
  let numNewBlocks := numRequiredBlocks - newComputedBlocks.length - (m.blocksOf id).length
  let numEvictableComputedBlocks :=
    newComputedBlocks.countP fun b => (p.blocks b).refCnt = 0 ∧ b ≠ nullBlock
  numNewBlocks + numEvictableComputedBlocks

/-- `save_new_computed_blocks`: a request without blocks starts with its cache hits. -/
def saveNewComputedBlocks (m : Manager) (id : RequestId) (newComputedBlocks : List BlockId) :
    Except Err Manager :=
  match m.spec.kind with
  | .crossAttention => do
    -- Cross-attention blocks are never shared between requests.
    require (newComputedBlocks = []) ⟨.assertion, .saveNewComputedBlocks⟩
    .ok m
  | _ =>
    if id ∈ m.numCachedBlock.keys then do
      -- A running request has no new hits.
      require (newComputedBlocks = []) ⟨.assertion, .saveNewComputedBlocks⟩
      .ok m
    else do
      require (m.blocksOf id = []) ⟨.assertion, .saveNewComputedBlocks⟩
      .ok { m with
        reqToBlocks := m.reqToBlocks.set id newComputedBlocks
        numCachedBlock := m.numCachedBlock.set id newComputedBlocks.length }

/-- `free`: the whole list goes back to the pool, its tail first. -/
def free (id : RequestId) : Manager × BlockPool H :=
  ({ m with
      reqToBlocks := m.reqToBlocks.erase id
      numCachedBlock := m.numCachedBlock.erase id },
    p.freeBlocks (m.blocksOf id).reverse)

/-- Replacing blocks by the placeholder from an index down, until one is replaced already. -/
def dropBelow : Nat → List BlockId → Except Err (List BlockId × List BlockId)
  | 0, blocks => .ok (blocks, [])
  | i + 1, blocks =>
    match blocks[i]? with
    | none => .error ⟨.index, .removeSkippedBlocks⟩
    | some b =>
      if b = nullBlock then .ok (blocks, [])
      else do
        let (blocks, removed) ← dropBelow i (blocks.set i nullBlock)
        .ok (blocks, b :: removed)

/-- The index below which blocks are skipped by the attention of the next tokens. -/
def firstUsefulBlock (id : RequestId) (numComputedTokens : Int) : Int :=
  match m.spec.kind with
  | .slidingWindow slidingWindow =>
    (numComputedTokens - slidingWindow + 1).fdiv m.blockSize
  | .chunkedLocal attentionChunkSize =>
    let localAttentionStartIdx :=
      numComputedTokens.fdiv attentionChunkSize * attentionChunkSize
    let firstUsefulBlockIdx := localAttentionStartIdx.fdiv m.blockSize
    let numCachedBlock := (m.numCachedBlock.get? id).getD 0
    -- The last cached block is kept.
    if numCachedBlock > 0 then min firstUsefulBlockIdx (numCachedBlock - 1)
    else firstUsefulBlockIdx
  | _ => 0

/-- `remove_skipped_blocks`: blocks no longer attended to are freed, the last one first. -/
def removeSkippedBlocks (id : RequestId)
    (numComputedTokens : Int) : Except Err (Manager × BlockPool H) :=
  match m.spec.kind with
  | .slidingWindow _ | .chunkedLocal _ => do
    let (blocks, removed) ←
      dropBelow (m.firstUsefulBlock id numComputedTokens).toNat (m.blocksOf id)
    .ok ({ m with reqToBlocks := m.reqToBlocks.set id blocks }, p.freeBlocks removed)
  | _ => .ok (m, p)

/-- `get_num_common_prefix_blocks`: leading blocks used as often as there are running requests. -/
def getNumCommonPrefixBlocks (id : RequestId)
    (numRunningRequests : Nat) : Nat :=
  match m.spec.kind with
  | .fullAttention =>
    ((m.blocksOf id).takeWhile fun b => (p.blocks b).refCnt = numRunningRequests).length
  | _ => 0

variable [DecidableEq H]

/-- `allocate_new_blocks`: the list is extended to the blocks the tokens need. -/
def allocateNewBlocks (id : RequestId) (numTokens : Int) :
    Except Err (List BlockId × Manager × BlockPool H) :=
  let reqBlocks := m.blocksOf id
  let numNewBlocks := cdiv (m.tokensNeeded numTokens) m.blockSize - reqBlocks.length
  if numNewBlocks ≤ 0 then .ok ([], m, p)
  else do
    let (newBlocks, p) ← p.getNewBlocks numNewBlocks.toNat
    .ok (newBlocks, { m with reqToBlocks := m.reqToBlocks.set id (reqBlocks ++ newBlocks) }, p)

/-- `cache_blocks`: the full blocks below a number of tokens get their hashes. -/
def cacheBlocks (event : Option Bool) (id : RequestId) (blockHashes : List H)
    (numTokens : Int) : Except Err (Manager × BlockPool H) :=
  match m.spec.kind with
  | .crossAttention => .error ⟨.value, .crossAttentionCaching⟩
  | _ => do
    let numCachedBlocks ← orRaise (m.numCachedBlock.get? id) ⟨.key, .numCachedBlockMissing⟩
    let numFullBlocks := numTokens.fdiv m.blockSize
    let p ← p.cacheFullBlocks event blockHashes (m.blocksOf id) numCachedBlocks numFullBlocks
      m.kvCacheGroupId
    .ok ({ m with numCachedBlock := m.numCachedBlock.set id numFullBlocks }, p)

end

end Manager

section Hits

variable {H : Type} [DecidableEq H] (p : BlockPool H)

/-- One list per group; the blocks of a further hit are put behind each. -/
def appendHit (computed : List (List BlockId)) (hit : List BlockId) : List (List BlockId) :=
  List.zipWith (fun list b => list ++ [b]) computed hit

/-- The leading run of cached hashes, group by group. -/
def leadingHits (p : BlockPool H) (groupIds : List Nat) :
    List H → List (List BlockId) → List (List BlockId)
  | [], computed => computed
  | blockHash :: rest, computed =>
    match p.getCachedBlock blockHash groupIds with
    | some (b :: bs) => leadingHits p groupIds rest (appendHit computed (b :: bs))
    | _ => computed

/-- The speculative head needs the hidden states of the last hit block, so it is dropped. -/
def dropLastForEagle (useEagle : Bool) (computed : List (List BlockId)) : List (List BlockId) :=
  match computed with
  | (_ :: _) :: _ => if useEagle then computed.map List.dropLast else computed
  | _ => computed

/-- `FullAttentionManager.find_longest_cache_hit`. -/
def fullAttentionHit (blockSize : Nat) (groupIds : List Nat) (useEagle : Bool)
    (blockHashes : List H) (maxLength : Int) : List (List BlockId) :=
  let maxNumBlocks := (maxLength.fdiv blockSize).toNat
  dropLastForEagle useEagle
    (leadingHits p groupIds (blockHashes.take maxNumBlocks) (groupIds.map fun _ => []))

/-- The right-to-left scan for a run of cached blocks long enough to fill the window. -/
def slidingWindowScan (p : BlockPool H) (groupIds : List Nat) (blockHashes : List H)
    (needed : Int) : Nat → Nat → List (List BlockId) → Except Err (List (List BlockId))
  | 0, contiguous, computed => .ok (computed.map (List.take contiguous))
  | i + 1, contiguous, computed => do
    let blockHash ← orRaise blockHashes[i]? ⟨.index, .blockHashIndex⟩
    match p.getCachedBlock blockHash groupIds with
    | some (b :: bs) =>
      let computed := List.zipWith (fun list hit => list.set i hit) computed (b :: bs)
      if needed ≤ contiguous + 1 then
        -- The blocks behind the run are trimmed.
        .ok (computed.map (List.take (i + (contiguous + 1))))
      else slidingWindowScan p groupIds blockHashes needed i (contiguous + 1) computed
    | _ => slidingWindowScan p groupIds blockHashes needed i 0 computed

/-- `SlidingWindowManager.find_longest_cache_hit`. -/
def slidingWindowHit (slidingWindow blockSize dcpWorldSize : Nat)
    (groupIds : List Nat) (useEagle : Bool) (blockHashes : List H) (maxLength : Int) :
    Except Err (List (List BlockId)) := do
  require (dcpWorldSize = 1) ⟨.assertion, .dcpUnsupported⟩
  -- The token itself is inside the window, so one token less has to be cached.
  let contiguousBlocks := cdiv (slidingWindow - 1) blockSize + if useEagle then 1 else 0
  let maxNumBlocks := (maxLength.fdiv blockSize).toNat
  let computed ← slidingWindowScan p groupIds blockHashes contiguousBlocks maxNumBlocks 0
    (groupIds.map fun _ => List.replicate maxNumBlocks nullBlock)
  .ok (dropLastForEagle useEagle computed)

/-- The left-to-right scan of the blocks of one attention chunk. -/
def chunkedLocalScan (p : BlockPool H) (groupIds : List Nat) (blockHashes : List H) :
    Nat → Nat → List (List BlockId) → Except Err (List (List BlockId))
  | 0, _, computed => .ok computed
  | count + 1, i, computed => do
    let blockHash ← orRaise blockHashes[i]? ⟨.index, .blockHashIndex⟩
    match p.getCachedBlock blockHash groupIds with
    | some (b :: bs) =>
      chunkedLocalScan p groupIds blockHashes count (i + 1) (appendHit computed (b :: bs))
    | _ => .ok computed

/-- `ChunkedLocalAttentionManager.find_longest_cache_hit`: blocks before the chunk count as hits. -/
def chunkedLocalHit (attentionChunkSize blockSize dcpWorldSize : Nat)
    (groupIds : List Nat) (useEagle : Bool) (blockHashes : List H) (maxLength : Int) :
    Except Err (List (List BlockId)) := do
  require (useEagle = false) ⟨.assertion, .chunkedLocalEagle⟩
  require (dcpWorldSize = 1) ⟨.assertion, .dcpUnsupported⟩
  let maxNumBlocks := (maxLength.fdiv blockSize).toNat
  let localAttentionStartIdx : Int :=
    if maxLength > 0 then maxLength.fdiv attentionChunkSize * attentionChunkSize else 0
  let startBlockIdx := (localAttentionStartIdx.fdiv blockSize).toNat
  chunkedLocalScan p groupIds blockHashes (maxNumBlocks - startBlockIdx) startBlockIdx
    (groupIds.map fun _ => List.replicate startBlockIdx nullBlock)

/-- `find_longest_cache_hit` of the manager class of an attention type. -/
def findLongestCacheHit (spec : KVCacheSpec) (dcpWorldSize : Nat)
    (groupIds : List Nat) (useEagle : Bool) (blockHashes : List H) (maxLength : Int) :
    Except Err (List (List BlockId)) :=
  match spec.kind with
  | .fullAttention =>
    let blockSize := if dcpWorldSize > 1 then spec.blockSize * dcpWorldSize else spec.blockSize
    .ok (fullAttentionHit p blockSize groupIds useEagle blockHashes maxLength)
  | .slidingWindow slidingWindow =>
    slidingWindowHit p slidingWindow spec.blockSize dcpWorldSize groupIds useEagle blockHashes
      maxLength
  | .chunkedLocal attentionChunkSize =>
    chunkedLocalHit p attentionChunkSize spec.blockSize dcpWorldSize groupIds useEagle blockHashes
      maxLength
  | .mamba _ => do
    require (dcpWorldSize = 1) ⟨.assertion, .dcpUnsupported⟩
    .ok (groupIds.map fun _ => [])
  | .crossAttention => .error ⟨.notImplemented, .crossAttentionCaching⟩

end Hits

end Mimir
