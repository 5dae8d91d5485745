import Mimir.Python.Dict
import Mimir.Python.Seq
import Mimir.Request.Types

/-! The pool of KV cache blocks: reference counts, the free queue and the hash table of full blocks. -/

namespace Mimir

open Python

/-- A block's number, below the number of blocks of its pool. -/
abbrev BlockId := Nat

/-- The placeholder block: the first block the fresh pool popped. -/
abbrev nullBlock : BlockId := 0

/-- `BlockHashWithGroupId`: a block hash and the KV cache group it was computed for. -/
abbrev BlockHashWithGroupId (H : Type) := H × Nat

/-- Metadata of one block; its place in the free queue is kept by the queue. -/
structure KVCacheBlock (H : Type) where
  refCnt : Int := 0
  blockHash : Option (BlockHashWithGroupId H) := none

/-- The pool of blocks shared by all KV cache groups. -/
structure BlockPool (H : Type) where
  numGpuBlocks : Nat
  enableCaching : Bool
  blocks : BlockId → KVCacheBlock H
  /-- The free blocks in eviction order. -/
  freeBlockQueue : List BlockId
  /-- For each hash, the blocks carrying it, in the order they were cached. -/
  cachedBlockHashToBlock : PyDict (BlockHashWithGroupId H) (List BlockId)

namespace BlockPool

variable {H : Type} (p : BlockPool H)

/-- A fresh pool: every block is free except the placeholder, which was popped first. -/
def init (numGpuBlocks : Nat) (enableCaching : Bool) : BlockPool H where
  numGpuBlocks := numGpuBlocks
  enableCaching := enableCaching
  blocks := fun _ => {}
  freeBlockQueue := (List.range numGpuBlocks).tail
  cachedBlockHashToBlock := .empty

/-- Changing the metadata of one block. -/
def modify (b : BlockId) (f : KVCacheBlock H → KVCacheBlock H) : BlockPool H :=
  { p with blocks := Function.update p.blocks b (f (p.blocks b)) }

/-- `get_num_free_blocks`. -/
def getNumFreeBlocks : Nat := p.freeBlockQueue.length

/-- A block without users is in the free queue, and leaves it when it is hit. -/
def leaveFreeQueue (b : BlockId) : Except Err (BlockPool H) :=
  if (p.blocks b).refCnt = 0 ∧ b ≠ nullBlock then do
    require (b ∈ p.freeBlockQueue) ⟨.runtime, .freeQueueRemove⟩
    .ok { p with freeBlockQueue := p.freeBlockQueue.erase b }
  else .ok p

/-- One turn of `touch`: the block has one more user. -/
def touchBlock (b : BlockId) : Except Err (BlockPool H) := do
  let p ← p.leaveFreeQueue b
  .ok (p.modify b fun blk => { blk with refCnt := blk.refCnt + 1 })

/-- The loop of `touch` over the blocks of one group. -/
def touchBlocks (p : BlockPool H) : List BlockId → Except Err (BlockPool H)
  | [] => .ok p
  | b :: rest => do
    let p ← p.touchBlock b
    touchBlocks p rest

/-- `touch`: the groups one after the other. -/
def touch (p : BlockPool H) : List (List BlockId) → Except Err (BlockPool H)
  | [] => .ok p
  | group :: rest => do
    let p ← p.touchBlocks group
    touch p rest

/-- The first pass of `free_blocks`: every block loses one user. -/
def decrementAll (p : BlockPool H) : List BlockId → BlockPool H
  | [] => p
  | b :: rest => decrementAll (p.modify b fun blk => { blk with refCnt := blk.refCnt - 1 }) rest

/-- `free_blocks`: the blocks without users join the end of the free queue, in the given order. -/
def freeBlocks (orderedBlocks : List BlockId) : BlockPool H :=
  let p := p.decrementAll orderedBlocks
  { p with
    freeBlockQueue := p.freeBlockQueue ++
      orderedBlocks.filter fun b => (p.blocks b).refCnt = 0 ∧ b ≠ nullBlock }

/-- `reset_prefix_cache`: only a pool whose blocks are all free forgets its hashes. -/
def resetPrefixCache : Bool × BlockPool H :=
  -- The placeholder always counts as used.
  if (p.numGpuBlocks : Int) - p.getNumFreeBlocks ≠ 1 then (false, p)
  else (true, { p with
    cachedBlockHashToBlock := .empty
    blocks := fun b => { p.blocks b with blockHash := none } })

variable [DecidableEq H]

/-- `get_cached_block`: the first cached block of every group, or none if a group misses. -/
def getCachedBlock (p : BlockPool H) (blockHash : H) : List Nat → Option (List BlockId)
  | [] => some []
  | groupId :: rest =>
    match p.cachedBlockHashToBlock.get? (blockHash, groupId) with
    | some (first :: _) => (p.getCachedBlock blockHash rest).map (first :: ·)
    | _ => none

/-- One turn of the caching loop: the block gets its hash and enters the table. -/
def cacheFullBlock (b : BlockId) (key : BlockHashWithGroupId H) : Except Err (BlockPool H) := do
  require ((p.blocks b).blockHash = none) ⟨.assertion, .cacheFullBlocksHashed⟩
  let p := p.modify b fun blk => { blk with blockHash := some key }
  let sameHash := (p.cachedBlockHashToBlock.get? key).getD []
  .ok { p with
    cachedBlockHashToBlock := p.cachedBlockHashToBlock.set key
      (if b ∈ sameHash then sameHash else sameHash ++ [b]) }

/-- The caching loop over blocks and the hashes meant for them. -/
def cacheFullBlocksLoop (groupId : Nat) (p : BlockPool H) :
    List BlockId → List H → Except Err (BlockPool H)
  | [], _ => .ok p
  | _ :: _, [] => .error ⟨.index, .cacheFullBlocksHashes⟩
  | b :: blocks, blockHash :: hashes => do
    let p ← p.cacheFullBlock b (blockHash, groupId)
    cacheFullBlocksLoop groupId p blocks hashes

/-- What the event of stored blocks reads, with KV cache events on: the hash of the block before them and the
`id` of the request's LoRA, if it has one; a `LoRARequest` has no such attribute. -/
def storedEvent (event : Option Bool) (blocks : List BlockId) (numCachedBlocks : Int) :
    Except Err Unit :=
  match event with
  | none => .ok ()
  | some hasLora => do
    (if numCachedBlocks = 0 then .ok () else do
      let parentBlock ← orRaise blocks[(numCachedBlocks - 1).toNat]? ⟨.index, .storedParent⟩
      require ((p.blocks parentBlock).blockHash.isSome) ⟨.assertion, .storedParent⟩)
    require (hasLora = false) ⟨.attribute, .storedLora⟩

/-- `cache_full_blocks`: hash the blocks from `numCachedBlocks` up to `numFullBlocks`. -/
def cacheFullBlocks (event : Option Bool) (blockHashes : List H) (blocks : List BlockId)
    (numCachedBlocks numFullBlocks : Int) (groupId : Nat) : Except Err (BlockPool H) :=
  if numCachedBlocks = numFullBlocks then .ok p
  else do
    require (numFullBlocks ≤ blockHashes.length) ⟨.assertion, .cacheFullBlocksHashes⟩
    let p ← cacheFullBlocksLoop groupId p (pySlice blocks numCachedBlocks numFullBlocks)
      (blockHashes.drop (sliceIndex blockHashes.length numCachedBlocks))
    p.storedEvent event blocks numCachedBlocks
    .ok p

/-- `_maybe_evict_cached_block`: a reused block loses its hash and its place in the table. -/
def maybeEvictCachedBlock (b : BlockId) : BlockPool H :=
  match (p.blocks b).blockHash with
  | none => p
  | some key =>
    match p.cachedBlockHashToBlock.get? key with
    | none => p
    | some blocksById =>
      let p := p.modify b fun blk => { blk with blockHash := none }
      let rest := blocksById.erase b
      -- An emptied inner dictionary is dropped from the table.
      if rest.isEmpty then
        { p with cachedBlockHashToBlock := p.cachedBlockHashToBlock.erase key }
      else
        { p with cachedBlockHashToBlock := p.cachedBlockHashToBlock.set key rest }

/-- The loop that turns popped blocks into used ones. -/
def claimBlocks (p : BlockPool H) : List BlockId → Except Err (BlockPool H)
  | [] => .ok p
  | b :: rest => do
    let p := if p.enableCaching then p.maybeEvictCachedBlock b else p
    require ((p.blocks b).refCnt = 0) ⟨.assertion, .getNewBlocksRefCnt⟩
    claimBlocks (p.modify b fun blk => { blk with refCnt := blk.refCnt + 1 }) rest

/-- `get_new_blocks`: the blocks longest free are popped, evicted and counted. -/
def getNewBlocks (numBlocks : Nat) : Except Err (List BlockId × BlockPool H) := do
  require (numBlocks ≤ p.getNumFreeBlocks) ⟨.value, .getNewBlocks⟩
  let ret := p.freeBlockQueue.take numBlocks
  let p ← claimBlocks { p with freeBlockQueue := p.freeBlockQueue.drop numBlocks } ret
  .ok (ret, p)

end BlockPool

end Mimir
