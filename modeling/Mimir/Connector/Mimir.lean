import Mimir.Connector.Meta
import Mimir.Python.Dict
import Mimir.Sched.State

/-! The scheduler side of the connector: lookups in the store, and what each step loads and stores. -/

namespace Mimir

open Python

/-- `MimirConnectorMetadata`; the ids say whose entries they are, and nothing reads them. -/
abbrev MimirConnectorMetadata := List (RequestId × ReqMeta)

/-- `MimirConnector`, with the store that both of its sides share. -/
structure MimirConnector (H K : Type) where
  /-- The requests that need a load in this step. -/
  requestsNeedLoad : PyDict RequestId (Request H) := .empty
  /-- The matched prefix length of each request. -/
  hitLengths : PyDict RequestId Int := .empty
  /-- The keys of `_CPU_KV_STORE`, each with the request and the entry that wrote it last. -/
  cpuKvStore : PyDict K (RequestId × ReqMeta) := .empty

namespace MimirConnector

variable {H K : Type} [DecidableEq K] (blockSize : Nat) (prefixHash : List TokenId → K)
  (c : MimirConnector H K)

/-- The scan of `_lookup_prefix_hit`, from a number of blocks down to one. -/
def scanPrefixes (c : MimirConnector H K) (promptTokenIds : List TokenId) : Nat → Option (K × Nat)
  | 0 => none
  | blocks + 1 =>
    let n := (blocks + 1) * blockSize
    let key := prefixHash (promptTokenIds.take n)
    if c.cpuKvStore.contains key then some (key, n) else c.scanPrefixes promptTokenIds blocks

/-- `_lookup_prefix_hit`: the longest stored prefix of the prompt. -/
def lookupPrefixHit (request : Request H) : Option (K × Nat) :=
  c.scanPrefixes blockSize prefixHash request.promptTokenIds
    (request.promptTokenIds.length / blockSize)

/-- `get_num_new_matched_tokens`. -/
def getNumNewMatchedTokens (request : Request H)
    (numComputedTokens : Int) : (Option Int × Bool) × MimirConnector H K :=
  match c.lookupPrefixHit blockSize prefixHash request with
  | none => ((some 0, false), c)
  | some (_, numHitTokens) =>
    let newTokens := numHitTokens - numComputedTokens
    if newTokens ≤ 0 then ((some 0, false), c)
    else
      ((some newTokens, false),
        { c with hitLengths := c.hitLengths.set request.requestId numHitTokens })

/-- `update_state_after_alloc`. -/
def updateStateAfterAlloc (request : Request H)
    (_blocks : List (List BlockId)) (numExternalTokens : Int) : MimirConnector H K :=
  if numExternalTokens > 0 then
    { c with requestsNeedLoad := c.requestsNeedLoad.set request.requestId request }
  else c

/-- What a step does for a request the worker sees for the first time. -/
def newReqMeta (newReq : NewRequestData) :
    Except Err MimirConnectorMetadata :=
  let add (isStore : Bool) (hitTokenCount : Option Int) : Except Err MimirConnectorMetadata := do
    let blockIds ← orRaise newReq.blockIds.head? ⟨.index, .connectorBlocks⟩
    .ok [(newReq.reqId, .makeMeta newReq.promptTokenIds blockIds blockSize isStore
      (newReq.mmFeatures.map (·.identifier)) hitTokenCount)]
  if c.requestsNeedLoad.contains newReq.reqId then
    add false (some ((c.hitLengths.get? newReq.reqId).getD newReq.promptTokenIds.length))
  else if alignToBlockSize newReq.promptTokenIds.length blockSize ≥ blockSize then add true none
  else .ok []

/-- What a step does for a resumed request that needs a load. -/
def resumedReqMeta (numScheduledTokens : PyDict RequestId Int)
    (row : CachedRequestData) : Except Err MimirConnectorMetadata :=
  match c.requestsNeedLoad.get? row.reqId with
  | none => .ok []
  | some request => do
    let numNewTokens ← orRaise (numScheduledTokens.get? row.reqId) ⟨.key, .connectorScheduled⟩
    let newBlockIds ← orRaise row.newBlockIds ⟨.type, .connectorBlocks⟩
    let blockIds ← orRaise newBlockIds.head? ⟨.index, .connectorBlocks⟩
    let hitLen := (c.hitLengths.get? row.reqId).getD row.numComputedTokens
    let tokenIds := pySlice request.allTokenIds 0 (row.numComputedTokens + numNewTokens)
    .ok [(row.reqId, .makeMeta tokenIds blockIds blockSize false request.mmHashes (some hitLen))]

/-- The loop of `build_connector_meta` over the new requests. -/
def newReqsMeta (c : MimirConnector H K) : List NewRequestData → Except Err MimirConnectorMetadata
  | [] => .ok []
  | newReq :: rest => do
    let entries ← c.newReqMeta blockSize newReq
    let later ← c.newReqsMeta rest
    .ok (entries ++ later)

/-- The loop of `build_connector_meta` over the cached requests. -/
def cachedReqsMeta (c : MimirConnector H K) (numScheduledTokens : PyDict RequestId Int) :
    List CachedRequestData → Except Err MimirConnectorMetadata
  | [] => .ok []
  | row :: rest =>
    -- The loop ends at the first request that was not resumed.
    if row.resumedFromPreemption = false then .ok []
    else do
      let entries ← c.resumedReqMeta blockSize numScheduledTokens row
      let later ← c.cachedReqsMeta numScheduledTokens rest
      .ok (entries ++ later)

/-- `build_connector_meta`. -/
def buildConnectorMeta (out : SchedulerOutput MimirConnectorMetadata) :
    Except Err (MimirConnectorMetadata × MimirConnector H K) := do
  let new ← c.newReqsMeta blockSize out.scheduledNewReqs
  let cached ← c.cachedReqsMeta blockSize out.numScheduledTokens out.scheduledCachedReqs
  .ok (new ++ cached, { c with requestsNeedLoad := .empty, hitLengths := .empty })

/-- What `save_kv_layer` does to the keys of the store for one entry. -/
def storeEntry (entry : RequestId × ReqMeta) : MimirConnector H K :=
  if entry.2.isStore = false ∨ entry.2.slotMapping = [] then c
  else { c with cpuKvStore := c.cpuKvStore.set (prefixHash entry.2.tokenIds) entry }

/-- The forward pass of a step, for the keys of the store. -/
def executeStep (metadata : MimirConnectorMetadata) : MimirConnector H K :=
  metadata.foldl (storeEntry prefixHash) c

/-- The hooks of the connector; nothing is loaded or stored asynchronously. -/
def ops : ConnectorOps H (MimirConnector H K) MimirConnectorMetadata where
  getNumNewMatchedTokens := getNumNewMatchedTokens blockSize prefixHash
  updateStateAfterAlloc := updateStateAfterAlloc
  buildConnectorMeta := buildConnectorMeta blockSize
  requestFinished := fun c _ _ => .ok ((false, none), c)
  updateConnectorOutput := fun c _ => c
  executeStep := executeStep prefixHash

end MimirConnector

end Mimir
