import Mimir.Kv.CacheManager
import Mimir.Request.Hash
import Mimir.Sched.EncoderCache
import Mimir.Sched.Queue

/-! The scheduler's state, its configuration, what it sends to the workers and what comes back. -/

namespace Mimir

open Python

/-- `NewRequestData`: all a worker needs to know about a request it sees for the first time. -/
structure NewRequestData where
  reqId : RequestId
  promptTokenIds : List TokenId
  mmFeatures : List MmFeature
  samplingParams : Option SamplingParams
  poolingParams : Bool
  blockIds : List (List BlockId)
  numComputedTokens : Int
  loraRequest : Option Int

/-- One row of `CachedRequestData`, whose parallel lists are one list of rows here. -/
structure CachedRequestData where
  reqId : RequestId
  resumedFromPreemption : Bool
  /-- Present with pipeline parallelism, and as a placeholder with a connector. -/
  newTokenIds : Option (List TokenId)
  /-- `None` when no group got a new block. -/
  newBlockIds : Option (List (List BlockId))
  numComputedTokens : Int

/-- `SchedulerOutput`, with the metadata type `M` of the connector. -/
structure SchedulerOutput (M : Type) where
  scheduledNewReqs : List NewRequestData
  scheduledCachedReqs : List CachedRequestData
  numScheduledTokens : PyDict RequestId Int
  totalNumScheduledTokens : Int
  scheduledSpecDecodeTokens : PyDict RequestId (List TokenId)
  scheduledEncoderInputs : PyDict RequestId (List Nat)
  numCommonPrefixBlocks : List Nat
  finishedReqIds : List RequestId
  freeEncoderMmHashes : List String
  kvConnectorMetadata : Option M

/-- `KVConnectorOutput`: the transfers the workers finished. -/
structure KVConnectorOutput where
  finishedSending : List RequestId
  finishedRecving : List RequestId

/-- `ModelRunnerOutput`; a pooled output is only ever passed on, so a number stands for it. -/
structure ModelRunnerOutput where
  reqIdToIndex : PyDict RequestId Nat
  sampledTokenIds : List (List TokenId)
  poolerOutput : List (Option Nat)
  /-- The requests with prompt logprobs in this output. -/
  promptLogprobs : List RequestId
  kvConnectorOutput : Option KVConnectorOutput

/-- Parameters of a KV transfer, passed through to the client. -/
abbrev KVTransferParams := List (String × String)

/-- `EngineCoreOutput`. -/
structure EngineCoreOutput where
  requestId : RequestId
  newTokenIds : List TokenId
  finishReason : Option FinishReason
  poolingOutput : Option Nat
  stopReason : Option TokenId
  kvTransferParams : Option KVTransferParams
  numCachedTokens : Int

/-- `EngineCoreOutputs` of one client. -/
structure EngineCoreOutputs where
  outputs : List EngineCoreOutput := []
  finishedRequests : Option (List RequestId) := none

/-- The connector hooks the scheduler calls, over a connector state `C` and step metadata `M`. -/
structure ConnectorOps (H C M : Type) where
  /-- How many tokens can be loaded beyond the local ones, and whether that happens asynchronously. -/
  getNumNewMatchedTokens : C → Request H → Int → (Option Int × Bool) × C
  updateStateAfterAlloc : C → Request H → List (List BlockId) → Int → C
  buildConnectorMeta : C → SchedulerOutput M → Except Err (M × C)
  /-- Whether the blocks must be kept for a transfer, and parameters for the client. -/
  requestFinished : C → Request H → List BlockId →
    Except Err ((Bool × Option KVTransferParams) × C)
  updateConnectorOutput : C → KVConnectorOutput → C
  /-- What the worker side does with the metadata of a step it executes. -/
  executeStep : C → M → C

/-- What the scheduler is built from. -/
structure Config (H C M : Type) where
  policy : SchedulingPolicy
  maxNumRunningReqs : Nat
  maxNumScheduledTokens : Int
  longPrefillTokenThreshold : Int
  chunkedPrefillEnabled : Bool
  /-- `lora_config.max_loras`, when LoRA is on. -/
  maxLoras : Option Nat
  kv : KVConfig
  /-- `cache_config.block_size`, at which block hashes are computed. -/
  cacheBlockSize : Nat
  numLookaheadTokens : Int
  isEncoderDecoder : Bool
  isWhisper : Bool
  encdecMaxEncoderLen : Int
  maxNumEncoderInputTokens : Int
  encoderCacheSize : Int
  disableChunkedMmInput : Bool
  usePp : Bool
  includeFinishedSet : Bool
  mimirPinTtl : PyFloat
  /-- `float` on a string, where it does not raise. -/
  floatOfString : String → Option PyFloat
  hasher : BlockHasher H
  connector : Option (ConnectorOps H C M)
  /-- Whether the scheduler is an `AsyncScheduler`. -/
  asyncScheduling : Bool := false
  /-- Whether `sum` compensates for rounding, as it does from CPython 3.12 on. -/
  compensatedSum : Bool := false

namespace Config

variable {H C M : Type}

/-- `block_size` of the scheduler. -/
def blockSize (cfg : Config H C M) : Nat :=
  if cfg.kv.dcpWorldSize > 1 then cfg.cacheBlockSize * cfg.kv.dcpWorldSize else cfg.cacheBlockSize

/-- `SchedulerConfig._verify_args`: a step has a token for each request that may run. -/
def Verified (cfg : Config H C M) : Prop := (cfg.maxNumRunningReqs : Int) ≤ cfg.maxNumScheduledTokens

/-- The same configuration around another connector. -/
def withConnector {C' M' : Type} (cfg : Config H C M) (ops : ConnectorOps H C' M') :
    Config H C' M' where
  policy := cfg.policy
  maxNumRunningReqs := cfg.maxNumRunningReqs
  maxNumScheduledTokens := cfg.maxNumScheduledTokens
  longPrefillTokenThreshold := cfg.longPrefillTokenThreshold
  chunkedPrefillEnabled := cfg.chunkedPrefillEnabled
  maxLoras := cfg.maxLoras
  kv := cfg.kv
  cacheBlockSize := cfg.cacheBlockSize
  numLookaheadTokens := cfg.numLookaheadTokens
  isEncoderDecoder := cfg.isEncoderDecoder
  isWhisper := cfg.isWhisper
  encdecMaxEncoderLen := cfg.encdecMaxEncoderLen
  maxNumEncoderInputTokens := cfg.maxNumEncoderInputTokens
  encoderCacheSize := cfg.encoderCacheSize
  disableChunkedMmInput := cfg.disableChunkedMmInput
  usePp := cfg.usePp
  includeFinishedSet := cfg.includeFinishedSet
  mimirPinTtl := cfg.mimirPinTtl
  floatOfString := cfg.floatOfString
  hasher := cfg.hasher
  connector := some ops
  asyncScheduling := cfg.asyncScheduling
  compensatedSum := cfg.compensatedSum

/-- `get_hash_new_full_blocks`, absent when neither prefix caching nor a connector needs hashes. -/
def newBlockHashes (cfg : Config H C M) (r : Request H) : Except Err (List H) :=
  if cfg.kv.enableCaching || cfg.connector.isSome then
    requestBlockHasher cfg.hasher cfg.cacheBlockSize r
  else .ok []

end Config

/-- A key of the tool histories; a `nan` equals only itself, so the object it belongs to counts. -/
structure JobKey where
  value : XArg
  object : Option Ref := none
  deriving DecidableEq

/-- What the scheduler did for a request object, where the source does it. -/
inductive Effect where
  | appended (r : Ref) (token : TokenId)
  /-- The id entered `finished_req_ids`. -/
  | reported (r : Ref)
  /-- A tool duration was recorded for the request's job. -/
  | durationRecorded (r : Ref) (duration : PyFloat)
  | emitted (r : Ref) (output : EngineCoreOutput)
  /-- Blocks were obtained, by cache hits and by allocation. -/
  | granted (r : Ref) (blocks : List (List BlockId))
  /-- The blocks were given back. -/
  | released (r : Ref)
  /-- The request was started or resumed with cached tokens. -/
  | started (r : Ref) (localTokens externalTokens : Int)

namespace Effect

/-- The blocks a request object holds by its grants since its last release, newest effect first. -/
def held (r : Ref) : List Effect → List BlockId
  | [] => []
  | .granted r' blocks :: rest => if r' = r then blocks.flatten ++ held r rest else held r rest
  | .released r' :: rest => if r' = r then [] else held r rest
  | _ :: rest => held r rest

end Effect

/-- The scheduler's state; request objects live on a heap, since queues and dictionaries share them. -/
structure Scheduler (H C : Type) where
  objs : Ref → Request H
  nextRef : Ref
  requests : PyDict RequestId Ref
  waiting : List Ref
  running : List Ref
  pinnedRequests : List (Ref × PyFloat)
  jobToolHistory : PyDict JobKey (List PyFloat)
  finishedReqIds : List RequestId
  finishedReqIdsDict : PyDict Nat (List RequestId)
  finishedRecvingKvReqIds : List RequestId
  encoderCacheManager : EncoderCacheManager
  kvCacheManager : KVCacheManager H
  connector : C
  /-- The effects so far, newest first; nothing in the program reads them. -/
  history : List Effect

namespace Scheduler

variable {H C M : Type}

/-- The scheduler before any request. -/
def init (cfg : Config H C M) (connector : C) : Scheduler H C where
  objs := fun _ =>
    { requestId := 0, promptTokenIds := [], samplingParams := none, maxTokens := 0 }
  nextRef := 0
  requests := .empty
  waiting := []
  running := []
  pinnedRequests := []
  jobToolHistory := .empty
  finishedReqIds := []
  finishedReqIdsDict := .empty
  finishedRecvingKvReqIds := []
  encoderCacheManager := .init cfg.encoderCacheSize
  kvCacheManager := .init cfg.kv
  connector := connector
  history := []

/-- Changing one request object. -/
def modifyObj (s : Scheduler H C) (r : Ref) (f : Request H → Request H) : Scheduler H C :=
  { s with objs := Function.update s.objs r (f (s.objs r)) }

/-- Noting an effect. -/
def log (s : Scheduler H C) (effect : Effect) : Scheduler H C :=
  { s with history := effect :: s.history }

/-- `set.add` on a set kept as a list. -/
def addId (ids : List RequestId) (id : RequestId) : List RequestId :=
  if id ∈ ids then ids else ids ++ [id]

/-- `add_request`: a new object enters the waiting queue and the dictionary of requests. -/
def addRequest (cfg : Config H C M) (s : Scheduler H C) (req : EngineCoreRequest) :
    Except Err (Scheduler H C) := do
  let r ← Request.create cfg.newBlockHashes req
  let ref := s.nextRef
  let objs := Function.update s.objs ref r
  let waiting ← queueAdd objs cfg.policy s.waiting ref
  .ok { s with
    objs
    nextRef := ref + 1
    waiting
    requests := s.requests.set req.requestId ref }

/-- `reset_prefix_cache`. -/
def resetPrefixCache (s : Scheduler H C) : Bool × Scheduler H C :=
  let (done, kvCacheManager) := s.kvCacheManager.resetPrefixCache
  (done, { s with kvCacheManager })

end Scheduler

end Mimir
