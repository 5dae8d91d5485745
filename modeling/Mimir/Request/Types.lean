import Mimir.Python.Float
import Mimir.Python.Except

/-! Requests, their statuses, and the agent metadata the pin decision reads. -/

namespace Mimir

open Python

/-- Request ids are only ever compared, so numbers stand for the source's strings. -/
abbrev RequestId := Nat

/-- A token of the vocabulary. -/
abbrev TokenId := Nat

/-- The identity of a request object; two objects may carry the same request id. -/
abbrev Ref := Nat

/-- The source places whose assertions, raises and lookups the model keeps apart. -/
inductive Site where
  | requestParams
  | genMmExtraHashKeys
  | freeQueueRemove
  | getNewBlocks
  | getNewBlocksRefCnt
  | cacheFullBlocksHashes
  | cacheFullBlocksHashed
  | storedParent
  | storedLora
  | saveNewComputedBlocks
  | numCachedBlockMissing
  | removeSkippedBlocks
  | blockHashIndex
  | crossAttentionCaching
  | chunkedLocalEagle
  | dcpUnsupported
  | hitLengthAlignment
  | allocateZeroTokens
  | computedWithoutCaching
  | commonRunning
  | heapComparison
  | emptyQueue
  | preemptEmpty
  | loraLimit
  | loadAsyncTokens
  | newTokensPositive
  | invalidStatus
  | encoderPositions
  | encoderStart
  | encoderAllocate
  | encoderFreeable
  | remoteWithoutConnector
  | whisperOnly
  | scheduledTotal
  | tokenBudget
  | runningLimit
  | scheduledCount
  | missingRequest
  | missingNewBlocks
  | missingIndex
  | scheduledPositive
  | samplingParams
  | lastToken
  | partialPrefillLogprobs
  | notFinished
  | finishedStatus
  | floatConversion
  | singleGroup
  | loop
  | logprobsDisabled
  | mergeLogprobs
  | extractKv
  | injectKv
  | connectorBlocks
  | connectorScheduled
  | connectorMetadata
  | outputPlaceholders
  | batchSlot
  | blockTableIndex
  | expertRanks
  | senderCache
  | receiverCache
  | cacheValueSize
  | missingKwargs
  | extraPending
  | transferParams
  | childRequests
  | loraWaiting
  | loraRunning
  | duplicateRequest
  | aggregatorIndex
  | mambaPageSize
  | slidingWindowRanks
  | mergeSpecs
  | mergeWindowSizes
  | uniformPageSize
  | availableMemory
  | numBlocks
  | hybridSpecs
  | kvCacheGroups
  | queueRemove
  | emptyBatch
  | arangeLength
  | gatherIndex
  | chunkAlignment
  | decodesFirst
  deriving DecidableEq, Repr

/-- The exceptions of the modelled program. -/
abbrev Err := PyErr Site

/-- Status of a request; everything after `preempted` counts as finished. -/
inductive RequestStatus where
  | waiting
  | waitingForFsm
  | waitingForRemoteKvs
  | running
  | preempted
  | finishedStopped
  | finishedLengthCapped
  | finishedAborted
  | finishedIgnored
  deriving DecidableEq, Repr

/-- `RequestStatus.is_finished`: the status lies after `PREEMPTED`. -/
def RequestStatus.isFinished : RequestStatus → Bool
  | .finishedStopped => true
  | .finishedLengthCapped => true
  | .finishedAborted => true
  | .finishedIgnored => true
  | _ => false

/-- Why a request ended, as reported to the client. -/
inductive FinishReason where
  | stop
  | length
  | abort
  deriving DecidableEq, Repr

/-- `RequestStatus.get_finished_reason`. -/
def RequestStatus.getFinishedReason : RequestStatus → Option FinishReason
  | .finishedStopped => some .stop
  | .finishedLengthCapped => some .length
  | .finishedAborted => some .abort
  | .finishedIgnored => some .length
  | _ => none

/-- A value of `vllm_xargs`: the protocol admits strings, integers and floats. -/
inductive XArg where
  | str (s : String)
  | int (z : Int)
  | float (x : PyFloat)
  deriving DecidableEq

/-- `_coerce_bool` on a value that is present. -/
def coerceBool : XArg → Bool
  | .str s => ["1", "true", "yes", "last"].contains s.toLower
  | .int z => z ≠ 0
  -- Only the two zeros are falsy; `nan` is not.
  | .float x => x ≠ .fin 0

/-- The agent metadata of `sampling_params.extra_args`. -/
structure ExtraArgs where
  jobId : Option XArg := none
  isLastStep : Option XArg := none
  hasToolCall : Option XArg := none
  toolDuration : Option XArg := none
  deriving DecidableEq

/-- The sampling parameters the core reads. -/
structure SamplingParams where
  maxTokens : Nat
  ignoreEos : Bool := false
  stopTokenIds : List TokenId := []
  /-- Whether `prompt_logprobs` is set. -/
  promptLogprobs : Bool := false
  /-- Whether `guided_decoding` is set. -/
  guidedDecoding : Bool := false
  extraArgs : Option ExtraArgs := none
  deriving DecidableEq

/-- A multimodal input: its content hash and the prompt range of its placeholder. -/
structure MmFeature where
  identifier : String
  offset : Nat
  length : Nat
  deriving DecidableEq

/-- A request as the frontend sends it to the engine core. -/
structure EngineCoreRequest where
  requestId : RequestId
  promptTokenIds : List TokenId
  mmFeatures : List MmFeature := []
  samplingParams : Option SamplingParams
  /-- Whether `pooling_params` is set. -/
  poolingParams : Bool := false
  eosTokenId : Option TokenId := none
  clientIndex : Nat := 0
  arrivalTime : PyFloat := .fin 0
  priority : Int := 0
  /-- `lora_request.lora_int_id`, when there is a LoRA request. -/
  loraRequest : Option Int := none
  cacheSalt : Option String := none
  deriving DecidableEq

/-- A request object, with the fields the scheduler, the cache and the connector use. -/
structure Request (H : Type) extends EngineCoreRequest where
  maxTokens : Nat
  jobId : Option XArg := none
  isLastStep : Option Bool := none
  /-- `extra_args_meta["has_tool_call"]`, after `_coerce_bool`. -/
  hasToolCall : Option Bool := none
  /-- `extra_args_meta["tool_duration"]`. -/
  toolDuration : Option XArg := none
  status : RequestStatus := .waiting
  stopReason : Option TokenId := none
  outputTokenIds : List TokenId := []
  numOutputPlaceholders : Int := 0
  specTokenIds : List TokenId := []
  numComputedTokens : Int := 0
  numCachedTokens : Int := -1
  blockHashes : List H := []

namespace Request

variable {H : Type} (r : Request H)

/-- Prompt and output tokens, in order. -/
def allTokenIds : List TokenId := r.promptTokenIds ++ r.outputTokenIds

/-- `num_tokens`. -/
def numTokens : Nat := r.allTokenIds.length

/-- `num_tokens_with_spec`. -/
def numTokensWithSpec : Nat := r.allTokenIds.length + r.specTokenIds.length

/-- `is_finished`. -/
def isFinished (r : Request H) : Bool := r.status.isFinished

/-- `has_encoder_inputs`. -/
def hasEncoderInputs : Bool := !r.mmFeatures.isEmpty

/-- `sampling_params.prompt_logprobs is not None`. -/
def wantsPromptLogprobs : Bool :=
  (r.samplingParams.map (·.promptLogprobs)).getD false

/-- `mm_hashes`. -/
def mmHashes : List String := r.mmFeatures.map (·.identifier)

/-- The salt as the block hash sees it: an empty string is no salt. -/
def saltKey : Option String :=
  match r.cacheSalt with
  | some salt => if salt = "" then none else some salt
  | none => none

end Request

end Mimir
