import Mimir.Sched.Finish

/-! What the scheduler does with the output of a model step. -/

namespace Mimir

open Python

/-- A status check with its status, when the request has to stop. -/
def checkStop {H : Type} (r : Request H) (maxModelLen : Int) (poolerOutput : Option Nat) :
    Except Err (Bool × Request H) :=
  if (r.numTokens : Int) ≥ maxModelLen ∨ r.outputTokenIds.length ≥ r.maxTokens then
    .ok (true, { r with status := .finishedLengthCapped })
  else if r.poolingParams then
    if poolerOutput.isSome then .ok (true, { r with status := .finishedStopped })
    else .ok (false, r)
  else do
    let samplingParams ← orRaise r.samplingParams ⟨.assertion, .samplingParams⟩
    let lastTokenId ← orRaise r.outputTokenIds.getLast? ⟨.index, .lastToken⟩
    if samplingParams.ignoreEos = false ∧ some lastTokenId = r.eosTokenId then
      .ok (true, { r with status := .finishedStopped })
    else if lastTokenId ∈ samplingParams.stopTokenIds then
      .ok (true, { r with status := .finishedStopped, stopReason := some lastTokenId })
    else .ok (false, r)

namespace Scheduler

variable {H C M : Type} (cfg : Config H C M) (s : Scheduler H C)

/-- The loop of `_update_request_with_output`: tokens are appended until one stops the request. -/
def updateRequestWithOutput (cfg : Config H C M) (r : Ref) :
    List TokenId → Scheduler H C → Except Err ((List TokenId × Bool) × Scheduler H C)
  | [], s => .ok (([], false), s)
  | token :: rest, s => do
    let req ← Request.appendOutputTokenId cfg.newBlockHashes (s.objs r) token
    let s := (s.modifyObj r fun _ => req).log (.appended r token)
    let (stopped, req) ← checkStop (s.objs r) cfg.kv.maxModelLen none
    let s := s.modifyObj r fun _ => req
    -- The tokens behind the stopping one are trimmed.
    if stopped then .ok (([token], true), s)
    else do
      let ((tokens, stopped), s) ← updateRequestWithOutput cfg r rest s
      .ok ((token :: tokens, stopped), s)

/-- What the `AsyncScheduler` adds: tokens take the place of placeholders, and blocks are cached. -/
def settlePlaceholders [DecidableEq H] (r : Ref)
    (statusBeforeUpdate : RequestStatus) (newTokenIds : List TokenId) : Except Err (Scheduler H C) :=
  if cfg.asyncScheduling ∧ newTokenIds ≠ [] then do
    let s := s.modifyObj r fun req =>
      { req with numOutputPlaceholders := req.numOutputPlaceholders - newTokenIds.length }
    let req := s.objs r
    require (req.numOutputPlaceholders ≥ 0) ⟨.assertion, .outputPlaceholders⟩
    -- Preempted requests have no blocks.
    if statusBeforeUpdate = .running then do
      let kvCacheManager ← s.kvCacheManager.cacheBlocks cfg.kv req
        (req.numComputedTokens - req.numOutputPlaceholders)
      .ok { s with kvCacheManager }
    else .ok s
  else .ok s

/-- What one turn of the update loop accumulates beside the scheduler's state. -/
structure UpdateAcc where
  outputs : PyDict Nat (List EngineCoreOutput)
  stoppedRunningReqs : List Ref
  stoppedPreemptedReqs : List Ref

/-- Rejected draft tokens do not count as computed. -/
def rejectDraftTokens (r : Ref) (scheduledSpecTokenIds : List TokenId)
    (numGenerated : Nat) : Scheduler H C :=
  if scheduledSpecTokenIds.isEmpty then s
  else
    let numRejected : Int := scheduledSpecTokenIds.length - ((numGenerated : Int) - 1)
    s.modifyObj r fun req => { req with numComputedTokens := req.numComputedTokens - numRejected }

/-- The stop check of pooling models, which overrides that of the sampled tokens. -/
def checkPooler (r : Ref) (poolerOutputs : List (Option Nat)) (reqIndex : Nat) (stopped : Bool) :
    Except Err ((Option Nat × Bool) × Scheduler H C) :=
  if poolerOutputs.isEmpty then .ok ((none, stopped), s)
  else do
    let poolerOutput ← orRaise poolerOutputs[reqIndex]? ⟨.index, .missingIndex⟩
    let (stopped, req) ← checkStop (s.objs r) cfg.kv.maxModelLen poolerOutput
    .ok ((poolerOutput, stopped), s.modifyObj r fun _ => req)

/-- A stopped request is freed, and will be taken from the queue its old status names. -/
def stopRequest (clock : Ref → PyFloat) (s : Scheduler H C) (acc : UpdateAcc)
    (r : Ref) (statusBeforeStop : RequestStatus) (stopped : Bool) :
    Except Err (Option KVTransferParams × Scheduler H C × UpdateAcc) :=
  if stopped then do
    let (kvTransferParams, s) ← s.freeRequest cfg (clock r) r
    if statusBeforeStop = .running then
      .ok (kvTransferParams, s, { acc with stoppedRunningReqs := acc.stoppedRunningReqs ++ [r] })
    else
      .ok (kvTransferParams, s,
        { acc with stoppedPreemptedReqs := acc.stoppedPreemptedReqs ++ [r] })
  else .ok (none, s, acc)

/-- An output is sent when there is anything to tell the client. -/
def emitOutput (acc : UpdateAcc) (r : Ref) (newTokenIds : List TokenId)
    (poolerOutput : Option Nat) (kvTransferParams : Option KVTransferParams)
    (promptLogprobs : List RequestId) : Except Err (Scheduler H C × UpdateAcc) :=
  let req := s.objs r
  if newTokenIds ≠ [] ∨ poolerOutput.isSome ∨ (kvTransferParams.getD []) ≠ [] then
    let output : EngineCoreOutput := {
      requestId := req.requestId
      newTokenIds
      finishReason := req.status.getFinishedReason
      poolingOutput := poolerOutput
      stopReason := req.stopReason
      kvTransferParams
      numCachedTokens := req.numCachedTokens }
    .ok (s.log (.emitted r output),
      { acc with
        outputs := acc.outputs.set req.clientIndex
          ((acc.outputs.get? req.clientIndex).getD [] ++ [output]) })
  else do
    require (req.requestId ∉ promptLogprobs) ⟨.assertion, .partialPrefillLogprobs⟩
    .ok (s, acc)

/-- The tokens sampled for a request. -/
def generatedTokens (model : ModelRunnerOutput) (reqIndex : Nat) : Except Err (List TokenId) :=
  if model.sampledTokenIds.isEmpty then .ok []
  else orRaise model.sampledTokenIds[reqIndex]? ⟨.index, .missingIndex⟩

/-- One turn of the loop of `update_from_output`, for a request that is still known. -/
def updateRequest [DecidableEq H] (clock : Ref → PyFloat) (batch : SchedulerOutput M)
    (model : ModelRunnerOutput) (s : Scheduler H C) (acc : UpdateAcc) (id : RequestId) (r : Ref) :
    Except Err (Scheduler H C × UpdateAcc) := do
  let reqIndex ← orRaise (model.reqIdToIndex.get? id) ⟨.key, .missingIndex⟩
  let generatedTokenIds ← generatedTokens model reqIndex
  let s := s.rejectDraftTokens r ((batch.scheduledSpecDecodeTokens.get? id).getD [])
    generatedTokenIds.length
  let statusBeforeStop := (s.objs r).status
  let ((newTokenIds, stopped), s) ← s.updateRequestWithOutput cfg r generatedTokenIds
  let s ← s.settlePlaceholders cfg r statusBeforeStop newTokenIds
  let ((poolerOutput, stopped), s) ← s.checkPooler cfg r model.poolerOutput reqIndex stopped
  let (kvTransferParams, s, acc) ← s.stopRequest cfg clock acc r statusBeforeStop stopped
  s.emitOutput acc r newTokenIds poolerOutput kvTransferParams model.promptLogprobs

/-- The loop of `update_from_output` over the scheduled requests. -/
def updateLoop [DecidableEq H] (cfg : Config H C M) (clock : Ref → PyFloat) (batch : SchedulerOutput M)
    (model : ModelRunnerOutput) :
    List (RequestId × Int) → Scheduler H C → UpdateAcc → Except Err (Scheduler H C × UpdateAcc)
  | [], s, acc => .ok (s, acc)
  | (id, numTokensScheduled) :: rest, s, acc => do
    require (numTokensScheduled > 0) ⟨.assertion, .scheduledPositive⟩
    match s.requests.get? id with
    -- The request is already finished and forgotten.
    | none => updateLoop cfg clock batch model rest s acc
    | some r => do
      let (s, acc) ← s.updateRequest cfg clock batch model acc id r
      updateLoop cfg clock batch model rest s acc

/-- Freeing the requests whose blocks have been sent. -/
def freeSent : List RequestId → Scheduler H C → Except Err (Scheduler H C)
  | [], s => .ok s
  | id :: rest, s => do
    let r ← orRaise (s.requests.get? id) ⟨.key, .missingRequest⟩
    let s ← s.freeBlocks r
    freeSent rest s

/-- `_update_from_kv_xfer_finished`. -/
def updateFromKvXferFinished (out : KVConnectorOutput) :
    Except Err (Scheduler H C) :=
  let connector := match cfg.connector with
    | some ops => ops.updateConnectorOutput s.connector out
    | none => s.connector
  freeSent out.finishedSending
    { s with
      connector
      finishedRecvingKvReqIds := out.finishedRecving.foldl addId s.finishedRecvingKvReqIds }

/-- The connector's part of a model output, when there is one. -/
def updateFromConnectorOutput : Option KVConnectorOutput → Except Err (Scheduler H C)
  | some out => s.updateFromKvXferFinished cfg out
  | none => .ok s

/-- The sets of finished ids join the outputs of their clients. -/
def attachFinished (outputs : PyDict Nat EngineCoreOutputs) :
    List (Nat × List RequestId) → PyDict Nat EngineCoreOutputs
  | [] => outputs
  | (client, ids) :: rest =>
    attachFinished (outputs.set client
      { (outputs.get? client).getD {} with finishedRequests := some ids }) rest

/-- `update_from_output`: tokens, stops and finished transfers of a batch; the outputs by client. -/
def updateFromOutput [DecidableEq H] (clock : Ref → PyFloat) (s : Scheduler H C)
    (batch : SchedulerOutput M) (model : ModelRunnerOutput) :
    Except Err (PyDict Nat EngineCoreOutputs × Scheduler H C) := do
  let (s, acc) ← updateLoop cfg clock batch model batch.numScheduledTokens.items s
    ⟨.empty, [], []⟩
  let waiting ← s.removeWaiting cfg acc.stoppedPreemptedReqs
  let s := { s with running := removeAll s.running acc.stoppedRunningReqs, waiting }
  let s ← s.updateFromConnectorOutput cfg model.kvConnectorOutput
  let outputs := acc.outputs.items.foldl
    (fun outs item => outs.set item.1 { outputs := item.2 }) PyDict.empty
  .ok (attachFinished outputs s.finishedReqIdsDict.items, { s with finishedReqIdsDict := .empty })

/-- `update_draft_token_ids`: the drafted tokens of requests that are still unfinished. -/
def updateDraftTokenIds (s : Scheduler H C) : List (RequestId × List TokenId) → Scheduler H C
  | [] => s
  | (id, specTokenIds) :: rest =>
    match s.requests.get? id with
    | none => updateDraftTokenIds s rest
    | some r =>
      if (s.objs r).isFinished then updateDraftTokenIds s rest
      else updateDraftTokenIds (s.modifyObj r fun req => { req with specTokenIds }) rest

end Scheduler

end Mimir
