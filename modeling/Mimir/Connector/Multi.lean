import Mimir.Sched.Engine

/-! Several connectors behind one: the hooks in the scheduler, the reports in a worker, and the reports of
all workers together. -/

namespace Mimir

open Python

/-- `MultiKVConnectorMetadata`: the metadata of each connector, and the counts for the workers. -/
structure MultiKVConnectorMetadata (M : Type) where
  metadata : List M
  extraAsyncSaves : Option (PyDict RequestId Nat)
  /-- The requests completed since the last step with the connectors that save them asynchronously;
  nothing in the program reads them. -/
  completed : List (RequestId × List Nat)

/-- The scheduler side of `MultiConnector`. -/
structure MultiConnector (C : Type) where
  /-- The states of the connectors, in the order of the configuration. -/
  connectors : List C
  requestsToConnector : PyDict RequestId Nat
  /-- The asynchronous saves beyond the first, for each request. -/
  extraAsyncSaves : PyDict RequestId Nat
  /-- The completions since the last step; nothing in the program reads them. -/
  completed : List (RequestId × List Nat)

/-- The output of a step before a connector has added its metadata. -/
def SchedulerOutput.withoutMetadata {M M' : Type} (out : SchedulerOutput M) : SchedulerOutput M' where
  scheduledNewReqs := out.scheduledNewReqs
  scheduledCachedReqs := out.scheduledCachedReqs
  numScheduledTokens := out.numScheduledTokens
  totalNumScheduledTokens := out.totalNumScheduledTokens
  scheduledSpecDecodeTokens := out.scheduledSpecDecodeTokens
  scheduledEncoderInputs := out.scheduledEncoderInputs
  numCommonPrefixBlocks := out.numCommonPrefixBlocks
  finishedReqIds := out.finishedReqIds
  freeEncoderMmHashes := out.freeEncoderMmHashes
  kvConnectorMetadata := none

namespace MultiConnector

variable {H C M : Type} (subs : List (ConnectorOps H C M))

/-- No request yet. -/
def init (connectors : List C) : MultiConnector C := ⟨connectors, .empty, .empty, []⟩

/-- The loop of `get_num_new_matched_tokens`: the first connector with tokens is chosen. -/
def matchLoop (request : Request H) (numComputedTokens : Int) :
    Nat → List (ConnectorOps H C M × C) → Int × Bool → PyDict RequestId Nat →
      (Option Int × Bool) × List C × PyDict RequestId Nat
  | _, [], toReturn, chosen => ((some toReturn.1, toReturn.2), [], chosen)
  | i, (sub, c) :: rest, toReturn, chosen =>
    let answer := sub.getNumNewMatchedTokens c request numComputedTokens
    match answer.1.1 with
    -- A connector that is still looking ends the search.
    | none => ((none, false), answer.2 :: rest.map Prod.snd, chosen)
    | some toks =>
      let first := toReturn.1 = 0 ∧ toks > 0
      let later := matchLoop request numComputedTokens (i + 1) rest
        (if first then (toks, answer.1.2) else toReturn)
        (if first then chosen.set request.requestId i else chosen)
      (later.1, answer.2 :: later.2.1, later.2.2)

/-- `get_num_new_matched_tokens`. -/
def getNumNewMatchedTokens (c : MultiConnector C)
    (request : Request H) (numComputedTokens : Int) : (Option Int × Bool) × MultiConnector C :=
  let found := matchLoop request numComputedTokens 0 (subs.zip c.connectors) (0, false)
    c.requestsToConnector
  (found.1, { c with connectors := found.2.1, requestsToConnector := found.2.2 })

/-- `update_state_after_alloc`: only the chosen connector sees blocks. -/
def updateStateAfterAlloc (subs : List (ConnectorOps H C M)) (c : MultiConnector C)
    (request : Request H) (blocks : List (List BlockId)) (numExternalTokens : Int) :
    MultiConnector C :=
  let chosen := c.requestsToConnector.get? request.requestId
  { c with
    connectors := (subs.zip c.connectors).mapIdx fun i sub =>
      if chosen = some i then sub.1.updateStateAfterAlloc sub.2 request blocks numExternalTokens
      else sub.1.updateStateAfterAlloc sub.2 request (blocks.map fun _ => []) 0 }

/-- `build_connector_meta`: the counts go out with the metadata, once. -/
def buildConnectorMeta (subs : List (ConnectorOps H C M)) (c : MultiConnector C)
    (out : SchedulerOutput (MultiKVConnectorMetadata M)) :
    Except Err (MultiKVConnectorMetadata M × MultiConnector C) := do
  let built ← (subs.zip c.connectors).mapM fun sub =>
    sub.1.buildConnectorMeta sub.2 out.withoutMetadata
  let extraAsyncSaves := if c.extraAsyncSaves.keys = [] then none else some c.extraAsyncSaves
  .ok (⟨built.map Prod.fst, extraAsyncSaves, c.completed⟩,
    { c with connectors := built.map Prod.snd, extraAsyncSaves := .empty, completed := [] })

/-- The loop of `request_finished`, with the connectors that save asynchronously so far. -/
def finishLoop (request : Request H) (blocks : List BlockId) :
    Nat → List (ConnectorOps H C M × C) → List Nat → Option KVTransferParams →
      Except Err ((List Nat × Option KVTransferParams) × List C)
  | _, [], savers, params => .ok ((savers, params), [])
  | i, (sub, c) :: rest, savers, params => do
    let answer ← sub.requestFinished c request blocks
    require (answer.1.2 = none ∨ params = none) ⟨.runtime, .transferParams⟩
    let later ← finishLoop request blocks (i + 1) rest
      (if answer.1.1 then savers ++ [i] else savers) (answer.1.2.or params)
    .ok (later.1, answer.2 :: later.2)

/-- `request_finished`: one asynchronous save is understood, the others are counted. -/
def requestFinished (c : MultiConnector C) (request : Request H)
    (blocks : List BlockId) : Except Err ((Bool × Option KVTransferParams) × MultiConnector C) := do
  let asked ← finishLoop request blocks 0 (subs.zip c.connectors) [] none
  let savers := asked.1.1
  .ok ((decide (0 < savers.length), asked.1.2),
    { connectors := asked.2
      requestsToConnector := c.requestsToConnector.erase request.requestId
      extraAsyncSaves :=
        if 1 < savers.length then c.extraAsyncSaves.set request.requestId (savers.length - 1)
        else c.extraAsyncSaves
      completed := if savers = [] then c.completed else c.completed ++ [(request.requestId, savers)] })

/-- `update_connector_output`. -/
def updateConnectorOutput (subs : List (ConnectorOps H C M)) (c : MultiConnector C)
    (out : KVConnectorOutput) : MultiConnector C :=
  { c with
    connectors := (subs.zip c.connectors).map fun sub => sub.1.updateConnectorOutput sub.2 out }

/-- What the connectors do with their metadata of a step, as far as both go. -/
def executeLoop : List (ConnectorOps H C M × C) → List M → List C
  | [], _ => []
  | subs, [] => subs.map Prod.snd
  | sub :: subs, metadata :: rest =>
    sub.1.executeStep sub.2 metadata :: executeLoop subs rest

/-- `MultiConnector` as a connector of the scheduler. -/
def ops : ConnectorOps H (MultiConnector C) (MultiKVConnectorMetadata M) where
  getNumNewMatchedTokens := getNumNewMatchedTokens subs
  updateStateAfterAlloc := updateStateAfterAlloc subs
  buildConnectorMeta := buildConnectorMeta subs
  requestFinished := requestFinished subs
  updateConnectorOutput := updateConnectorOutput subs
  executeStep := fun c metadata =>
    { c with connectors := executeLoop (subs.zip c.connectors) metadata.metadata }

end MultiConnector

/-- What the connectors of a worker report in a step: ids sent and ids received, connector by connector. -/
abbrev Reports := List (List RequestId × List RequestId)

namespace MultiConnectorWorker

/-- `bind_connector_metadata` in a worker, as far as its counts go. -/
def bindConnectorMetadata {M : Type} (extraAsyncSaves : PyDict RequestId Nat)
    (metadata : MultiKVConnectorMetadata M) : PyDict RequestId Nat :=
  match metadata.extraAsyncSaves with
  | some extra => extra.items.foldl (fun d item => d.set item.1 item.2) extraAsyncSaves
  | none => extraAsyncSaves

/-- The loop of `get_finished` over the ids one connector has sent. -/
def drainSent : List RequestId → List RequestId → PyDict RequestId Nat →
    Except Err (List RequestId × PyDict RequestId Nat)
  | [], finished, extra => .ok (finished, extra)
  | id :: rest, finished, extra =>
    match extra.get? id with
    | none => drainSent rest (Scheduler.addId finished id) extra
    | some pending => do
      require (pending > 0) ⟨.assertion, .extraPending⟩
      drainSent rest finished (if pending = 1 then extra.erase id else extra.set id (pending - 1))

/-- `get_finished`: an id counts as sent when the counted reports have come in before. -/
def getFinished : Reports → KVConnectorOutput → PyDict RequestId Nat →
    Except Err (KVConnectorOutput × PyDict RequestId Nat)
  | [], out, extra => .ok (out, extra)
  | (sending, recving) :: rest, out, extra => do
    let drained ← drainSent sending out.finishedSending extra
    getFinished rest ⟨drained.1, recving.foldl Scheduler.addId out.finishedRecving⟩ drained.2

end MultiConnectorWorker

/-- `KVOutputAggregator`. -/
structure KVOutputAggregator where
  worldSize : Nat
  recvRemainingCount : PyDict RequestId Int
  sendRemainingCount : PyDict RequestId Int

namespace KVOutputAggregator

/-- No report yet. -/
def init (worldSize : Nat) : KVOutputAggregator := ⟨worldSize, .empty, .empty⟩

/-- `update_finished_set`; a missing count stands for all workers. -/
def updateFinishedSet (worldSize : Nat) :
    List RequestId → PyDict RequestId Int → List RequestId → PyDict RequestId Int × List RequestId
  | [], counts, finished => (counts, finished)
  | id :: rest, counts, finished =>
    let count := (counts.get? id).getD worldSize - 1
    if count = 0 then
      updateFinishedSet worldSize rest (counts.erase id) (Scheduler.addId finished id)
    else updateFinishedSet worldSize rest (counts.set id count) finished

/-- The loop of `aggregate` over the outputs of the workers. -/
def aggregateLoop : List KVConnectorOutput → KVOutputAggregator → KVConnectorOutput →
    KVOutputAggregator × KVConnectorOutput
  | [], a, out => (a, out)
  | worker :: rest, a, out =>
    let sent := updateFinishedSet a.worldSize worker.finishedSending a.sendRemainingCount
      out.finishedSending
    let received := updateFinishedSet a.worldSize worker.finishedRecving a.recvRemainingCount
      out.finishedRecving
    aggregateLoop rest
      { a with sendRemainingCount := sent.1, recvRemainingCount := received.1 }
      ⟨sent.2, received.2⟩

/-- `aggregate`: the ids that all workers have reported. -/
def aggregate (a : KVOutputAggregator) (outputs : List KVConnectorOutput) :
    KVOutputAggregator × KVConnectorOutput :=
  aggregateLoop outputs a ⟨[], []⟩

end KVOutputAggregator

end Mimir
