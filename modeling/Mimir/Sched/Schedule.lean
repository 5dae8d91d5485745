import Mimir.Sched.Finish

/-! `schedule`: running requests first, then waiting ones, then the output for the workers. -/

namespace Mimir

open Python

/-- The local variables of `schedule`. -/
structure Plan where
  scheduledNewReqs : List Ref := []
  scheduledResumedReqs : List Ref := []
  scheduledRunningReqs : List Ref := []
  preemptedReqs : List Ref := []
  reqToNewBlocks : PyDict RequestId (List (List BlockId)) := .empty
  numScheduledTokens : PyDict RequestId Int := .empty
  tokenBudget : Int
  scheduledEncoderInputs : PyDict RequestId (List Nat) := .empty
  encoderComputeBudget : Int
  scheduledSpecDecodeTokens : PyDict RequestId (List TokenId) := .empty
  scheduledLoras : List Int := []
  skippedWaitingRequests : List Ref := []
  reqIndex : Nat := 0

/-- The scheduler's state together with the local variables of `schedule`. -/
structure Frame (H C : Type) where
  sched : Scheduler H C
  plan : Plan

/-- What `schedule` reads from outside: the clock, and which grammars are compiled. -/
structure ScheduleEnv where
  now : PyFloat
  grammarReady : Ref → Bool

namespace Scheduler

variable {H C M : Type} (cfg : Config H C M) (f : Frame H C) (s : Scheduler H C)

section EncoderInputs

/-- What the loop over the encoder inputs accumulates. -/
structure EncoderAcc where
  inputs : List Nat := []
  hashesToSchedule : List String := []
  numTokensToSchedule : Int := 0
  encoderComputeBudget : Int
  cache : EncoderCacheManager

/-- Whether an encoder output needs no computing now: scheduled in this step, or cached. -/
def encoderOutputPresent (req : Request H) (mm : MmFeature)
    (acc : EncoderAcc) : Except Err (Bool × EncoderCacheManager) :=
  if cfg.isEncoderDecoder then .ok (false, acc.cache)
  else if mm.identifier ∈ acc.hashesToSchedule then .ok (true, acc.cache)
  else acc.cache.checkAndUpdateCache req mm

/-- The loop of `_try_schedule_encoder_inputs` from the `i`-th input on. -/
def encoderInputsLoop (cfg : Config H C M) (req : Request H) (numComputedTokens numNewTokens : Int) :
    List MmFeature → Nat → EncoderAcc → Except Err (Int × EncoderAcc)
  | [], _, acc => .ok (numNewTokens, acc)
  | mm :: rest, i, acc =>
    if mm.offset ≥ numComputedTokens + numNewTokens then .ok (numNewTokens, acc)
    else if cfg.isEncoderDecoder ∧ numComputedTokens > 0 then do
      require (mm.offset = 0) ⟨.assertion, .encoderStart⟩
      encoderInputsLoop cfg req numComputedTokens numNewTokens rest (i + 1) acc
    else if mm.offset + mm.length ≤ numComputedTokens then
      encoderInputsLoop cfg req numComputedTokens numNewTokens rest (i + 1) acc
    else do
      let (present, cache) ← encoderOutputPresent cfg req mm acc
      let acc := { acc with cache }
      if present then
        encoderInputsLoop cfg req numComputedTokens numNewTokens rest (i + 1) acc
      else if cfg.disableChunkedMmInput ∧ numComputedTokens < mm.offset ∧
          numComputedTokens + numNewTokens < mm.offset + mm.length then
        -- A multimodal item is not split: the step ends before it.
        .ok (mm.offset - numComputedTokens, acc)
      else do
        let (fits, cache) ←
          acc.cache.canAllocate mm acc.encoderComputeBudget acc.numTokensToSchedule
        let acc := { acc with cache }
        if fits then
          encoderInputsLoop cfg req numComputedTokens numNewTokens rest (i + 1) { acc with
            numTokensToSchedule := acc.numTokensToSchedule + mm.length
            encoderComputeBudget := acc.encoderComputeBudget - mm.length
            hashesToSchedule := acc.hashesToSchedule ++ [mm.identifier]
            inputs := acc.inputs ++ [i] }
        else
          .ok (if numComputedTokens < mm.offset then mm.offset - numComputedTokens else 0, acc)

/-- The encoder inputs of a step, the tokens it can still compute, and the budget left. -/
structure EncoderChoice where
  inputs : List Nat
  numNewTokens : Int
  encoderComputeBudget : Int

/-- `_try_schedule_encoder_inputs`, called for requests that have encoder inputs. -/
def tryScheduleEncoderInputs (r : Ref)
    (numComputedTokens numNewTokens : Int) : Except Err (EncoderChoice × Frame H C) :=
  let req := f.sched.objs r
  let budget := f.plan.encoderComputeBudget
  if numNewTokens = 0 ∨ req.hasEncoderInputs = false then .ok (⟨[], numNewTokens, budget⟩, f)
  else do
    let (numNewTokens, acc) ← encoderInputsLoop cfg req numComputedTokens numNewTokens
      req.mmFeatures 0 { encoderComputeBudget := budget, cache := f.sched.encoderCacheManager }
    .ok (⟨acc.inputs, numNewTokens, acc.encoderComputeBudget⟩,
      { f with sched := { f.sched with encoderCacheManager := acc.cache } })

/-- Allocating the encoder cache for the chosen inputs. -/
def allocateEncoderInputs (req : Request H) :
    List Nat → EncoderCacheManager → Except Err EncoderCacheManager
  | [], e => .ok e
  | i :: rest, e => do
    let mm ← orRaise req.mmFeatures[i]? ⟨.index, .encoderPositions⟩
    let e ← e.allocate req mm
    allocateEncoderInputs req rest e

/-- The encoder part of scheduling a request. -/
def commitEncoderInputs (r : Ref) (choice : EncoderChoice) :
    Except Err (Frame H C) :=
  if choice.inputs.isEmpty then .ok f
  else do
    let req := f.sched.objs r
    let encoderCacheManager ←
      allocateEncoderInputs req choice.inputs f.sched.encoderCacheManager
    .ok {
      sched := { f.sched with encoderCacheManager }
      plan := { f.plan with
        scheduledEncoderInputs := f.plan.scheduledEncoderInputs.set req.requestId choice.inputs
        encoderComputeBudget := choice.encoderComputeBudget } }

/-- `_free_encoder_inputs`: outputs the decoder has consumed are dropped. -/
def freeEncoderInputs (r : Ref) : Scheduler H C :=
  let req := s.objs r
  let consumed := (s.encoderCacheManager.cachedInputs req).filter fun mm =>
    (cfg.isEncoderDecoder && decide (req.numComputedTokens > 0)) ||
      decide ((mm.offset + mm.length : Int) ≤ req.numComputedTokens)
  { s with
    encoderCacheManager :=
      consumed.foldl (fun e mm => e.freeEncoderInput req mm) s.encoderCacheManager }

end EncoderInputs

section Running

variable [DecidableEq H]

/-- The limit of `long_prefill_token_threshold`. -/
def capLongPrefill (numNewTokens : Int) : Int :=
  if 0 < cfg.longPrefillTokenThreshold ∧ cfg.longPrefillTokenThreshold < numNewTokens then
    cfg.longPrefillTokenThreshold
  else numNewTokens

/-- The tokens to schedule for a running request before encoder limits. -/
def runningNewTokens (req : Request H) (tokenBudget : Int) : Int :=
  min (min (capLongPrefill cfg
      (req.numTokensWithSpec + req.numOutputPlaceholders - req.numComputedTokens)) tokenBudget)
    (cfg.kv.maxModelLen - 1 - req.numComputedTokens)

/-- The request to preempt, and the lists without it. -/
def selectVictim :
    Except Err (Ref × List Ref × List Ref) :=
  match cfg.policy with
  | .priority =>
    match f.sched.running with
    | [] => .error ⟨.value, .preemptEmpty⟩
    | first :: rest =>
      let victim := maxByPreemptionKey f.sched.objs first rest
      .ok (victim, f.sched.running.erase victim, f.plan.scheduledRunningReqs.erase victim)
  | _ => do
    let victim ← orRaise f.sched.running.getLast? ⟨.index, .preemptEmpty⟩
    .ok (victim, f.sched.running.dropLast, f.plan.scheduledRunningReqs)

/-- Preempting the request of lowest priority: it loses its blocks and waits again. -/
def preempt : Except Err (Ref × Frame H C) := do
  let (victim, running, scheduledRunningReqs) ← selectVictim cfg f
  let s := f.sched
  let req := s.objs victim
  let s := { s with
    running
    kvCacheManager := s.kvCacheManager.free req.requestId
    encoderCacheManager := s.encoderCacheManager.free req }
  let s := (s.modifyObj victim fun req =>
    { req with status := .preempted, numComputedTokens := 0 }).log (.released victim)
  let waiting ← queuePrepend s.objs cfg.policy s.waiting victim
  .ok (victim, {
    sched := { s with waiting }
    plan := { f.plan with
      scheduledRunningReqs
      preemptedReqs := f.plan.preemptedReqs ++ [victim] } })

/-- Allocating slots for a running request, preempting others until they fit. -/
def allocateOrPreempt (cfg : Config H C M) (r : Ref) (numNewTokens : Int) :
    Nat → Frame H C → Except Err (Option (List (List BlockId)) × Frame H C)
  | 0, _ => .error ⟨.fuel, .loop⟩
  | turns + 1, f => do
    let (newBlocks, kvCacheManager) ← f.sched.kvCacheManager.allocateSlots cfg.kv
      (f.sched.objs r) { numNewTokens, numLookaheadTokens := cfg.numLookaheadTokens }
    let f := { f with sched := { f.sched with kvCacheManager } }
    match newBlocks with
    | some newBlocks => .ok (some newBlocks, f)
    | none => do
      let (victim, f) ← preempt cfg f
      -- A request that had to preempt itself is not scheduled.
      if victim = r then .ok (none, f) else allocateOrPreempt cfg r numNewTokens turns f

/-- The draft tokens that fit into the step; the others are trimmed. -/
def commitSpecTokens (r : Ref) (numNewTokens : Int) : Frame H C :=
  let req := f.sched.objs r
  let numScheduledSpecTokens := numNewTokens + req.numComputedTokens - req.numTokens
  if req.specTokenIds ≠ [] ∧ numScheduledSpecTokens > 0 then
    let specTokenIds := req.specTokenIds.take numScheduledSpecTokens.toNat
    { sched := f.sched.modifyObj r fun req => { req with specTokenIds }
      plan := { f.plan with
        scheduledSpecDecodeTokens :=
          f.plan.scheduledSpecDecodeTokens.set req.requestId specTokenIds } }
  else f

/-- Scheduling a running request whose slots are allocated. -/
def commitRunning (r : Ref) (numNewTokens : Int)
    (newBlocks : List (List BlockId)) : Frame H C :=
  let id := (f.sched.objs r).requestId
  { sched := f.sched.log (.granted r newBlocks)
    plan := { f.plan with
      scheduledRunningReqs := f.plan.scheduledRunningReqs ++ [r]
      reqToNewBlocks := f.plan.reqToNewBlocks.set id newBlocks
      numScheduledTokens := f.plan.numScheduledTokens.set id numNewTokens
      tokenBudget := f.plan.tokenBudget - numNewTokens
      reqIndex := f.plan.reqIndex + 1 } }

/-- The loop over the running requests. -/
def scheduleRunning (cfg : Config H C M) : Nat → Frame H C → Except Err (Frame H C)
  | turns, f =>
    match f.sched.running[f.plan.reqIndex]? with
    | none => .ok f
    | some r =>
      if f.plan.tokenBudget ≤ 0 then .ok f
      else
        match turns with
        | 0 => .error ⟨.fuel, .loop⟩
        | turns + 1 => do
          let req := f.sched.objs r
          let (choice, f) ← tryScheduleEncoderInputs cfg f r req.numComputedTokens
            (runningNewTokens cfg req f.plan.tokenBudget)
          if choice.numNewTokens = 0 then
            scheduleRunning cfg turns
              { f with plan := { f.plan with reqIndex := f.plan.reqIndex + 1 } }
          else do
            let (newBlocks, f) ← allocateOrPreempt cfg r choice.numNewTokens
              f.sched.running.length f
            match newBlocks with
            | none => .ok f
            | some newBlocks => do
              let f := commitRunning f r choice.numNewTokens newBlocks
              let f := commitSpecTokens f r choice.numNewTokens
              let f ← commitEncoderInputs f r choice
              scheduleRunning cfg turns f

/-- The LoRAs of the scheduled running requests. -/
def recordLoras : Except Err (Frame H C) :=
  match cfg.maxLoras with
  | none => .ok f
  | some maxLoras => do
    let scheduledLoras := (f.plan.scheduledRunningReqs.filterMap fun r =>
      (f.sched.objs r).loraRequest.filter (· > 0)).dedup
    require (scheduledLoras.length ≤ maxLoras) ⟨.assertion, .loraLimit⟩
    .ok { f with plan := { f.plan with scheduledLoras } }

end Running

section Waiting

variable [DecidableEq H]

/-- `_update_waiting_for_remote_kv`: blocks that arrived are cached and counted as computed. -/
def updateWaitingForRemoteKv (r : Ref) : Except Err (Bool × Scheduler H C) := do
  require (cfg.connector.isSome) ⟨.assertion, .remoteWithoutConnector⟩
  let req := s.objs r
  if req.requestId ∉ s.finishedRecvingKvReqIds then .ok (false, s)
  else
    match s.kvCacheManager.getBlocks req.requestId with
    | [blockIds] => do
      let received : Int := min (blockIds.length * cfg.blockSize) req.numTokens
      -- At least one token is left to compute.
      let numComputedTokens := if received = req.numTokens then received - 1 else received
      let kvCacheManager ← s.kvCacheManager.cacheBlocks cfg.kv req numComputedTokens
      let s := { s with
        kvCacheManager
        finishedRecvingKvReqIds := s.finishedRecvingKvReqIds.erase req.requestId }
      .ok (true, s.modifyObj r fun req => { req with numComputedTokens })
    | _ => .error ⟨.value, .singleGroup⟩

/-- Setting the status of a request object. -/
def setStatus (r : Ref) (status : RequestStatus) : Scheduler H C :=
  s.modifyObj r fun req => { req with status }

/-- A waiting request has to wait on for remote blocks or for its grammar; otherwise it is ready. -/
def readyToSchedule (env : ScheduleEnv) (s : Scheduler H C) (r : Ref) :
    Except Err (Bool × Scheduler H C) :=
  match (s.objs r).status with
  | .waitingForRemoteKvs => do
    let (ready, s) ← s.updateWaitingForRemoteKv cfg r
    .ok (if ready then (true, s.setStatus r .waiting) else (false, s))
  | .waitingForFsm =>
    .ok (if env.grammarReady r then (true, s.setStatus r .waiting) else (false, s))
  | _ => .ok (true, s)

/-- Whether scheduling a request would exceed the number of LoRAs of a batch. -/
def exceedsLoras (req : Request H) : Bool :=
  match cfg.maxLoras, req.loraRequest with
  | some maxLoras, some loraIntId =>
    f.plan.scheduledLoras.length = maxLoras ∧ loraIntId ∉ f.plan.scheduledLoras
  | _, _ => false

/-- The tokens of a waiting request that need no computing, and where they come from. -/
structure Computed where
  newComputedBlocks : List (List BlockId)
  numNewLocalComputedTokens : Int
  numExternalComputedTokens : Int
  loadKvAsync : Bool
  numComputedTokens : Int

/-- The cached tokens of a waiting request; `none` when the connector cannot tell yet. -/
def computedTokens (r : Ref) :
    Except Err (Option Computed × C) :=
  let req := s.objs r
  if req.numComputedTokens = 0 then do
    let (newComputedBlocks, numLocal) ← s.kvCacheManager.getComputedBlocks cfg.kv req
    match cfg.connector with
    | none => .ok (some ⟨newComputedBlocks, numLocal, 0, false, numLocal⟩, s.connector)
    | some ops =>
      let ((numExternal, loadKvAsync), connector) :=
        ops.getNumNewMatchedTokens s.connector req numLocal
      match numExternal with
      | none => .ok (none, connector)
      | some numExternal =>
        .ok (some ⟨newComputedBlocks, numLocal, numExternal, loadKvAsync,
          numLocal + numExternal⟩, connector)
  else
    -- Only after an asynchronous load has a waiting request computed tokens.
    .ok (some ⟨s.kvCacheManager.createEmptyBlockList, 0, 0, false, req.numComputedTokens⟩,
      s.connector)

/-- What a turn decides about the number of tokens of a waiting request. -/
inductive TokenChoice where
  | skip
  | stop
  | schedule (choice : EncoderChoice)

/-- The number of tokens to schedule for a waiting request. -/
def waitingNewTokens (r : Ref) (computed : Computed) :
    Except Err (TokenChoice × Frame H C) :=
  let req := f.sched.objs r
  if computed.loadKvAsync then do
    require (computed.numExternalComputedTokens > 0) ⟨.assertion, .loadAsyncTokens⟩
    .ok (.schedule ⟨[], 0, f.plan.encoderComputeBudget⟩, f)
  else
    let numNewTokens := capLongPrefill cfg (req.numTokens - computed.numComputedTokens)
    if cfg.chunkedPrefillEnabled = false ∧ numNewTokens > f.plan.tokenBudget then .ok (.skip, f)
    else do
      let numNewTokens := min numNewTokens f.plan.tokenBudget
      require (numNewTokens > 0) ⟨.assertion, .newTokensPositive⟩
      let (choice, f) ← tryScheduleEncoderInputs cfg f r computed.numComputedTokens numNewTokens
      if choice.numNewTokens = 0 then .ok (.stop, f) else .ok (.schedule choice, f)

/-- Cross-attention blocks are sized by the longest encoder input. -/
def numEncoderTokens (req : Request H) : Except Err Int :=
  if cfg.isEncoderDecoder && req.hasEncoderInputs then do
    require (cfg.isWhisper) ⟨.assertion, .whisperOnly⟩
    .ok cfg.encdecMaxEncoderLen
  else .ok 0

/-- The arguments of `allocate_slots` for a waiting request. -/
def waitingAllocArgs (req : Request H) (computed : Computed)
    (numNewTokens numEncoderTokens : Int) : KVCacheManager.AllocArgs where
  numNewTokens := numNewTokens + computed.numExternalComputedTokens
  numNewComputedTokens := computed.numNewLocalComputedTokens
  newComputedBlocks := some computed.newComputedBlocks
  numLookaheadTokens := if req.numComputedTokens = 0 then 0 else cfg.numLookaheadTokens
  delayCacheBlocks := computed.loadKvAsync
  numEncoderTokens := numEncoderTokens

/-- The blocks a waiting request obtained: its cache hits, then the new ones, group by group. -/
def obtainedBlocks (computed : Computed) (newBlocks : List (List BlockId)) : List (List BlockId) :=
  List.zipWith (· ++ ·) computed.newComputedBlocks newBlocks

/-- `connector.update_state_after_alloc`, when there is a connector. -/
def informConnector (r : Ref) (computed : Computed)
    (newBlocks : List (List BlockId)) : Scheduler H C :=
  match cfg.connector with
  | none => s
  | some ops =>
    { s with
      connector := ops.updateStateAfterAlloc s.connector (s.objs r)
        (obtainedBlocks computed newBlocks) computed.numExternalComputedTokens }

/-- Popping a request from the waiting queue into the queue of skipped ones. -/
def skipWaiting : Except Err (Frame H C) := do
  let (r, waiting) ← queuePop f.sched.objs cfg.policy f.sched.waiting
  let skipped ← queuePrepend f.sched.objs cfg.policy f.plan.skippedWaitingRequests r
  .ok {
    sched := { f.sched with waiting }
    plan := { f.plan with skippedWaitingRequests := skipped } }

/-- A new or a resumed request, by its status before it was started. -/
def recordStarted (plan : Plan) (r : Ref) (status : RequestStatus) : Except Err Plan :=
  match status with
  | .waiting => .ok { plan with scheduledNewReqs := plan.scheduledNewReqs ++ [r] }
  | .preempted => .ok { plan with scheduledResumedReqs := plan.scheduledResumedReqs ++ [r] }
  | _ => .error ⟨.runtime, .invalidStatus⟩

/-- Moving a waiting request whose slots are allocated to the running ones. -/
def startRequest (computed : Computed) (numNewTokens : Int) : Except Err (Ref × Frame H C) := do
  let (r, waiting) ← queuePop f.sched.objs cfg.policy f.sched.waiting
  let req := f.sched.objs r
  let plan ← recordStarted f.plan r req.status
  let s := { f.sched with waiting, running := f.sched.running ++ [r] }
  let s := (s.modifyObj r fun req => { req with
    status := .running
    numComputedTokens := computed.numComputedTokens
    numCachedTokens :=
      if req.numCachedTokens < 0 then computed.numComputedTokens else req.numCachedTokens }).log
    (.started r computed.numNewLocalComputedTokens computed.numExternalComputedTokens)
  .ok (r, {
    sched := s
    plan := { plan with
      reqIndex := plan.reqIndex + 1
      scheduledLoras :=
        match cfg.maxLoras, req.loraRequest with
        | some _, some loraIntId =>
          if loraIntId ∈ plan.scheduledLoras then plan.scheduledLoras
          else plan.scheduledLoras ++ [loraIntId]
        | _, _ => plan.scheduledLoras
      reqToNewBlocks :=
        plan.reqToNewBlocks.set req.requestId (s.kvCacheManager.getBlocks req.requestId)
      numScheduledTokens := plan.numScheduledTokens.set req.requestId numNewTokens
      tokenBudget := plan.tokenBudget - numNewTokens } })

/-- Parking a request whose blocks are loaded asynchronously. -/
def parkRequest : Except Err (Frame H C) := do
  let (r, waiting) ← queuePop f.sched.objs cfg.policy f.sched.waiting
  let skipped ← queuePrepend f.sched.objs cfg.policy f.plan.skippedWaitingRequests r
  .ok {
    sched := { f.sched with waiting }.setStatus r .waitingForRemoteKvs
    plan := { f.plan with skippedWaitingRequests := skipped } }

/-- How a turn of the waiting loop ends. -/
inductive Turn (H C : Type) where
  | next (f : Frame H C)
  | stop (f : Frame H C)

/-- Allocating slots for a waiting request and starting or parking it. -/
def admitWaiting (r : Ref) (computed : Computed)
    (choice : EncoderChoice) : Except Err (Turn H C) := do
  let req := f.sched.objs r
  let encoderTokens ← numEncoderTokens cfg req
  let args := waitingAllocArgs cfg req computed choice.numNewTokens encoderTokens
  let (newBlocks, kvCacheManager) ← f.sched.kvCacheManager.allocateSlots cfg.kv req args
  let s := { f.sched with kvCacheManager }
  match newBlocks with
  | none => .ok (.stop { f with sched := s })
  | some newBlocks => do
    let s := (s.log (.granted r (obtainedBlocks computed newBlocks))).informConnector cfg r
      computed newBlocks
    let f := { f with sched := s }
    if computed.loadKvAsync then do
      let f ← parkRequest cfg f
      .ok (.next f)
    else do
      let (r, f) ← startRequest cfg f computed choice.numNewTokens
      let f ← commitEncoderInputs f r choice
      .ok (.next f)

/-- One turn of the loop over the waiting requests, for the request at the front. -/
def waitingTurn (env : ScheduleEnv) (f : Frame H C) (r : Ref) : Except Err (Turn H C) := do
  let (ready, s) ← f.sched.readyToSchedule cfg env r
  let f := { f with sched := s }
  if ready = false ∨ exceedsLoras cfg f (s.objs r) then do
    let f ← skipWaiting cfg f
    .ok (.next f)
  else do
    let (computed, connector) ← f.sched.computedTokens cfg r
    let f := { f with sched := { f.sched with connector } }
    match computed with
    | none => do
      let f ← skipWaiting cfg f
      .ok (.next f)
    | some computed => do
      let (choice, f) ← waitingNewTokens cfg f r computed
      match choice with
      | .skip => do
        let f ← skipWaiting cfg f
        .ok (.next f)
      | .stop => .ok (.stop f)
      | .schedule choice => admitWaiting cfg f r computed choice

/-- The loop over the waiting requests. -/
def scheduleWaiting (cfg : Config H C M) (env : ScheduleEnv) :
    Nat → Frame H C → Except Err (Frame H C)
  | turns, f =>
    match f.sched.waiting with
    | [] => .ok f
    | r :: _ =>
      if f.plan.tokenBudget ≤ 0 ∨ f.sched.running.length = cfg.maxNumRunningReqs then .ok f
      else
        match turns with
        | 0 => .error ⟨.fuel, .loop⟩
        | turns + 1 => do
          let turn ← waitingTurn cfg env f r
          match turn with
          | .stop f => .ok f
          | .next f => scheduleWaiting cfg env turns f

end Waiting

section Output

/-- The skipped requests go back to the head of the waiting queue. -/
def putBackSkipped : Except Err (Frame H C) :=
  if f.plan.skippedWaitingRequests.isEmpty then .ok f
  else do
    let waiting ← queuePrependAll f.sched.objs cfg.policy f.sched.waiting
      f.plan.skippedWaitingRequests
    .ok {
      sched := { f.sched with waiting }
      plan := { f.plan with skippedWaitingRequests := [] } }

/-- The scheduling constraints asserted before the output is built. -/
def checkConstraints : Except Err Unit := do
  require (f.plan.numScheduledTokens.values.sum ≤ cfg.maxNumScheduledTokens)
    ⟨.assertion, .scheduledTotal⟩
  require (f.plan.tokenBudget ≥ 0) ⟨.assertion, .tokenBudget⟩
  require (f.sched.running.length ≤ cfg.maxNumRunningReqs) ⟨.assertion, .runningLimit⟩
  require (f.plan.scheduledNewReqs.length + f.plan.scheduledResumedReqs.length +
    f.plan.scheduledRunningReqs.length ≤ f.sched.running.length) ⟨.assertion, .scheduledCount⟩

/-- The number of blocks common to all running requests, from the first of them. -/
def commonPrefixBlocks : Except Err (List Nat) :=
  match s.running with
  | [] => .ok (cfg.kv.groups.map fun _ => 0)
  | first :: _ => do
    require ((s.objs first).status = .running) ⟨.assertion, .commonRunning⟩
    .ok (s.kvCacheManager.getNumCommonPrefixBlocks cfg.kv (s.objs first).requestId s.running.length)

/-- `NewRequestData.from_request`. -/
def newRequestData (r : Ref) : Except Err NewRequestData := do
  let req := f.sched.objs r
  let blockIds ← orRaise (f.plan.reqToNewBlocks.get? req.requestId) ⟨.key, .missingNewBlocks⟩
  .ok {
    reqId := req.requestId
    promptTokenIds := req.promptTokenIds
    mmFeatures := req.mmFeatures
    samplingParams := req.samplingParams
    poolingParams := req.poolingParams
    blockIds
    numComputedTokens := req.numComputedTokens
    loraRequest := req.loraRequest }

/-- One row of `_make_cached_request_data`. -/
def cachedRequestData (resumed : Bool) (r : Ref) : Except Err CachedRequestData := do
  let req := f.sched.objs r
  let id := req.requestId
  let numScheduled ← orRaise (f.plan.numScheduledTokens.get? id) ⟨.key, .missingNewBlocks⟩
  let newBlocks ← orRaise (f.plan.reqToNewBlocks.get? id) ⟨.key, .missingNewBlocks⟩
  let numTokens := numScheduled - ((f.plan.scheduledSpecDecodeTokens.get? id).getD []).length
  .ok {
    reqId := id
    resumedFromPreemption := resumed
    newTokenIds :=
      if cfg.usePp then
        some (pySlice req.allTokenIds req.numComputedTokens (req.numComputedTokens + numTokens))
      else if cfg.connector.isSome then some []
      else none
    newBlockIds := if newBlocks.all List.isEmpty then none else some newBlocks
    numComputedTokens := req.numComputedTokens }

/-- `_make_cached_request_data`: the running requests, then the resumed ones. -/
def makeCachedRequestData : Except Err (List CachedRequestData) := do
  let running ← f.plan.scheduledRunningReqs.mapM (cachedRequestData cfg f false)
  let resumed ← f.plan.scheduledResumedReqs.mapM (cachedRequestData cfg f true)
  .ok (running ++ resumed)

/-- The output of a step, before the connector adds its metadata. -/
def schedulerOutput : Except Err (SchedulerOutput M) := do
  let numCommonPrefixBlocks ← commonPrefixBlocks cfg f.sched
  let scheduledNewReqs ← f.plan.scheduledNewReqs.mapM (newRequestData f)
  let scheduledCachedReqs ← makeCachedRequestData cfg f
  .ok {
    scheduledNewReqs
    scheduledCachedReqs
    numScheduledTokens := f.plan.numScheduledTokens
    totalNumScheduledTokens := f.plan.numScheduledTokens.values.sum
    scheduledSpecDecodeTokens := f.plan.scheduledSpecDecodeTokens
    scheduledEncoderInputs := f.plan.scheduledEncoderInputs
    numCommonPrefixBlocks
    finishedReqIds := f.sched.finishedReqIds
    freeEncoderMmHashes := f.sched.encoderCacheManager.freed
    kvConnectorMetadata := none }

/-- `connector.build_connector_meta`, when there is a connector. -/
def attachConnectorMeta (out : SchedulerOutput M) :
    Except Err (SchedulerOutput M × Scheduler H C) :=
  match cfg.connector with
  | none => .ok (out, s)
  | some ops => do
    let (metadata, connector) ← ops.buildConnectorMeta s.connector out
    .ok ({ out with kvConnectorMetadata := some metadata }, { s with connector })

/-- The loop of `_update_after_schedule`: scheduled tokens count as computed from now on. -/
def advanceComputed (cfg : Config H C M) :
    List (RequestId × Int) → Scheduler H C → Except Err (Scheduler H C)
  | [], s => .ok s
  | (id, numScheduledToken) :: rest, s => do
    let r ← orRaise (s.requests.get? id) ⟨.key, .missingRequest⟩
    let s := s.modifyObj r fun req =>
      { req with numComputedTokens := req.numComputedTokens + numScheduledToken }
    let s := if (s.objs r).hasEncoderInputs then s.freeEncoderInputs cfg r else s
    advanceComputed cfg rest s

/-- The loop of the `AsyncScheduler`: a request whose last token is scheduled will output one more. -/
def reservePlaceholders : List RequestId → Scheduler H C → Except Err (Scheduler H C)
  | [], s => .ok s
  | id :: rest, s => do
    let r ← orRaise (s.requests.get? id) ⟨.key, .missingRequest⟩
    let req := s.objs r
    let s :=
      if req.numComputedTokens = req.numTokens + req.numOutputPlaceholders then
        s.modifyObj r fun req => { req with numOutputPlaceholders := req.numOutputPlaceholders + 1 }
      else s
    reservePlaceholders rest s

/-- `_update_after_schedule`, of the scheduler and of the `AsyncScheduler`. -/
def updateAfterSchedule (items : List (RequestId × Int)) (s : Scheduler H C) :
    Except Err (Scheduler H C) := do
  let s ← advanceComputed cfg items s
  if cfg.asyncScheduling then reservePlaceholders (items.map Prod.fst) s else .ok s

/-- The end of `schedule`: the output, the connector's metadata and `_update_after_schedule`. -/
def finishSchedule : Except Err (SchedulerOutput M × Scheduler H C) := do
  let f ← putBackSkipped cfg f
  checkConstraints cfg f
  let out ← schedulerOutput cfg f
  let s := { f.sched with
    encoderCacheManager := { f.sched.encoderCacheManager with freed := [] } }
  let (out, s) ← attachConnectorMeta cfg s out
  let s ← updateAfterSchedule cfg out.numScheduledTokens.items s
  .ok (out, { s with finishedReqIds := [] })

/-- Pins expire at the start of a step, under the policy that has them. -/
def expirePins (now : PyFloat) (s : Scheduler H C) :
    Except Err (Scheduler H C) :=
  if cfg.policy = .mimir then s.mimirExpirePins now else .ok s

/-- The local variables of `schedule` at its start. -/
def initialPlan : Plan where
  tokenBudget := cfg.maxNumScheduledTokens
  encoderComputeBudget := cfg.maxNumEncoderInputTokens

variable [DecidableEq H]

/-- The scheduling loops, up to the output. -/
def scheduleLoops (env : ScheduleEnv) (s : Scheduler H C) : Except Err (Frame H C) := do
  let s ← s.expirePins cfg env.now
  let f ← scheduleRunning cfg s.running.length ⟨s, initialPlan cfg⟩
  let f ← recordLoras cfg f
  -- After a preemption there is no room for waiting requests.
  if f.plan.preemptedReqs.isEmpty then scheduleWaiting cfg env f.sched.waiting.length f else .ok f

/-- `schedule`: what each request computes in the next step. -/
def schedule (env : ScheduleEnv) (s : Scheduler H C) :
    Except Err (SchedulerOutput M × Scheduler H C) := do
  let f ← scheduleLoops cfg env s
  finishSchedule cfg f

end Output

end Scheduler

end Mimir
