import Mimir.Sched.State

/-! The end of a request: reporting it, pinning its blocks for a while or giving them back. -/

namespace Mimir

open Python

/-- The key of a job: numbers that compare equal are one key, and each `nan` is a key of its own. -/
def XArg.dictKey (r : Ref) : XArg → JobKey
  | .float .nan => ⟨.float .nan, some r⟩
  | .float (.fin q) => ⟨if q.den = 1 then .int q.num else .float (.fin q), none⟩
  | x => ⟨x, none⟩

/-- `float(x)`. -/
def XArg.toFloat (floatOfString : String → Option PyFloat) : XArg → Except Err PyFloat
  | .str s => orRaise (floatOfString s) ⟨.value, .floatConversion⟩
  | .int z =>
    match PyFloat.round z with
    | .fin q => .ok (.fin q)
    | _ => .error ⟨.overflow, .floatConversion⟩
  | .float x => .ok x

namespace Scheduler

variable {H C M : Type} (cfg : Config H C M) (s : Scheduler H C)

/-- `_free_blocks`: the blocks of a finished request go back, and it leaves `requests`. -/
def freeBlocks (r : Ref) : Except Err (Scheduler H C) := do
  let req := s.objs r
  require (req.isFinished) ⟨.assertion, .notFinished⟩
  require (req.requestId ∈ s.requests.keys) ⟨.key, .missingRequest⟩
  let s := { s with
    kvCacheManager := s.kvCacheManager.free req.requestId
    requests := s.requests.erase req.requestId }
  .ok (s.log (.released r))

/-- `_connector_finished`: without a connector nothing is delayed. -/
def connectorFinished (r : Ref) :
    Except Err ((Bool × Option KVTransferParams) × Scheduler H C) :=
  match cfg.connector with
  | none => .ok ((false, none), s)
  | some ops =>
    -- The block ids are unpacked as the list of a single group.
    match s.kvCacheManager.getBlocks (s.objs r).requestId with
    | [blockIds] => do
      let (res, connector) ← ops.requestFinished s.connector (s.objs r) blockIds
      .ok (res, { s with connector })
    | _ => .error ⟨.value, .singleGroup⟩

/-- The tool durations recorded for the job of a request. -/
def toolHistory (r : Ref) (job : XArg) : List PyFloat :=
  (s.jobToolHistory.get? (job.dictKey r)).getD []

/-- Recording the tool duration of a request for its job, when it has one. -/
def recordDuration (r : Ref) (job : XArg) :
    Except Err (Scheduler H C) :=
  match (s.objs r).toolDuration with
  | none => .ok s
  | some toolDur => do
    let duration ← toolDur.toFloat cfg.floatOfString
    let s := { s with
      jobToolHistory :=
        s.jobToolHistory.set (job.dictKey r) (s.toolHistory r job ++ [duration]) }
    .ok (s.log (.durationRecorded r duration))

/-- `_set_up_pin`: the time to pin a request, zero when its tool is absent or slow. -/
def setUpPin (r : Ref) (job : XArg) :
    Except Err (PyFloat × Scheduler H C) :=
  if (s.objs r).hasToolCall.getD false then do
    let s ← s.recordDuration cfg r job
    let hist := s.toolHistory r job
    let avg := if hist.isEmpty then .fin 0 else (PyFloat.sum cfg.compensatedSum hist).divNat hist.length
    .ok (if cfg.mimirPinTtl.lt avg then .fin 0 else cfg.mimirPinTtl, s)
  else .ok (.fin 0, s)

/-- `_pin_request`: the request and its blocks stay until the clock passes the expiry. -/
def pinRequest (r : Ref) (now ttl : PyFloat) : Scheduler H C :=
  { s with pinnedRequests := s.pinnedRequests ++ [(r, now.add ttl)] }

/-- The job for which a finished request may be pinned: set, not at its last step, not delayed. -/
def pinJob (req : Request H) (delayFreeBlocks : Bool) : Option XArg :=
  if cfg.policy = .mimir ∧ req.isLastStep.getD false = false ∧ delayFreeBlocks = false then
    req.jobId
  else none

/-- The time to pin a finished request, zero when it is not a candidate. -/
def pinTtl (r : Ref) (delayFreeBlocks : Bool) :
    Except Err (PyFloat × Scheduler H C) :=
  match pinJob cfg (s.objs r) delayFreeBlocks with
  | some job => s.setUpPin cfg r job
  | none => .ok (.fin 0, s)

/-- The finished id is noted for the workers and, with several engines, for its client. -/
def reportFinished (r : Ref) : Scheduler H C :=
  let req := s.objs r
  let s := { s with
    encoderCacheManager := s.encoderCacheManager.free req
    finishedReqIds := addId s.finishedReqIds req.requestId
    finishedReqIdsDict :=
      if cfg.includeFinishedSet then
        s.finishedReqIdsDict.set req.clientIndex
          (addId ((s.finishedReqIdsDict.get? req.clientIndex).getD []) req.requestId)
      else s.finishedReqIdsDict }
  s.log (.reported r)

/-- `_free_request`: report a finished request, then pin it, free it, or leave it to a transfer. -/
def freeRequest (now : PyFloat) (s : Scheduler H C) (r : Ref) :
    Except Err (Option KVTransferParams × Scheduler H C) := do
  require ((s.objs r).isFinished) ⟨.assertion, .notFinished⟩
  let ((delayFreeBlocks, kvXferParams), s) ← s.connectorFinished cfg r
  let s := s.reportFinished cfg r
  let (ttl, s) ← s.pinTtl cfg r delayFreeBlocks
  if PyFloat.lt (.fin 0) ttl then .ok (kvXferParams, s.pinRequest r now ttl)
  else if delayFreeBlocks then .ok (kvXferParams, s)
  else do
    let s ← s.freeBlocks r
    .ok (kvXferParams, s)

/-- An expired pin is freed, unless its id is already gone. -/
def expirePin (r : Ref) : Except Err (Scheduler H C) :=
  if (s.objs r).requestId ∈ s.requests.keys then s.freeBlocks r else .ok s

/-- The loop of `_mimir_expire_pins`, with the entries that stay pinned so far. -/
def expirePinsLoop (now : PyFloat) (s : Scheduler H C) :
    List (Ref × PyFloat) → List (Ref × PyFloat) → Except Err (Scheduler H C)
  | [], stillPinned => .ok { s with pinnedRequests := stillPinned }
  | (r, expiry) :: rest, stillPinned =>
    if expiry.le now then do
      let s ← s.expirePin r
      expirePinsLoop now s rest stillPinned
    else expirePinsLoop now s rest (stillPinned ++ [(r, expiry)])

/-- `_mimir_expire_pins`: pins whose time has come are freed. -/
def mimirExpirePins (now : PyFloat) (s : Scheduler H C) : Except Err (Scheduler H C) :=
  expirePinsLoop now s s.pinnedRequests []

/-- The second pass of `finish_requests`: each request gets its status and is freed. -/
def finishAll (cfg : Config H C M) (clock : Ref → PyFloat) (status : RequestStatus) :
    List Ref → Scheduler H C → Except Err (Scheduler H C)
  | [], s => .ok s
  | r :: rest, s => do
    let s := s.modifyObj r fun req => { req with status }
    let (_, s) ← s.freeRequest cfg (clock r) r
    finishAll cfg clock status rest s

/-- Removing requests from the waiting queue, when there are any to remove. -/
def removeWaiting (requests : List Ref) :
    Except Err (List Ref) :=
  if requests.isEmpty then .ok s.waiting
  else queueRemoveAll s.objs cfg.policy s.waiting requests

/-- `finish_requests`: a finish signal from outside; the ids are a set, in iteration order. -/
def finishRequests (clock : Ref → PyFloat) (s : Scheduler H C)
    (requestIds : List RequestId) (finishedStatus : RequestStatus) :
    Except Err (Scheduler H C) := do
  require (finishedStatus.isFinished) ⟨.assertion, .finishedStatus⟩
  let validRequests := requestIds.dedup.filterMap s.requests.get?
  let runningToRemove := validRequests.filter fun r => (s.objs r).status = .running
  let waitingToRemove := validRequests.filter fun r => (s.objs r).status ≠ .running
  let waiting ← s.removeWaiting cfg waitingToRemove
  let s := { s with running := removeAll s.running runningToRemove, waiting }
  finishAll cfg clock finishedStatus validRequests s

end Scheduler

end Mimir
