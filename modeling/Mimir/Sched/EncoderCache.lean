import Mimir.Python.Dict
import Mimir.Request.Types

/-! The cache of encoder outputs of multimodal inputs, shared by content hash. -/

namespace Mimir

open Python

/-- `EncoderCacheManager`: who references each cached output, and what may be reclaimed. -/
structure EncoderCacheManager where
  numFreeSlots : Int
  numFreeableSlots : Int
  /-- For each content hash, the ids of the requests that reference its output. -/
  cached : PyDict String (List RequestId)
  /-- Outputs nobody references, oldest first, with their sizes. -/
  freeable : PyDict String Nat
  freed : List String

namespace EncoderCacheManager

variable {H : Type} (e : EncoderCacheManager)

/-- The empty cache. -/
def init (cacheSize : Int) : EncoderCacheManager where
  numFreeSlots := cacheSize
  numFreeableSlots := cacheSize
  cached := .empty
  freeable := .empty
  freed := []

/-- `set.add` on a set kept as a list. -/
def addRef (ids : List RequestId) (id : RequestId) : List RequestId :=
  if id ∈ ids then ids else ids ++ [id]

/-- An output nobody referenced is no longer reclaimable. -/
def reuseFreeable (mm : MmFeature) (ids : List RequestId) :
    Except Err EncoderCacheManager :=
  if ids.isEmpty then do
    let numTokens ← orRaise (e.freeable.get? mm.identifier) ⟨.key, .encoderFreeable⟩
    .ok { e with
      freeable := e.freeable.erase mm.identifier
      numFreeableSlots := e.numFreeableSlots - numTokens }
  else .ok e

/-- `check_and_update_cache`: a cached output gets one more reference. -/
def checkAndUpdateCache (r : Request H) (mm : MmFeature) :
    Except Err (Bool × EncoderCacheManager) :=
  match e.cached.get? mm.identifier with
  | none => .ok (false, e)
  | some ids => do
    let e ← e.reuseFreeable mm ids
    .ok (true, { e with cached := e.cached.set mm.identifier (addRef ids r.requestId) })

/-- The eviction loop of `can_allocate`, over the reclaimable outputs in order. -/
def evictUntil (numTokens : Int) : List (String × Nat) → EncoderCacheManager →
    Except Err EncoderCacheManager
  | [], e =>
    if numTokens > e.numFreeSlots then .error ⟨.key, .encoderFreeable⟩ else .ok e
  | (mmHash, numFreeToken) :: rest, e =>
    if numTokens > e.numFreeSlots then do
      require (mmHash ∈ e.cached.keys) ⟨.key, .encoderFreeable⟩
      evictUntil numTokens rest { e with
        freeable := e.freeable.erase mmHash
        cached := e.cached.erase mmHash
        freed := e.freed ++ [mmHash]
        numFreeSlots := e.numFreeSlots + numFreeToken }
    else .ok e

/-- `can_allocate`: whether an output fits, reclaiming unreferenced ones if it has to. -/
def canAllocate (mm : MmFeature)
    (encoderComputeBudget numTokensToSchedule : Int) : Except Err (Bool × EncoderCacheManager) :=
  if mm.length > encoderComputeBudget then .ok (false, e)
  else
    let numTokens := mm.length + numTokensToSchedule
    if numTokens ≤ e.numFreeSlots then .ok (true, e)
    else if numTokens > e.numFreeableSlots then .ok (false, e)
    else do
      let e ← evictUntil numTokens e.freeable.items e
      .ok (true, e)

/-- `allocate`: the space `can_allocate` promised is taken. -/
def allocate (r : Request H) (mm : MmFeature) : Except Err EncoderCacheManager := do
  require (mm.length ≤ e.numFreeSlots) ⟨.assertion, .encoderAllocate⟩
  require (mm.length ≤ e.numFreeableSlots) ⟨.assertion, .encoderAllocate⟩
  .ok { e with
    cached := e.cached.set mm.identifier
      (addRef ((e.cached.get? mm.identifier).getD []) r.requestId)
    numFreeSlots := e.numFreeSlots - mm.length
    numFreeableSlots := e.numFreeableSlots - mm.length }

/-- `free_encoder_input`: the last reference gone, the output becomes reclaimable. -/
def freeEncoderInput (r : Request H) (mm : MmFeature) :
    EncoderCacheManager :=
  match e.cached.get? mm.identifier with
  | none | some [] => e
  | some ids =>
    let ids := ids.erase r.requestId
    let e := { e with cached := e.cached.set mm.identifier ids }
    if ids.isEmpty then
      { e with
        freeable := e.freeable.set mm.identifier mm.length
        numFreeableSlots := e.numFreeableSlots + mm.length }
    else e

/-- `get_cached_input_ids`, as the inputs themselves. -/
def cachedInputs (r : Request H) : List MmFeature :=
  r.mmFeatures.filter fun mm => mm.identifier ∈ e.cached.keys

/-- `free`: every reference of a request is dropped. -/
def free (r : Request H) : EncoderCacheManager :=
  (e.cachedInputs r).foldl (fun e mm => e.freeEncoderInput r mm) e

end EncoderCacheManager

end Mimir
