import Mimir.Output.Detokenizer
import Mimir.Sched.State

/-! The frontend of one request: outputs of the engine core become outputs for its consumer. -/

namespace Mimir

open Python

/-- What ended a request: a token id or a stop string. -/
inductive StopReason where
  | token (id : TokenId)
  | text (stopString : List Char)
  deriving DecidableEq

/-- An `EngineCoreOutput` of a generative request, with one `E` for the logprobs of a position. -/
structure SampledOutput (E : Type) where
  newTokenIds : List TokenId
  newLogprobs : Option (List E) := none
  newPromptLogprobs : Option (List E) := none
  finishReason : Option FinishReason := none
  stopReason : Option TokenId := none
  kvTransferParams : Option KVTransferParams := none
  numCachedTokens : Int := 0

/-- A list object of logprobs: the processor's own, which keeps growing, or a separate one. -/
inductive Entries (E : Type) where
  | shared
  | own (entries : List E)

/-- The content of a list object, given that of the processor's list. -/
def Entries.read {E : Type} (processor : List E) : Entries E → List E
  | .shared => processor
  | .own entries => entries

@[simp] theorem Entries.read_shared {E : Type} (processor : List E) :
    (Entries.shared : Entries E).read processor = processor := rfl

@[simp] theorem Entries.read_own {E : Type} (processor entries : List E) :
    (Entries.own entries).read processor = entries := rfl

/-- `CompletionOutput`. -/
structure CompletionOutput (E : Type) where
  index : Nat
  text : List Char
  tokenIds : List TokenId
  logprobs : Option (Entries E)
  finishReason : Option FinishReason
  stopReason : Option StopReason

/-- `RequestOutput`. -/
structure RequestOutput (E : Type) where
  promptLogprobs : Option (List (Option E))
  outputs : List (CompletionOutput E)
  finished : Bool
  kvTransferParams : Option KVTransferParams
  numCachedTokens : Int

/-- `LogprobsProcessor`; the first prompt token has no logprobs. -/
structure LogprobsProcessor (E : Type) where
  logprobs : Option (List E)
  promptLogprobs : Option (List (Option E))

namespace LogprobsProcessor

variable {E : Type}

/-- `from_new_request`. -/
def fromNewRequest (params : OutputParams) : LogprobsProcessor E where
  logprobs := if params.logprobs then some [] else none
  promptLogprobs := if params.promptLogprobs then some [none] else none

/-- Appending to one of the lists, which must be there. -/
def extend {α : Type} (entries : Option (List α)) : Option (List α) → Except Err (Option (List α))
  | none => .ok entries
  | some new => do
    let old ← orRaise entries ⟨.assertion, .logprobsDisabled⟩
    .ok (some (old ++ new))

/-- `update_from_output`. -/
def updateFromOutput (p : LogprobsProcessor E) (output : SampledOutput E) :
    Except Err (LogprobsProcessor E) := do
  let logprobs ← extend p.logprobs output.newLogprobs
  let promptLogprobs ← extend p.promptLogprobs (output.newPromptLogprobs.map (·.map some))
  .ok { logprobs, promptLogprobs }

/-- `pop_prompt_logprobs`. -/
def popPromptLogprobs (p : LogprobsProcessor E) :
    Option (List (Option E)) × LogprobsProcessor E :=
  (p.promptLogprobs, { p with promptLogprobs := p.promptLogprobs.map fun _ => [] })

/-- The content of a list object of logprobs. -/
def read (p : LogprobsProcessor E) (entries : Entries E) : List E :=
  entries.read (p.logprobs.getD [])

end LogprobsProcessor

namespace RequestOutput

variable {E : Type}

/-- `completion.logprobs.extend(next_completion.logprobs)`, if there is anything to add. -/
def extendLogprobs (p : LogprobsProcessor E) (completion next : CompletionOutput E) :
    Except Err (LogprobsProcessor E × Option (Entries E)) :=
  let added := (next.logprobs.map p.read).getD []
  if added.isEmpty then .ok (p, completion.logprobs)
  else
    match completion.logprobs with
    | none => .error ⟨.assertion, .mergeLogprobs⟩
    -- Extending the processor's own list changes the processor.
    | some .shared => .ok ({ p with logprobs := p.logprobs.map (· ++ added) }, some .shared)
    | some (.own entries) => .ok (p, some (.own (entries ++ added)))

/-- Merging a completion into the output with its index, or adding it behind the others. -/
def addCompletion (aggregate : Bool) (p : LogprobsProcessor E) (next : CompletionOutput E) :
    List (CompletionOutput E) → Except Err (LogprobsProcessor E × List (CompletionOutput E))
  | [] => .ok (p, [next])
  | completion :: rest =>
    if completion.index = next.index then
      if aggregate then do
        let (p, logprobs) ← extendLogprobs p completion next
        .ok (p, { completion with
          text := completion.text ++ next.text
          tokenIds := completion.tokenIds ++ next.tokenIds
          logprobs
          finishReason := next.finishReason
          stopReason := next.stopReason } :: rest)
      else .ok (p, next :: rest)
    else do
      let (p, rest) ← addCompletion aggregate p next rest
      .ok (p, completion :: rest)

/-- `RequestOutput.add`. -/
def add (p : LogprobsProcessor E) (output next : RequestOutput E) (aggregate : Bool) :
    Except Err (LogprobsProcessor E × RequestOutput E) := do
  let (p, outputs) ← next.outputs.foldlM
    (fun (p, outputs) completion => addCompletion aggregate p completion outputs) (p, output.outputs)
  .ok (p, { output with
    outputs
    finished := output.finished || next.finished
    kvTransferParams := next.kvTransferParams })

end RequestOutput

/-- `RequestOutputCollector`: at most one output, or an exception, waits for the consumer. -/
structure RequestOutputCollector (E : Type) where
  aggregate : Bool
  output : Option (Except Err (RequestOutput E)) := none

namespace RequestOutputCollector

variable {E : Type}

/-- `put`. -/
def put (p : LogprobsProcessor E) (c : RequestOutputCollector E) (output : Except Err (RequestOutput E)) :
    Except Err (LogprobsProcessor E × RequestOutputCollector E) :=
  match c.output, output with
  | none, _ => .ok (p, { c with output := some output })
  | some _, .error e => .ok (p, { c with output := some (.error e) })
  | some (.error _), .ok _ => .ok (p, c)
  | some (.ok waiting), .ok next => do
    let (p, merged) ← waiting.add p next c.aggregate
    .ok (p, { c with output := some (.ok merged) })

/-- `get_nowait`, and a `get` that does not have to wait. -/
def getNowait (c : RequestOutputCollector E) :
    Option (Except Err (RequestOutput E)) × RequestOutputCollector E :=
  (c.output, { c with output := none })

end RequestOutputCollector

/-- `RequestState` of a generative request without a parent. -/
structure RequestState (D : Type) where
  requestIndex : Nat
  outputKind : RequestOutputKind
  detokenizer : IncrementalDetokenizer D
  numCachedTokens : Int := 0

namespace RequestState

variable {D E : Type}

/-- The logprobs of a completion: the processor's list, or a copy of its end when streaming deltas. -/
def completionLogprobs (p : LogprobsProcessor E) (delta : Bool) (tokenIds : List TokenId) :
    Option (Entries E) :=
  p.logprobs.map fun logprobs =>
    if delta = true ∧ logprobs.isEmpty = false then
      .own (pySlice logprobs (-(tokenIds.length : Int)) logprobs.length)
    else .shared

/-- `_new_completion_output`. -/
def newCompletionOutput (r : RequestState D) (p : LogprobsProcessor E) (tokenIds : List TokenId)
    (finishReason : Option FinishReason) (stopReason : Option StopReason) :
    CompletionOutput E × RequestState D :=
  let finished := finishReason.isSome
  let delta := decide (r.outputKind = .delta)
  let (text, detokenizer) := r.detokenizer.getNextOutputText finished delta
  let tokenIds := if delta then tokenIds else detokenizer.outputTokenIds
  ({ index := r.requestIndex
     text
     tokenIds
     logprobs := completionLogprobs p delta tokenIds
     finishReason
     stopReason := if finished then stopReason else none },
    { r with detokenizer })

/-- `_new_request_output`: streaming deltas forgets the prompt logprobs once they are out. -/
def newRequestOutput (r : RequestState D) (p : LogprobsProcessor E)
    (outputs : List (CompletionOutput E)) (finished : Bool)
    (kvTransferParams : Option KVTransferParams) : RequestOutput E × LogprobsProcessor E :=
  let (promptLogprobs, p) :=
    if r.outputKind = .delta then p.popPromptLogprobs else (p.promptLogprobs, p)
  ({ promptLogprobs, outputs, finished, kvTransferParams, numCachedTokens := r.numCachedTokens }, p)

/-- `make_request_output`. -/
def makeRequestOutput (r : RequestState D) (p : LogprobsProcessor E) (newTokenIds : List TokenId)
    (finishReason : Option FinishReason) (stopReason : Option StopReason)
    (kvTransferParams : Option KVTransferParams) :
    Option (RequestOutput E) × RequestState D × LogprobsProcessor E :=
  if finishReason = none ∧ r.outputKind = .finalOnly then (none, r, p)
  else
    let (output, r) := r.newCompletionOutput p newTokenIds finishReason stopReason
    let (requestOutput, p) :=
      r.newRequestOutput p [output] finishReason.isSome kvTransferParams
    (some requestOutput, r, p)

end RequestState

/-- What an output shows its consumer at the moment it is received. -/
structure Received (E : Type) where
  text : List Char
  tokenIds : List TokenId
  logprobs : Option (List E)
  finishReason : Option FinishReason
  stopReason : Option StopReason

/-- Reading a completion. -/
def CompletionOutput.receive {E : Type} (p : LogprobsProcessor E) (c : CompletionOutput E) :
    Received E :=
  ⟨c.text, c.tokenIds, c.logprobs.map p.read, c.finishReason, c.stopReason⟩

/-- The frontend of one request; its logprobs list outlives it in the outputs that share it. -/
structure Frontend (D E : Type) where
  /-- The entry of `request_states`, until the request ends. -/
  request : Option (RequestState D)
  processor : LogprobsProcessor E
  collector : RequestOutputCollector E

/-- What happens to one request: an output of the engine core, an abort, or its consumer's turn. -/
inductive StreamEvent (E : Type) where
  | output (o : SampledOutput E)
  | abort
  | get

namespace Frontend

variable {D E : Type}

/-- `OutputProcessor.add_request`, given the decoder of the tokenizer if there is one. -/
def addRequest (params : OutputParams) (kind : RequestOutputKind) (decoder : Option D) :
    Frontend D E where
  request := some
    { requestIndex := 0, outputKind := kind, detokenizer := .fromNewRequest params decoder }
  processor := .fromNewRequest params
  collector := { aggregate := decide (kind = .delta) }

/-- Making an output and putting it into the queue. -/
def emit (f : Frontend D E) (r : RequestState D) (newTokenIds : List TokenId)
    (finishReason : Option FinishReason) (stopReason : Option StopReason)
    (kvTransferParams : Option KVTransferParams) : Except Err (Frontend D E) := do
  let (output, r, p) :=
    r.makeRequestOutput f.processor newTokenIds finishReason stopReason kvTransferParams
  let (p, collector) ←
    match output with
    | none => .ok (p, f.collector)
    | some output => f.collector.put p (.ok output)
  -- A finished request is freed.
  .ok { request := if finishReason.isSome then none else some r, processor := p, collector }

/-- One turn of the loop of `process_outputs`. -/
def processOutput (decodeNext : D → TokenId → List Char × D) (f : Frontend D E)
    (o : SampledOutput E) : Except Err (Frontend D E) :=
  match f.request with
  | none => .ok f
  | some r => do
    let (stopString, detokenizer) :=
      r.detokenizer.update decodeNext o.newTokenIds (decide (o.finishReason = some .stop))
    let p ← f.processor.updateFromOutput o
    let r := { r with detokenizer, numCachedTokens := o.numCachedTokens }
    match stopString.filter (· ≠ []) with
    | some stopString =>
      emit { f with processor := p } r o.newTokenIds (some .stop) (some (.text stopString))
        o.kvTransferParams
    | none =>
      emit { f with processor := p } r o.newTokenIds o.finishReason (o.stopReason.map .token)
        o.kvTransferParams

/-- `abort_requests` for the one request. -/
def abortRequest (f : Frontend D E) : Except Err (Frontend D E) :=
  match f.request with
  | none => .ok f
  | some r => f.emit r [] (some .abort) none none

/-- One event, and what the consumer got from it. -/
def step (decodeNext : D → TokenId → List Char × D) (f : Frontend D E) :
    StreamEvent E → Except Err (Frontend D E × List (Received E))
  | .output o => do
    let f ← f.processOutput decodeNext o
    .ok (f, [])
  | .abort => do
    let f ← f.abortRequest
    .ok (f, [])
  | .get => do
    let (output, collector) := f.collector.getNowait
    let f := { f with collector }
    match output with
    | none => .ok (f, [])
    | some (.error e) => .error e
    | some (.ok output) => .ok (f, output.outputs.map (·.receive f.processor))

/-- The outputs a consumer receives over a sequence of events. -/
def run (decodeNext : D → TokenId → List Char × D) (f : Frontend D E) :
    List (StreamEvent E) → Except Err (Frontend D E × List (Received E))
  | [] => .ok (f, [])
  | event :: rest => do
    let (f, first) ← f.step decodeNext event
    let (f, later) ← run decodeNext f rest
    .ok (f, first ++ later)

end Frontend

end Mimir
