import Mimir.Sched.Schedule
import Mimir.Sched.Update
import Mathlib.Logic.Relation

/-! The engine core around the scheduler: operations, batches in flight, and runs. -/

namespace Mimir

open Python

/-- The engine core: the scheduler, and the batches on their way through the workers, oldest first. -/
structure Engine (H C M : Type) where
  sched : Scheduler H C
  /-- Batches scheduled and not yet executed. -/
  scheduled : List (SchedulerOutput M)
  /-- Batches executed whose output the scheduler has not seen. -/
  executed : List (SchedulerOutput M)

/-- The operations of the engine core, with what each reads from outside. -/
inductive Op where
  | addRequest (req : EngineCoreRequest)
  | schedule (env : ScheduleEnv)
  /-- The workers execute the oldest scheduled batch. -/
  | execute
  /-- The output of the oldest executed batch reaches the scheduler. -/
  | updateFromOutput (clock : Ref → PyFloat) (model : ModelRunnerOutput)
  | finishRequests (clock : Ref → PyFloat) (requestIds : List RequestId) (status : RequestStatus)
  | updateDraftTokenIds (drafts : List (RequestId × List TokenId))
  | resetPrefixCache

namespace Engine

variable {H C M : Type} (cfg : Config H C M)

/-- The engine before any request. -/
def init (cfg : Config H C M) (connector : C) : Engine H C M where
  sched := .init cfg connector
  scheduled := []
  executed := []

/-- The workers see the metadata of the batch they execute. -/
def executeBatch (s : Scheduler H C) (batch : SchedulerOutput M) :
    Scheduler H C :=
  match cfg.connector, batch.kvConnectorMetadata with
  | some ops, some metadata => { s with connector := ops.executeStep s.connector metadata }
  | _, _ => s

variable [DecidableEq H]

/-- One operation of the engine core. -/
def exec (e : Engine H C M) : Op → Except Err (Engine H C M)
  | .addRequest req => do
    let sched ← e.sched.addRequest cfg req
    .ok { e with sched }
  | .schedule env => do
    let (out, sched) ← e.sched.schedule cfg env
    .ok { e with sched, scheduled := e.scheduled ++ [out] }
  | .execute =>
    match e.scheduled with
    | [] => .error ⟨.index, .emptyQueue⟩
    | batch :: scheduled =>
      .ok { sched := executeBatch cfg e.sched batch, scheduled, executed := e.executed ++ [batch] }
  | .updateFromOutput clock model =>
    match e.executed with
    | [] => .error ⟨.index, .emptyQueue⟩
    | batch :: executed => do
      let (_, sched) ← e.sched.updateFromOutput cfg clock batch model
      .ok { e with sched, executed }
  | .finishRequests clock requestIds status => do
    let sched ← e.sched.finishRequests cfg clock requestIds status
    .ok { e with sched }
  | .updateDraftTokenIds drafts => .ok { e with sched := e.sched.updateDraftTokenIds drafts }
  | .resetPrefixCache => .ok { e with sched := e.sched.resetPrefixCache.2 }

/-- A sequence of operations that are each checked before they are executed. -/
def run (cfg : Config H C M) (allowed : Engine H C M → Op → Prop) [∀ e op, Decidable (allowed e op)]
    (e : Engine H C M) : List Op → Except Err (Engine H C M)
  | [] => .ok e
  | op :: rest => do
    require (allowed e op) ⟨.runtime, .loop⟩
    let e ← e.exec cfg op
    run cfg allowed e rest

/-- One step of a run whose operations all meet a condition on the state they start from. -/
def Step (allowed : Engine H C M → Op → Prop) (e e' : Engine H C M) : Prop :=
  ∃ op, allowed e op ∧ e.exec cfg op = .ok e'

/-- A run whose operations all meet a condition on the state they start from. -/
def Steps (allowed : Engine H C M → Op → Prop) :
    Engine H C M → Engine H C M → Prop :=
  Relation.ReflTransGen (Step cfg allowed)

/-- The states of runs from a fresh engine whose operations all meet a condition. -/
def Reachable (connector : C) (allowed : Engine H C M → Op → Prop)
    (e : Engine H C M) : Prop :=
  Steps cfg allowed (init cfg connector) e

variable {cfg} {allowed : Engine H C M → Op → Prop}

/-- The rule of invariants: what every allowed operation keeps holds along a run. -/
theorem Steps.invariant {I : Engine H C M → Prop} {e e' : Engine H C M}
    (steps : Steps cfg allowed e e') (start : I e)
    (step : ∀ a b op, I a → allowed a op → a.exec cfg op = .ok b → I b) : I e' := by
  -- The induction is on the number of operations.
  induction steps with
  | refl => exact start
  | tail _ last ih =>
    obtain ⟨op, permitted, done⟩ := last
    exact step _ _ op ih permitted done

/-- A sequence of operations that passes its checks and does not raise is a run. -/
theorem steps_of_run [∀ e op, Decidable (allowed e op)] {e e' : Engine H C M} {ops : List Op}
    (done : e.run cfg allowed ops = .ok e') : Steps cfg allowed e e' := by
  induction ops generalizing e with
  | nil => cases done; exact .refl
  | cons op rest ih =>
    obtain ⟨_, permitted, tail⟩ := bind_eq_ok.mp done
    obtain ⟨mid, first, last⟩ := bind_eq_ok.mp tail
    exact .head ⟨op, require_eq_ok.mp permitted, first⟩ (ih last)

/-- A run that is executed reaches a state. -/
theorem exists_reachable [∀ e op, Decidable (allowed e op)] {c : C} {P : Engine H C M → Prop}
    (ops : List Op) (ran : ∃ e, (init cfg c).run cfg allowed ops = .ok e ∧ P e) :
    ∃ e, Reachable cfg c allowed e ∧ P e := by
  obtain ⟨e, done, holds⟩ := ran
  exact ⟨e, steps_of_run done, holds⟩

/-- So does one that goes on with a step. -/
theorem exists_scheduled [∀ e op, Decidable (allowed e op)] {c : C} {env : ScheduleEnv}
    {P : Engine H C M → SchedulerOutput M → Scheduler H C → Prop} (ops : List Op)
    (ran : ∃ e, (init cfg c).run cfg allowed ops = .ok e ∧
      ∃ out s', e.sched.schedule cfg env = .ok (out, s') ∧ P e out s') :
    ∃ e out s', Reachable cfg c allowed e ∧ e.sched.schedule cfg env = .ok (out, s') ∧ P e out s' := by
  obtain ⟨e, done, out, s', holds⟩ := ran
  exact ⟨e, out, s', steps_of_run done, holds⟩

end Engine

section SmallEngine

/-- A small engine: one full-attention group of sixteen blocks of two tokens, pins of two seconds. -/
def smallConfig : Config FreeHash Unit Unit where
  policy := .mimir
  maxNumRunningReqs := 8
  maxNumScheduledTokens := 64
  longPrefillTokenThreshold := 0
  chunkedPrefillEnabled := true
  maxLoras := none
  kv := {
    groups := [⟨.fullAttention, 2, by decide⟩]
    numBlocks := 16
    blocksPositive := by decide
    enableCaching := true
    useEagle := false
    maxModelLen := 32
    dcpWorldSize := 1 }
  cacheBlockSize := 2
  numLookaheadTokens := 0
  isEncoderDecoder := false
  isWhisper := false
  encdecMaxEncoderLen := 0
  maxNumEncoderInputTokens := 0
  encoderCacheSize := 0
  disableChunkedMmInput := false
  usePp := false
  includeFinishedSet := false
  mimirPinTtl := .fin 2
  floatOfString := fun _ => none
  hasher := freeHasher
  connector := none

/-- A text request without agent metadata. -/
def plainRequest (id : RequestId) (prompt : List TokenId) (maxTokens : Nat) : EngineCoreRequest where
  requestId := id
  promptTokenIds := prompt
  samplingParams := some { maxTokens }

/-- One turn of an agent program that calls a tool. -/
def agentRequest (id : RequestId) (prompt : List TokenId) (maxTokens : Nat) : EngineCoreRequest where
  requestId := id
  promptTokenIds := prompt
  samplingParams := some {
    maxTokens
    extraArgs := some { jobId := some (.int 1), hasToolCall := some (.int 1) } }

/-- A model output: the sampled tokens of each request of the batch. -/
def sampledOutput (tokens : List (RequestId × List TokenId)) : ModelRunnerOutput where
  reqIdToIndex := tokens.zipIdx.foldl (fun d item => d.set item.1.1 item.2) .empty
  sampledTokenIds := tokens.map Prod.snd
  poolerOutput := []
  promptLogprobs := []
  kvConnectorOutput := none

/-- The clock of `schedule`, with all grammars compiled. -/
def atTime (now : ℚ) : ScheduleEnv := ⟨.fin now, fun _ => true⟩

end SmallEngine

end Mimir
