import Mimir.Connector.SendCounts
import Mimir.Sched.Delays

/-! The engine with several connectors, the workers that report their sends, and the aggregator between them. -/

namespace Mimir

open Python

/-- The saves of some completions, request by request and connector by connector. -/
def savesOf (completed : List (RequestId × List Nat)) : List (RequestId × Nat) :=
  completed.flatMap fun entry => entry.2.map fun saver => (entry.1, saver)

/-- The saves that the connectors of a worker report in a step. -/
def reportedSaves (reports : Reports) : List (RequestId × Nat) :=
  reports.zipIdx.flatMap fun item => item.1.1.map fun id => (id, item.2)

/-- A worker, as far as its sends go. -/
structure SendWorker where
  extraAsyncSaves : PyDict RequestId Nat
  /-- The saves of the metadata bound so far that no connector has reported; nothing in the program
  reads them. -/
  owed : List (RequestId × Nat)

namespace SendWorker

/-- No metadata yet. -/
def init : SendWorker := ⟨.empty, []⟩

/-- The worker binds the metadata of a step. -/
def bind {M : Type} (metadata : MultiKVConnectorMetadata M) (w : SendWorker) : SendWorker where
  extraAsyncSaves := MultiConnectorWorker.bindConnectorMetadata w.extraAsyncSaves metadata
  owed := w.owed ++ savesOf metadata.completed

/-- The worker collects the reports of its connectors. -/
def report (w : SendWorker) (reports : Reports) : Except Err (KVConnectorOutput × SendWorker) := do
  let done ← MultiConnectorWorker.getFinished reports ⟨[], []⟩ w.extraAsyncSaves
  .ok (done.1, ⟨done.2, w.owed.filter fun save => save ∉ reportedSaves reports⟩)

/-- Every connector reports saves that it owes, and each of them once. -/
def Owes (w : SendWorker) (reports : Reports) : Prop :=
  (reportedSaves reports).Nodup ∧ ∀ save ∈ reportedSaves reports, save ∈ w.owed

instance (w : SendWorker) (reports : Reports) : Decidable (w.Owes reports) :=
  inferInstanceAs (Decidable (_ ∧ _))

end SendWorker

/-- The engine core, its workers, and the reports on their way from the workers to the scheduler. -/
structure SendSystem (H C M : Type) where
  engine : Engine H (MultiConnector C) (MultiKVConnectorMetadata M)
  workers : List SendWorker
  aggregator : KVOutputAggregator
  /-- The aggregated reports of the executed batches, oldest first. -/
  outputs : List KVConnectorOutput
  /-- The aggregated reports that the scheduler has seen; nothing in the program reads them. -/
  applied : List KVConnectorOutput
  /-- The completions whose metadata the workers have bound; nothing in the program reads them. -/
  bound : List (RequestId × List Nat)

/-- The operations of the system. -/
inductive SendOp where
  /-- A call from outside: a request is added or finished, a step scheduled, drafts proposed. -/
  | call (op : Op)
  /-- The workers execute the oldest scheduled batch, each with the reports of its connectors. -/
  | execute (reports : List Reports)
  /-- The output of the oldest executed batch reaches the scheduler, with its aggregated reports. -/
  | update (clock : Ref → PyFloat) (model : ModelRunnerOutput)

/-- Whether an operation of the engine core involves the workers. -/
def Op.ofWorkers : Op → Bool
  | .execute => true
  | .updateFromOutput _ _ => true
  | _ => false

namespace SendSystem

variable {H C M : Type} (cfg : Config H (MultiConnector C) (MultiKVConnectorMetadata M))

/-- The system before any request. -/
def init (cfg : Config H (MultiConnector C) (MultiKVConnectorMetadata M)) (connectors : List C)
    (worldSize : Nat) : SendSystem H C M where
  engine := .init cfg (.init connectors)
  workers := List.replicate worldSize .init
  aggregator := .init worldSize
  outputs := []
  applied := []
  bound := []

variable [DecidableEq H]

/-- The workers execute a batch: each binds its metadata and collects reports, which are aggregated. -/
def executeWorkers (j : SendSystem H C M) (metadata : MultiKVConnectorMetadata M)
    (reports : List Reports) : Except Err (SendSystem H C M) := do
  let steps ← (j.workers.zip reports).mapM fun item => (item.1.bind metadata).report item.2
  let aggregated := j.aggregator.aggregate (steps.map Prod.fst)
  .ok { j with
    workers := steps.map Prod.snd
    aggregator := aggregated.1
    outputs := j.outputs ++ [aggregated.2]
    bound := j.bound ++ metadata.completed }

/-- One operation of the system. -/
def exec (cfg : Config H (MultiConnector C) (MultiKVConnectorMetadata M)) (j : SendSystem H C M) :
    SendOp → Except Err (SendSystem H C M)
  | .call op => do
    require (op.ofWorkers = false) ⟨.runtime, .loop⟩
    let engine ← j.engine.exec cfg op
    .ok { j with engine }
  | .execute reports =>
    match j.engine.scheduled with
    | [] => .error ⟨.index, .emptyQueue⟩
    | batch :: _ => do
      let metadata ← orRaise batch.kvConnectorMetadata ⟨.assertion, .connectorMetadata⟩
      let engine ← j.engine.exec cfg .execute
      { j with engine }.executeWorkers metadata reports
  | .update clock model =>
    match j.outputs with
    | [] => .error ⟨.index, .emptyQueue⟩
    | out :: outputs => do
      let engine ← j.engine.exec cfg
        (.updateFromOutput clock { model with kvConnectorOutput := some out })
      .ok { j with engine, outputs, applied := j.applied ++ [out] }

/-- The connectors in the workers report the saves they owe, in any order and at any step. -/
def Faithful (j : SendSystem H C M) : SendOp → Prop
  | .execute reports => reports.length = j.workers.length ∧
      ∀ batch ∈ j.engine.scheduled.head?, ∀ metadata ∈ batch.kvConnectorMetadata,
        ∀ item ∈ j.workers.zip reports, (item.1.bind metadata).Owes item.2
  | _ => True

/-- A sequence of operations that are each checked before they are executed. -/
def run (cfg : Config H (MultiConnector C) (MultiKVConnectorMetadata M))
    (allowed : SendSystem H C M → SendOp → Prop) [∀ j op, Decidable (allowed j op)]
    (j : SendSystem H C M) : List SendOp → Except Err (SendSystem H C M)
  | [] => .ok j
  | op :: rest => do
    require (allowed j op) ⟨.runtime, .loop⟩
    let j ← j.exec cfg op
    run cfg allowed j rest

/-- One step of a run whose operations all meet a condition on the state they start from. -/
def Step
    (allowed : SendSystem H C M → SendOp → Prop) (j j' : SendSystem H C M) : Prop :=
  ∃ op, allowed j op ∧ j.exec cfg op = .ok j'

/-- The states of runs from a fresh system whose operations all meet a condition. -/
def Reachable (connectors : List C)
    (worldSize : Nat) (allowed : SendSystem H C M → SendOp → Prop) (j : SendSystem H C M) : Prop :=
  Relation.ReflTransGen (Step cfg allowed) (init cfg connectors worldSize) j

instance (j : SendSystem H C M) (op : SendOp) : Decidable (j.Faithful op) :=
  match op with
  | .execute reports => inferInstanceAs (Decidable (reports.length = j.workers.length ∧
      ∀ batch ∈ j.engine.scheduled.head?, ∀ metadata ∈ batch.kvConnectorMetadata,
        ∀ item ∈ j.workers.zip reports, (item.1.bind metadata).Owes item.2))
  | .call _ | .update _ _ => inferInstanceAs (Decidable True)

/-- A sequence of operations that passes its checks and does not raise is a run. -/
theorem steps_of_run {cfg : Config H (MultiConnector C) (MultiKVConnectorMetadata M)}
    {allowed : SendSystem H C M → SendOp → Prop} [∀ j op, Decidable (allowed j op)]
    {j j' : SendSystem H C M} {ops : List SendOp} (done : j.run cfg allowed ops = .ok j') :
    Relation.ReflTransGen (Step cfg allowed) j j' := by
  induction ops generalizing j with
  | nil => cases done; exact .refl
  | cons op rest ih =>
    obtain ⟨_, permitted, tail⟩ := bind_eq_ok.mp done
    obtain ⟨mid, first, last⟩ := bind_eq_ok.mp tail
    exact .head ⟨op, require_eq_ok.mp permitted, first⟩ (ih last)

end SendSystem

end Mimir
