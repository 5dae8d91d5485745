import Mimir.Connector.SendLaws

/-! Every asynchronous send is reported to the scheduler once, and its blocks go back once. -/

namespace Mimir

open Python Scheduler List

variable {H C M : Type} {s : Scheduler H (MultiConnector C)}
  {cfg : Config H (MultiConnector C) (MultiKVConnectorMetadata M)} {subs : List (ConnectorOps H C M)}
  {worldSize : Nat} {j j' : SendSystem H C M} {metadata : MultiKVConnectorMetadata M}
  {out : KVConnectorOutput}

section Tracking

variable {s' : Scheduler H (MultiConnector C)}
  {base : List (RequestId × List Nat)} {freed : RequestId → Nat}

/-- The completions before and since the last step: their requests wait for their transfers. -/
structure Tracks (s : Scheduler H (MultiConnector C)) (base : List (RequestId × List Nat))
    (freed : RequestId → Nat) : Prop where
  ids : ((base ++ s.connector.completed).map Prod.fst).Nodup
  savers : ∀ entry ∈ base ++ s.connector.completed, entry.2 ≠ [] ∧ entry.2.Nodup
  waits : ∀ entry ∈ base ++ s.connector.completed, ∃ r, Awaits s r entry.1 (freed entry.1)
  unfreed : ∀ id, id ∉ base.map Prod.fst → freed id = 0
  counted : s.connector.Counted

namespace Tracks

/-- A change that completes nothing. -/
theorem keep (tracks : Tracks s base freed)
    (completed : s'.connector.completed = s.connector.completed)
    (extra : s'.connector.extraAsyncSaves = s.connector.extraAsyncSaves)
    (waits : ∀ {r id}, Awaits s r id (freed id) → Awaits s' r id (freed id)) :
    Tracks s' base freed where
  ids := by rw [completed]; exact tracks.ids
  savers := by rw [completed]; exact tracks.savers
  waits := by
    rw [completed]
    intro entry member
    obtain ⟨r, awaits⟩ := tracks.waits entry member
    exact ⟨r, waits awaits⟩
  unfreed := tracks.unfreed
  counted := by
    intro id
    rw [completed, extra]
    exact tracks.counted id

variable [DecidableEq H]
  {scope : Scope}
  (connected : cfg.connector = some (MultiConnector.ops subs))

include connected

/-- An elementary change between steps: a request that ends may be another completion. -/
theorem move (inv : QueueInv s)
    (link : Link s) (distinct : DistinctIds s) (tracks : Tracks s base freed) (fresh : scope.fresh)
    (unsent : ∀ r, ¬ scope.sent r) (quiet : ¬ scope.step) (step : Move cfg scope s s') :
    Tracks s' base freed := by
  have old : ∀ {r id count}, Awaits s r id count → Awaits s' r id count :=
    fun awaits => awaits.move link fresh (unsent _) step
  cases step with
  | book b told =>
    rcases told.resolve_left quiet with eq | ⟨ops, out, here, eq⟩
    · exact tracks.keep (congrArg _ eq) (congrArg _ eq) old
    · cases connected.symm.trans here
      refine tracks.keep ?_ ?_ old
      · show b.connector.completed = s.connector.completed
        rw [eq]
        rfl
      · show b.connector.extraAsyncSaves = s.connector.extraAsyncSaves
        rw [eq]
        rfl
  | retire r req b notes outcome ends =>
    have decided := ends.decided
    unfold Outcome.Decided at decided
    rw [connected] at decided
    obtain ⟨blockIds, res, _, asked, delays⟩ := decided
    obtain ⟨savers, nodup, answer, extra, completed⟩ := MultiConnector.requestFinished_spec asked
    have own : req.requestId = (s.objs r).requestId := ends.ended.requestId
    by_cases none : savers = []
    · refine tracks.keep ?_ ?_ old
      · rw [retire_connector, completed, if_pos none]
      · rw [retire_connector, extra, none]
        rfl
    · -- Some connector saves asynchronously, so the blocks are left to it.
      obtain rfl : outcome = .delayed := delays.mpr (answer.mpr none)
      rw [if_neg none] at completed
      have live := ends.live fresh
      have new : req.requestId ∉ (base ++ s.connector.completed).map Prod.fst := by
        intro present
        obtain ⟨entry, member, same⟩ := mem_map.mp present
        obtain ⟨r', awaits⟩ := tracks.waits entry member
        have here : r' = r := distinct r' r awaits.known (inv.known _ r ends.known)
          (by rw [awaits.own, same, own])
        rw [here] at awaits
        rw [awaits.finished] at live
        cases live
      have newBase : req.requestId ∉ base.map Prod.fst := fun present =>
        new (by rw [map_append]; exact mem_append_left _ present)
      have newCompleted : req.requestId ∉ s.connector.completed.map Prod.fst := fun present =>
        new (by rw [map_append]; exact mem_append_right _ present)
      have grew : base ++ b.connector.completed =
          base ++ s.connector.completed ++ [(req.requestId, savers)] := by
        rw [completed, append_assoc]
      refine ⟨?_, ?_, ?_, tracks.unfreed, ?_⟩
      · show ((base ++ b.connector.completed).map Prod.fst).Nodup
        rw [grew, map_append]
        refine nodup_append.mpr ⟨tracks.ids, by simp, ?_⟩
        rintro id there _ single rfl
        rw [map_singleton, mem_singleton] at single
        rw [single] at there
        exact new there
      · show ∀ entry ∈ base ++ b.connector.completed, entry.2 ≠ [] ∧ entry.2.Nodup
        rw [grew]
        intro entry member
        rcases mem_append.mp member with before | single
        · exact tracks.savers entry before
        · cases mem_singleton.mp single
          exact ⟨none, nodup⟩
      · show ∀ entry ∈ base ++ b.connector.completed, ∃ r', Awaits _ r' entry.1 (freed entry.1)
        rw [grew]
        intro entry member
        rcases mem_append.mp member with before | single
        · obtain ⟨r', awaits⟩ := tracks.waits entry before
          exact ⟨r', old awaits⟩
        · cases mem_singleton.mp single
          refine ⟨r, ?_⟩
          rw [tracks.unfreed _ newBase]
          show Awaits _ r req.requestId 0
          rw [own]
          exact Awaits.delayed inv ends live
      · exact tracks.counted.complete none newCompleted extra completed
  | _ => exact tracks.keep rfl rfl old

/-- The changes of an operation between steps. -/
theorem moves (inv : QueueInv s)
    (link : Link s) (distinct : DistinctIds s) (tracks : Tracks s base freed) (fresh : scope.fresh)
    (unsent : ∀ r, ¬ scope.sent r) (quiet : ¬ scope.step) (steps : Moves cfg scope s s') :
    QueueInv s' ∧ Tracks s' base freed := by
  -- The queues, the link and the ids are carried along.
  have all : QueueInv s' ∧ Link s' ∧ DistinctIds s' ∧ Tracks s' base freed := by
    induction steps with
    | refl => exact ⟨inv, link, distinct, tracks⟩
    | tail _ last ih =>
      obtain ⟨inv, link, distinct, tracks⟩ := ih
      exact ⟨inv.change (.move last), link.move inv last, distinct.change (.move last),
        tracks.move connected inv link distinct fresh unsent quiet last⟩
  exact ⟨all.1, all.2.2.2⟩

omit [DecidableEq H] connected in
/-- A new request under an id that was never used. -/
theorem addRequest {req : EngineCoreRequest} (tracks : Tracks s base freed)
    (unused : ∀ r < s.nextRef, (s.objs r).requestId ≠ req.requestId)
    (done : s.addRequest cfg req = .ok s') : Tracks s' base freed := by
  have connector : s'.connector = s.connector := by
    obtain ⟨_, _, _, _, rfl⟩ := addRequest_spec done
    rfl
  refine tracks.keep (by rw [connector]) (by rw [connector]) fun {r id} awaits => ?_
  refine awaits.addRequest ?_ done
  rintro rfl
  exact unused r awaits.known awaits.own

/-- A step takes the completions so far into its metadata. -/
theorem schedule (inv : QueueInv s) (link : Link s) (tracks : Tracks s base freed) {env : ScheduleEnv}
    {out : SchedulerOutput (MultiKVConnectorMetadata M)}
    (done : s.schedule cfg env = .ok (out, s')) :
    ∃ metadata, out.kvConnectorMetadata = some metadata ∧
      metadata.completed = s.connector.completed ∧ metadata.Counted ∧
      Tracks s' (base ++ s.connector.completed) freed := by
  -- The questions in the loops leave the completions and their counts alone.
  obtain ⟨c, out₀, metadata, ⟨completed, extra⟩, built, attached⟩ :=
    schedule_connector
      (P := fun c : MultiConnector C => c.completed = s.connector.completed ∧
        c.extraAsyncSaves = s.connector.extraAsyncSaves)
      connected (fun c req n same => same) (fun c req blocks n same => same) ⟨rfl, rfl⟩ done
  obtain ⟨parts, _, eq⟩ := bind_eq_ok.mp built
  simp only [Except.ok.injEq, Prod.mk.injEq] at eq
  obtain ⟨rfl, connector⟩ := eq
  have emptied : s'.connector.completed = [] := by rw [← connector]
  have steps := schedule_changes inv done
  refine ⟨_, attached, completed, ?_, ?_, ?_, ?_, ?_, ?_⟩
  · intro id
    show (Option.getD (if c.extraAsyncSaves.keys = [] then none else some c.extraAsyncSaves)
      .empty).get? id = MultiConnectorWorker.extraFor (remaining (savesOf c.completed) id)
    rw [completed, ← tracks.counted id, extra]
    split
    · rename_i empty
      have absent : s.connector.extraAsyncSaves.get? id = none := by
        rw [PyDict.get?_eq_none_iff, empty]
        exact not_mem_nil
      rw [absent]
      rfl
    · rfl
  · rw [emptied, append_nil]
    exact tracks.ids
  · rw [emptied, append_nil]
    exact tracks.savers
  · rw [emptied, append_nil]
    intro entry member
    obtain ⟨r, awaits⟩ := tracks.waits entry member
    exact ⟨r, awaits.changes inv link trivial (fun listed => listed) steps⟩
  · intro id absent
    refine tracks.unfreed id fun present => absent ?_
    rw [map_append]
    exact mem_append_left _ present
  · intro id
    rw [emptied, ← connector]
    rfl

omit [DecidableEq H] in
/-- The finished transfers of a step: each of their requests is released once. -/
theorem sent (inv : QueueInv s) (tracks : Tracks s base freed) (nodup : out.finishedSending.Nodup)
    (pending : ∀ id ∈ out.finishedSending, freed id = 0 ∧ id ∈ base.map Prod.fst) :
    ∃ s', s.updateFromKvXferFinished cfg out = .ok s' ∧
      Tracks s' base (fun id => freed id + out.finishedSending.count id) := by
  -- The connector hears of the transfers first.
  let told : Scheduler H (MultiConnector C) := { s with
    connector := MultiConnector.updateConnectorOutput subs s.connector out
    finishedRecvingKvReqIds := out.finishedRecving.foldl addId s.finishedRecvingKvReqIds }
  have split : s.updateFromKvXferFinished cfg out = freeSent out.finishedSending told := by
    simp only [updateFromKvXferFinished, connected]
    rfl
  have inv' : QueueInv told := inv.book { s.bookkeeping with
    connector := MultiConnector.updateConnectorOutput subs s.connector out
    finishedRecvingKvReqIds :=
      out.finishedRecving.foldl addId s.finishedRecvingKvReqIds } []
  have tracks' : Tracks told base freed := tracks.keep rfl rfl fun awaits =>
    awaits.keep le_rfl rfl rfl (fun _ h => .inl h) (fun h => h) [] rfl (by simp)
  obtain ⟨s', done⟩ := freeSent_ok inv' nodup (by
    intro id member
    obtain ⟨zero, listed⟩ := pending id member
    obtain ⟨entry, present, rfl⟩ := mem_map.mp listed
    obtain ⟨r, awaits⟩ := tracks'.waits entry (mem_append_left _ present)
    exact ⟨r, awaits.kept zero, awaits.finished⟩)
  have connector : s'.connector = told.connector := freeSent_connector done
  refine ⟨s', split.trans done, ?_, ?_, ?_, ?_, ?_⟩
  · rw [connector]
    exact tracks'.ids
  · rw [connector]
    exact tracks'.savers
  · rw [connector]
    intro entry member
    obtain ⟨r, awaits⟩ := tracks'.waits entry member
    exact ⟨r, awaits.freeSent inv' nodup (fun listed => (pending _ listed).1) done⟩
  · intro id absent
    have unlisted : id ∉ out.finishedSending := fun listed => absent (pending id listed).2
    rw [count_eq_zero_of_not_mem unlisted, tracks.unfreed id absent]
  · rw [connector]
    exact tracks'.counted

end Tracks

end Tracking

namespace SendSystem

/-- Requests get unused ids, and no operation names a finished request that the scheduler still keeps. -/
def Orderly (j : SendSystem H C M) : SendOp → Prop
  | .call op => j.engine.NewIds op ∧ j.engine.NamesUnfinished op
  | .update clock model => j.engine.NamesUnfinished (.updateFromOutput clock model)
  | .execute _ => True

instance (j : SendSystem H C M) (op : SendOp) : Decidable (j.Orderly op) :=
  match op with
  | .call op => inferInstanceAs (Decidable (j.engine.NewIds op ∧ j.engine.NamesUnfinished op))
  | .update clock model =>
    inferInstanceAs (Decidable (j.engine.NamesUnfinished (.updateFromOutput clock model)))
  | .execute _ => inferInstanceAs (Decidable True)

/-- The completions whose metadata is on its way to the workers. -/
def inFlight (j : SendSystem H C M) : List (RequestId × List Nat) :=
  j.engine.scheduled.flatMap fun batch => (batch.kvConnectorMetadata.map (·.completed)).getD []

/-- The finished requests that some connectors save asynchronously, with these connectors. -/
def completions (j : SendSystem H C M) : List (RequestId × List Nat) :=
  j.bound ++ j.inFlight ++ j.engine.sched.connector.completed

/-- In how many steps some aggregated reports have a request as sent. -/
def timesSent (outputs : List KVConnectorOutput) (id : RequestId) : Nat :=
  outputs.countP fun out => id ∈ out.finishedSending

/-- Every worker has bound the completion of a request and has the reports of all its savers. -/
def Settled (j : SendSystem H C M) (id : RequestId) : Prop :=
  id ∈ j.bound.map Prod.fst ∧ ∀ w ∈ j.workers, remaining w.owed id = 0

instance (j : SendSystem H C M) (id : RequestId) : Decidable (j.Settled id) :=
  inferInstanceAs (Decidable (_ ∧ _))

/-- The number of workers that have all reports for a request. -/
def settledWorkers (j : SendSystem H C M) (id : RequestId) : Nat :=
  if id ∈ j.bound.map Prod.fst then j.workers.countP (SendWorker.settled id) else 0

/-- What holds of the completions, the workers, the aggregator and the scheduler together. -/
structure Inv (worldSize : Nat) (j : SendSystem H C M) : Prop where
  tracks : Tracks j.engine.sched (j.bound ++ j.inFlight) (timesSent j.applied)
  metadata : ∀ batch ∈ j.engine.scheduled, ∃ metadata,
    batch.kvConnectorMetadata = some metadata ∧ metadata.Counted
  counted : ∀ w ∈ j.workers, w.Counted
  nodup : ∀ w ∈ j.workers, w.owed.Nodup
  owed : ∀ w ∈ j.workers, ∀ save ∈ w.owed, save.1 ∈ j.bound.map Prod.fst
  size : j.workers.length = worldSize
  world : j.aggregator.worldSize = worldSize
  counts : ∀ id, j.aggregator.sendRemainingCount.get? id =
    KVOutputAggregator.remainingFor worldSize (j.settledWorkers id)
  once : ∀ id, timesSent (j.applied ++ j.outputs) id =
    if j.settledWorkers id = worldSize then 1 else 0
  sets : ∀ out ∈ j.outputs, out.finishedSending.Nodup

/-- More outputs, more times. -/
theorem timesSent_append (outputs outputs' : List KVConnectorOutput) (id : RequestId) :
    timesSent (outputs ++ outputs') id = timesSent outputs id + timesSent outputs' id :=
  countP_append

/-- One output counts once. -/
theorem timesSent_singleton (out : KVConnectorOutput) (id : RequestId) :
    timesSent [out] id = if id ∈ out.finishedSending then 1 else 0 := by
  unfold timesSent
  rw [countP_singleton]
  simp only [decide_eq_true_eq]

/-- All workers are settled exactly when the request is. -/
theorem settledWorkers_eq_iff (positive : 0 < worldSize)
    (size : j.workers.length = worldSize) (id : RequestId) :
    j.settledWorkers id = worldSize ↔ j.Settled id := by
  unfold settledWorkers Settled
  by_cases bound : id ∈ j.bound.map Prod.fst
  · rw [if_pos bound, ← size, countP_eq_length]
    simp [bound, SendWorker.settled]
  · rw [if_neg bound]
    constructor
    · intro zero
      omega
    · intro both
      exact absurd both.1 bound

namespace Inv

variable {w : SendWorker} {id : RequestId} {reports : List Reports}
  {e : Engine H (MultiConnector C) (MultiKVConnectorMetadata M)} {clock : Ref → PyFloat}
  {model : ModelRunnerOutput}

section

variable (inv : Inv worldSize j)

include inv

/-- Nothing is owed for a request that is not bound. -/
theorem unbound (member : w ∈ j.workers)
    (absent : id ∉ j.bound.map Prod.fst) : remaining w.owed id = 0 := by
  rw [remaining_eq_zero_iff]
  intro present
  obtain ⟨save, owed, rfl⟩ := mem_map.mp present
  exact absent (inv.owed w member save owed)

omit inv in
/-- A fresh system. -/
theorem init (cfg : Config H (MultiConnector C) (MultiKVConnectorMetadata M)) (connectors : List C)
    (positive : 0 < worldSize) :
    Inv worldSize (SendSystem.init cfg connectors worldSize) where
  tracks := {
    ids := nodup_nil
    savers := by intro entry member; cases member
    waits := by intro entry member; cases member
    unfreed := fun _ _ => rfl
    counted := fun _ => rfl }
  metadata := by intro batch member; cases member
  counted := by
    intro w member
    rw [eq_of_mem_replicate member]
    exact fun _ => rfl
  nodup := by
    intro w member
    rw [eq_of_mem_replicate member]
    exact nodup_nil
  owed := by
    intro w member save owed
    rw [eq_of_mem_replicate member] at owed
    cases owed
  size := length_replicate
  world := rfl
  counts id := by
    show none = KVOutputAggregator.remainingFor worldSize 0
    rfl
  once id := by
    show 0 = if 0 = worldSize then 1 else 0
    rw [if_neg (by omega)]
  sets := by intro out member; cases member

/-- The workers execute a step: what they report and what they still owe stay in balance. -/
theorem executeWorkers (right : metadata.Counted)
    (ids : ((j.bound ++ metadata.completed).map Prod.fst).Nodup)
    (savers : ∀ entry ∈ metadata.completed, entry.2 ≠ [] ∧ entry.2.Nodup)
    (length : reports.length = j.workers.length)
    (owes : ∀ item ∈ j.workers.zip reports, (item.1.bind metadata).Owes item.2) :
    ∃ steps : List (KVConnectorOutput × SendWorker),
      (j.workers.zip reports).mapM (fun item => (item.1.bind metadata).report item.2) = .ok steps ∧
      List.Forall₂ (fun w step => w.Reported step.1 step.2) (j.workers.map (·.bind metadata)) steps := by
  rw [map_append, nodup_append] at ids
  obtain ⟨_, newIds, apart⟩ := ids
  -- A worker owes nothing for the completions it is about to bind.
  have new : ∀ w ∈ j.workers, ∀ id ∈ metadata.completed.map Prod.fst, remaining w.owed id = 0 :=
    fun w member id listed => inv.unbound member fun bound => apart id bound id listed rfl
  have each : ∀ item ∈ j.workers.zip reports, ∃ step,
      (item.1.bind metadata).report item.2 = .ok step ∧
      (item.1.bind metadata).Reported step.1 step.2 := by
    intro item member
    have here := (of_mem_zip member).1
    have nodup : (item.1.bind metadata).owed.Nodup := by
      refine nodup_append.mpr ⟨inv.nodup _ here,
        savesOf_nodup newIds fun entry listed => (savers entry listed).2, ?_⟩
      rintro save old _ fresh rfl
      have zero := new _ here save.1 (mem_savesOf_fst (mem_map_of_mem fresh))
      rw [remaining_eq_zero_iff] at zero
      exact zero (mem_map_of_mem old)
    obtain ⟨out, w', done, reported⟩ := SendWorker.report_spec
      (SendWorker.bind_counted (inv.counted _ here) right (new _ here)) nodup (owes item member)
    exact ⟨(out, w'), done, reported⟩
  obtain ⟨steps, ran, all⟩ := mapM_ok each
  refine ⟨steps, ran, ?_⟩
  rw [← map_fst_zip (le_of_eq length.symm), map_map, forall₂_map_left_iff]
  exact all

variable {steps : List (KVConnectorOutput × SendWorker)}

/-- After a step every worker owes saves of bound completions only. -/
theorem owed_bind (member : w ∈ j.workers)
    {save : RequestId × Nat} (owed : save ∈ (w.bind metadata).owed) :
    save.1 ∈ (j.bound ++ metadata.completed).map Prod.fst := by
  rw [map_append]
  rcases mem_append.mp owed with old | new
  · exact mem_append_left _ (inv.owed w member save old)
  · exact mem_append_right _ (mem_savesOf_fst (mem_map_of_mem new))

/-- Binding settles no worker, and collecting the reports settles those that pass the id on. -/
theorem settledWorkers_step (ids : ((j.bound ++ metadata.completed).map Prod.fst).Nodup)
    (savers : ∀ entry ∈ metadata.completed, entry.2 ≠ [])
    (all : List.Forall₂ (fun w step => w.Reported step.1 step.2) (j.workers.map (·.bind metadata)) steps)
    (id : RequestId) :
    (if id ∈ (j.bound ++ metadata.completed).map Prod.fst then
      (steps.map Prod.snd).countP (SendWorker.settled id) else 0) =
      j.settledWorkers id + ((steps.map Prod.fst).flatMap (·.finishedSending)).count id := by
  have counts := SendWorker.settled_count all id
  have either : id ∈ (j.bound ++ metadata.completed).map Prod.fst ↔
      id ∈ j.bound.map Prod.fst ∨ id ∈ metadata.completed.map Prod.fst := by
    rw [map_append, mem_append]
  rw [map_append, nodup_append] at ids
  unfold settledWorkers
  by_cases bound : id ∈ j.bound.map Prod.fst
  · rw [if_pos (either.mpr (.inl bound)), if_pos bound, ← counts, countP_map]
    congr 1
    refine countP_congr fun w member => ?_
    have none : remaining (savesOf metadata.completed) id = 0 := by
      rw [remaining_eq_zero_iff]
      exact fun present => ids.2.2 id bound id (mem_savesOf_fst present) rfl
    have same : remaining (w.bind metadata).owed id = remaining w.owed id := by
      show remaining (w.owed ++ savesOf metadata.completed) id = _
      rw [remaining_append, none, Nat.add_zero]
    simp [SendWorker.settled, same]
  · rw [if_neg bound, Nat.zero_add]
    by_cases new : id ∈ metadata.completed.map Prod.fst
    · rw [if_pos (either.mpr (.inr new)), ← counts, countP_map]
      obtain ⟨entry, listed, rfl⟩ := mem_map.mp new
      have positive : 0 < remaining (savesOf metadata.completed) entry.1 :=
        remaining_savesOf_pos listed (savers entry listed)
      have zero : j.workers.countP (SendWorker.settled entry.1 ∘ (·.bind metadata)) = 0 := by
        rw [countP_eq_zero]
        intro w member
        have more : remaining (w.bind metadata).owed entry.1 = remaining w.owed entry.1 +
          remaining (savesOf metadata.completed) entry.1 := remaining_append
        simp only [Function.comp_apply, SendWorker.settled, decide_eq_true_eq]
        omega
      rw [zero, Nat.zero_add]
    · rw [if_neg (fun present => (either.mp present).elim bound new)]
      symm
      rw [count_eq_zero]
      -- An id that is passed on was owed, so it is bound.
      intro passed
      obtain ⟨out, member, listed⟩ := mem_flatMap.mp passed
      obtain ⟨step, here, rfl⟩ := mem_map.mp member
      obtain ⟨w₁, before, reported⟩ := exists_of_forall₂ all here
      obtain ⟨w, there, rfl⟩ := mem_map.mp before
      have owed := ((reported.sent id).mp listed).1
      obtain ⟨save, present, rfl⟩ := mem_map.mp (count_pos_iff.mp owed)
      exact (either.mp (inv.owed_bind there present)).elim bound new

/-- After a step of the workers, everything is in balance again. -/
theorem executed (ids : ((j.bound ++ metadata.completed).map Prod.fst).Nodup)
    (savers : ∀ entry ∈ metadata.completed, entry.2 ≠ [])
    (all : List.Forall₂ (fun w step => w.Reported step.1 step.2) (j.workers.map (·.bind metadata)) steps)
    (built : j' = { j with
      engine := e
      workers := steps.map Prod.snd
      aggregator := (j.aggregator.aggregate (steps.map Prod.fst)).1
      outputs := j.outputs ++ [(j.aggregator.aggregate (steps.map Prod.fst)).2]
      bound := j.bound ++ metadata.completed })
    (tracks : Tracks e.sched (j'.bound ++ j'.inFlight) (timesSent j.applied))
    (metas : ∀ batch ∈ e.scheduled, ∃ metadata,
      batch.kvConnectorMetadata = some metadata ∧ metadata.Counted) : Inv worldSize j' := by
  subst built
  have total := inv.settledWorkers_step ids savers all
  have size : (steps.map Prod.snd).length = worldSize := by
    rw [length_map, ← all.length_eq, length_map, inv.size]
  -- Every worker after the step comes from one before it.
  have origin : ∀ w' ∈ steps.map Prod.snd, ∃ w ∈ j.workers, ∃ out, (w.bind metadata).Reported out w' := by
    intro w' member
    obtain ⟨step, listed, rfl⟩ := mem_map.mp member
    obtain ⟨w₁, before, reported⟩ := exists_of_forall₂ all listed
    obtain ⟨w, here, rfl⟩ := mem_map.mp before
    exact ⟨w, here, step.1, reported⟩
  have room : ∀ id, j.settledWorkers id +
      ((steps.map Prod.fst).flatMap (·.finishedSending)).count id ≤ worldSize := by
    intro id
    rw [← total id]
    split
    · exact (countP_le_length).trans (le_of_eq size)
    · exact Nat.zero_le _
  obtain ⟨world, counts, sent⟩ :=
    KVOutputAggregator.aggregateLoop_sent (steps.map Prod.fst) j.aggregator ⟨[], []⟩
  rw [inv.world] at world counts sent
  obtain ⟨counts', nodup, members⟩ :=
    KVOutputAggregator.updateFinishedSet_spec inv.counts room nodup_nil
  rw [← sent] at nodup members
  rw [← counts] at counts'
  refine ⟨tracks, metas, ?_, ?_, ?_, size, world, ?_, ?_, ?_⟩
  · intro w' member
    obtain ⟨w, _, out, reported⟩ := origin w' member
    exact reported.counted
  · intro w' member
    obtain ⟨w, _, out, reported⟩ := origin w' member
    exact reported.nodup
  · intro w' member save owed
    obtain ⟨w, here, out, reported⟩ := origin w' member
    exact inv.owed_bind here (reported.sub save owed)
  · intro id
    rw [settledWorkers, total id]
    exact counts' id
  · intro id
    have limit := room id
    rw [settledWorkers, total id]
    show timesSent (j.applied ++ (j.outputs ++ [(KVOutputAggregator.aggregateLoop _ _ _).2])) id = _
    rw [← append_assoc, timesSent_append, inv.once id, timesSent_singleton]
    have passed := members id
    simp only [not_mem_nil, false_or] at passed
    -- The id was passed on before, or it is passed on now, or it is still to come.
    by_cases before : j.settledWorkers id = worldSize
    · have none : ((steps.map Prod.fst).flatMap (·.finishedSending)).count id = 0 := by omega
      rw [if_pos before, if_neg (fun now => by have := (passed.mp now).1; omega), if_pos (by omega)]
    · rw [if_neg before, Nat.zero_add]
      exact if_congr (passed.trans ⟨And.right, fun full => ⟨by omega, full⟩⟩) rfl rfl
  · intro out member
    rcases mem_append.mp member with old | new
    · exact inv.sets out old
    · rw [mem_singleton.mp new]
      exact nodup

/-- What concerns the engine alone. -/
theorem withEngine (tracks : Tracks e.sched (j.bound ++ SendSystem.inFlight { j with engine := e })
      (timesSent j.applied))
    (metas : ∀ batch ∈ e.scheduled, ∃ metadata,
      batch.kvConnectorMetadata = some metadata ∧ metadata.Counted) :
    Inv worldSize { j with engine := e } :=
  ⟨tracks, metas, inv.counted, inv.nodup, inv.owed, inv.size, inv.world, inv.counts, inv.once, inv.sets⟩

end

/-- What the next output reports as sent has not been released, and belongs to a bound completion. -/
theorem pending (positive : 0 < worldSize) (inv : Inv worldSize j)
    {outputs : List KVConnectorOutput} (next : j.outputs = out :: outputs)
    (listed : id ∈ out.finishedSending) :
    timesSent j.applied id = 0 ∧ id ∈ (j.bound ++ j.inFlight).map Prod.fst := by
  have once := inv.once id
  rw [next, ← singleton_append, timesSent_append, timesSent_append, timesSent_singleton,
    if_pos listed] at once
  by_cases full : j.settledWorkers id = worldSize
  · rw [if_pos full] at once
    have bound := ((settledWorkers_eq_iff positive inv.size id).mp full).1
    rw [map_append]
    exact ⟨by omega, mem_append_left _ bound⟩
  · rw [if_neg full] at once
    omega

variable [DecidableEq H]
  (connected : cfg.connector = some (MultiConnector.ops subs))

include connected

/-- Up to its finished transfers, a model output may complete requests and frees none that waits. -/
theorem beforeTransfers (queues : QueueInv j.engine.sched) (link : Link j.engine.sched)
    (distinct : DistinctIds j.engine.sched) (inv : Inv worldSize j)
    {batch : SchedulerOutput (MultiKVConnectorMetadata M)}
    (names : Engine.Unfinished j.engine.sched batch.numScheduledTokens.keys)
    {acc : Scheduler.UpdateAcc}
    (done : j.engine.sched.updateRequests cfg clock batch model = .ok (s, acc)) :
    QueueInv s ∧ Tracks s (j.bound ++ j.inFlight) (timesSent j.applied) := by
  have steps : Moves cfg ⟨j.engine.sched.named batch.numScheduledTokens.keys, fun _ => False, True,
      True, none, False⟩ j.engine.sched s :=
    updateRequests_moves queues (fun r name _ => names.named name) (fun _ => trivial) done
  exact inv.tracks.moves connected queues link distinct trivial (fun _ listed => listed)
    (fun inStep => inStep) steps

/-- Calls from outside keep everything in balance. -/
theorem call (queues : QueueInv j.engine.sched) (link : Link j.engine.sched)
    (distinct : DistinctIds j.engine.sched) (inv : Inv worldSize j) {op : Op}
    (orderly : j.Orderly (.call op)) (done : j.exec cfg (.call op) = .ok j') : Inv worldSize j' := by
  obtain ⟨_, outside, tail⟩ := bind_eq_ok.mp done
  obtain ⟨e, executed, built⟩ := bind_eq_ok.mp tail
  cases built
  rw [require_eq_ok] at outside
  obtain ⟨new, names⟩ := orderly
  cases op with
  | addRequest =>
    obtain ⟨s', added, rfl⟩ := Engine.exec_addRequest executed
    exact inv.withEngine (inv.tracks.addRequest new.2 added) inv.metadata
  | schedule =>
    obtain ⟨out, s', scheduled, rfl⟩ := Engine.exec_schedule executed
    obtain ⟨metadata, attached, completed, right, tracks⟩ :=
      inv.tracks.schedule connected queues link scheduled
    refine inv.withEngine ?_ ?_
    · have flight : SendSystem.inFlight { j with engine := { j.engine with
          sched := s', scheduled := j.engine.scheduled ++ [out] } } =
          j.inFlight ++ j.engine.sched.connector.completed := by
        simp [SendSystem.inFlight, attached, completed]
      rw [flight, ← append_assoc]
      exact tracks
    · intro batch member
      rcases mem_append.mp member with old | last
      · exact inv.metadata batch old
      · rw [mem_singleton.mp last]
        exact ⟨metadata, attached, right⟩
  | finishRequests clock ids =>
    obtain ⟨s', finished, rfl⟩ := Engine.exec_finishRequests executed
    have steps : Moves cfg ⟨j.engine.sched.named ids, fun _ => False, True, False, none, False⟩
        j.engine.sched s' :=
      finishRequests_moves queues (fun r name _ => names.named name) finished
    exact inv.withEngine (inv.tracks.moves connected queues link distinct trivial
      (fun _ listed => listed) (fun inStep => inStep) steps).2 inv.metadata
  | updateDraftTokenIds drafts =>
    cases executed
    have steps : Moves cfg (j.engine.scope (.updateDraftTokenIds drafts)) j.engine.sched _ :=
      updateDraftTokenIds_moves (fun r name live => ⟨name, live⟩) trivial
    exact inv.withEngine (inv.tracks.moves connected queues link distinct trivial
      (fun _ listed => listed) (fun inStep => inStep) steps).2 inv.metadata
  | resetPrefixCache =>
    cases executed
    refine inv.withEngine (inv.tracks.keep rfl rfl fun awaits => ?_) inv.metadata
    exact awaits.keep le_rfl rfl rfl (fun _ h => .inl h) (fun h => h) [] rfl (by simp)
  | execute => cases outside
  | updateFromOutput => cases outside

/-- The workers execute a step without raising, and everything stays in balance. -/
theorem execute (inv : Inv worldSize j) (faithful : j.Faithful (.execute reports))
    (some : j.engine.scheduled ≠ []) :
    ∃ j', j.exec cfg (.execute reports) = .ok j' ∧ Inv worldSize j' := by
  obtain ⟨batch, rest, scheduled⟩ := exists_cons_of_ne_nil some
  obtain ⟨metadata, attached, right⟩ := inv.metadata batch (by rw [scheduled]; simp)
  have flight : j.inFlight = metadata.completed ++ rest.flatMap fun batch =>
      (batch.kvConnectorMetadata.map (·.completed)).getD [] := by
    unfold SendSystem.inFlight
    rw [scheduled, flatMap_cons, attached]
    rfl
  have whole : j.bound ++ j.inFlight = (j.bound ++ metadata.completed) ++ rest.flatMap fun batch =>
      (batch.kvConnectorMetadata.map (·.completed)).getD [] := by
    rw [flight, append_assoc]
  have ids : ((j.bound ++ metadata.completed).map Prod.fst).Nodup := by
    have nodup := inv.tracks.ids
    rw [whole, append_assoc, map_append] at nodup
    exact (nodup_append.mp nodup).1
  have savers : ∀ entry ∈ metadata.completed, entry.2 ≠ [] ∧ entry.2.Nodup := by
    intro entry member
    refine inv.tracks.savers entry ?_
    rw [whole]
    simp [member]
  obtain ⟨length, owes⟩ := faithful
  obtain ⟨steps, ran, all⟩ := inv.executeWorkers right ids savers length
    (owes batch (by rw [scheduled]; rfl) metadata attached)
  let e : Engine H (MultiConnector C) (MultiKVConnectorMetadata M) :=
    { sched := Engine.executeBatch cfg j.engine.sched batch, scheduled := rest,
      executed := j.engine.executed ++ [batch] }
  have executed : j.engine.exec cfg .execute = .ok e := by
    simp only [Engine.exec, scheduled]
    rfl
  let after : SendSystem H C M := { j with
    engine := e
    workers := steps.map Prod.snd
    aggregator := (j.aggregator.aggregate (steps.map Prod.fst)).1
    outputs := j.outputs ++ [(j.aggregator.aggregate (steps.map Prod.fst)).2]
    bound := j.bound ++ metadata.completed }
  have built : after = _ := rfl
  refine ⟨after, ?_, inv.executed ids (fun entry member => (savers entry member).1) all built ?_ ?_⟩
  · simp only [SendSystem.exec, scheduled]
    refine bind_eq_ok.mpr ⟨metadata, orRaise_eq_ok.mpr attached, bind_eq_ok.mpr ⟨e, executed, ?_⟩⟩
    exact bind_eq_ok.mpr ⟨steps, ran, rfl⟩
  · -- The workers change the states of the connectors only.
    have sched : e.sched = { j.engine.sched with
        connector := { j.engine.sched.connector with
          connectors := MultiConnector.executeLoop (subs.zip j.engine.sched.connector.connectors)
            metadata.metadata } } := by
      show Engine.executeBatch cfg j.engine.sched batch = _
      simp only [Engine.executeBatch, connected, attached]
      rfl
    have tracks := inv.tracks
    rw [whole] at tracks
    show Tracks e.sched _ _
    rw [sched]
    exact tracks.keep rfl rfl fun awaits =>
      awaits.keep le_rfl rfl rfl (fun _ h => .inl h) (fun h => h) [] rfl (by simp)
  · intro batch' member
    exact inv.metadata batch' (by rw [scheduled]; exact mem_cons_of_mem _ member)

/-- An output reaches the scheduler: the requests it reports as sent are released, each once. -/
theorem update (positive : 0 < worldSize)
    (queues : QueueInv j.engine.sched) (link : Link j.engine.sched)
    (distinct : DistinctIds j.engine.sched) (inv : Inv worldSize j)
    (orderly : j.Orderly (.update clock model))
    (done : j.exec cfg (.update clock model) = .ok j') : Inv worldSize j' := by
  cases next : j.outputs with
  | nil => simp [SendSystem.exec, next] at done
  | cons out outputs =>
    simp only [SendSystem.exec, next] at done
    obtain ⟨e, executed, built⟩ := bind_eq_ok.mp done
    cases built
    obtain ⟨batch, rest, outs, s', waiting, updated, rfl⟩ := Engine.exec_updateFromOutput executed
    obtain ⟨s₁, acc, s₂, requests, transfers, rfl⟩ := updateFromOutput_parts updated
    have names := orderly batch (by rw [waiting]; rfl)
    obtain ⟨queues₁, tracks₁⟩ := inv.beforeTransfers connected queues link distinct names requests
    have once : out.finishedSending.Nodup := inv.sets out (by rw [next]; simp)
    obtain ⟨s₃, sent, tracks₃⟩ := tracks₁.sent connected queues₁ once
      fun id listed => inv.pending positive next listed
    have same : s₂ = s₃ := Except.ok.inj (transfers.symm.trans sent)
    subst same
    have times : (fun id => timesSent j.applied id + out.finishedSending.count id) =
        timesSent (j.applied ++ [out]) := by
      funext id
      rw [timesSent_append, timesSent_singleton]
      congr 1
      split
      · rename_i listed
        exact count_eq_one_of_mem once listed
      · rename_i absent
        exact count_eq_zero_of_not_mem absent
    rw [times] at tracks₃
    refine ⟨?_, inv.metadata, inv.counted, inv.nodup, inv.owed, inv.size, inv.world, inv.counts, ?_, ?_⟩
    · exact tracks₃.keep rfl rfl fun awaits =>
        awaits.keep le_rfl rfl rfl (fun _ h => .inl h) (fun h => h) [] rfl (by simp)
    · intro id
      have whole := inv.once id
      rw [next] at whole
      show timesSent ((j.applied ++ [out]) ++ outputs) id = _
      rw [append_assoc]
      exact whole
    · intro out' member
      exact inv.sets out' (by rw [next]; exact mem_cons_of_mem _ member)

end Inv

variable [DecidableEq H]
  {connectors : List C}

/-- An orderly operation of the system is one of its engine core. -/
theorem exec_engine {op : SendOp} (orderly : j.Orderly op) (done : j.exec cfg op = .ok j') :
    Engine.Step cfg (fun a op => a.NewIds op ∧ a.NamesUnfinished op) j.engine j'.engine := by
  cases op with
  | call op =>
    obtain ⟨_, _, tail⟩ := bind_eq_ok.mp done
    obtain ⟨e, executed, built⟩ := bind_eq_ok.mp tail
    cases built
    exact ⟨op, orderly, executed⟩
  | execute =>
    cases scheduled : j.engine.scheduled with
    | nil => simp [exec, scheduled] at done
    | cons =>
      simp only [exec, scheduled] at done
      obtain ⟨metadata, _, tail⟩ := bind_eq_ok.mp done
      obtain ⟨e, executed, tail'⟩ := bind_eq_ok.mp tail
      obtain ⟨steps, _, built⟩ := bind_eq_ok.mp tail'
      cases built
      exact ⟨.execute, ⟨trivial, trivial⟩, executed⟩
  | update clock model =>
    cases next : j.outputs with
    | nil => simp [exec, next] at done
    | cons out =>
      simp only [exec, next] at done
      obtain ⟨e, executed, built⟩ := bind_eq_ok.mp done
      cases built
      exact ⟨.updateFromOutput clock { model with kvConnectorOutput := some out }, ⟨trivial, orderly⟩,
        executed⟩

/-- In orderly runs the engine core passes through states with queues, ids and links in order. -/
theorem Reachable.visited
    (reached : Reachable cfg connectors worldSize (fun j op => j.Faithful op ∧ j.Orderly op) j) :
    Engine.Visited cfg (.init connectors) (fun a op => a.NewIds op ∧ a.NamesUnfinished op)
      j.engine.sched := by
  have engine : Engine.Reachable cfg (.init connectors)
      (fun a op => a.NewIds op ∧ a.NamesUnfinished op) j.engine := by
    induction reached with
    | refl => exact .refl
    | tail _ last ih =>
      obtain ⟨op, permitted, done⟩ := last
      exact .tail ih (exec_engine permitted.2 done)
  exact engine.visited

/-- Everything is in balance in every orderly run with faithful connectors. -/
theorem Reachable.inv (connected : cfg.connector = some (MultiConnector.ops subs))
    (positive : 0 < worldSize)
    (reached : Reachable cfg connectors worldSize (fun j op => j.Faithful op ∧ j.Orderly op) j) :
    Inv worldSize j := by
  induction reached with
  | refl => exact Inv.init cfg connectors positive
  | @tail before after steps last ih =>
    obtain ⟨op, ⟨faithful, orderly⟩, done⟩ := last
    have visited := Reachable.visited steps
    have queues := visited.queueInv
    have link := visited.link fun _ _ h => h.1.freshIds
    have distinct := visited.distinctIds fun _ _ h => h.1
    cases op with
    | call => exact ih.call connected queues link distinct orderly done
    | execute =>
      have some : before.engine.scheduled ≠ [] := by
        intro none
        simp [exec, none] at done
      obtain ⟨next, executed, inv⟩ := ih.execute connected faithful some
      cases executed.symm.trans done
      exact inv
    | update => exact ih.update connected positive queues link distinct orderly done

/-- Asynchronous sends are reported once. For every completion, an aggregated output names it in one
step once every worker has the reports of all its savers, and in none before; its blocks went back
as often as the scheduler has seen such an output, and until then the request is kept. The workers
never raise, and neither does the scheduler when it frees what the next output names. -/
theorem sends_reported_once (connected : cfg.connector = some (MultiConnector.ops subs))
    (positive : 0 < worldSize)
    (reached : Reachable cfg connectors worldSize (fun j op => j.Faithful op ∧ j.Orderly op) j) :
    (∀ entry ∈ j.completions,
      timesSent (j.applied ++ j.outputs) entry.1 = (if j.Settled entry.1 then 1 else 0) ∧
      ∃ r, (j.engine.sched.objs r).requestId = entry.1 ∧
        (j.engine.sched.objs r).isFinished = true ∧
        releasesSince r j.engine.sched.history = timesSent j.applied entry.1 ∧
        (timesSent j.applied entry.1 = 0 → j.engine.sched.requests.get? entry.1 = some r)) ∧
    (∀ reports, j.Faithful (.execute reports) → j.engine.scheduled ≠ [] →
      ∃ j', j.exec cfg (.execute reports) = .ok j') ∧
    ∀ out ∈ j.outputs.head?, ∀ batch ∈ j.engine.executed.head?, ∀ clock model s acc,
      j.Orderly (.update clock model) →
      j.engine.sched.updateRequests cfg clock batch { model with kvConnectorOutput := some out } =
        .ok (s, acc) →
      ∃ s', s.updateFromKvXferFinished cfg out = .ok s' := by
  have inv := reached.inv connected positive
  have visited := reached.visited
  refine ⟨fun entry member => ⟨?_, ?_⟩, fun reports faithful some => ?_, ?_⟩
  · rw [inv.once entry.1]
    exact if_congr (settledWorkers_eq_iff positive inv.size entry.1) rfl rfl
  · obtain ⟨r, awaits⟩ := inv.tracks.waits entry member
    exact ⟨r, awaits.own, awaits.finished, awaits.released, awaits.kept⟩
  · obtain ⟨j', done, _⟩ := inv.execute connected faithful some
    exact ⟨j', done⟩
  · intro out next batch first clock model s acc orderly done
    obtain ⟨outputs, outputs_eq⟩ := head?_eq_some_iff.mp next
    obtain ⟨queues, tracks⟩ := inv.beforeTransfers connected visited.queueInv
      (visited.link fun _ _ h => h.1.freshIds) (visited.distinctIds fun _ _ h => h.1)
      (orderly batch first) done
    obtain ⟨s', sent, _⟩ := tracks.sent connected queues
      (inv.sets out (by rw [outputs_eq]; exact mem_cons_self ..))
      fun id listed => inv.pending positive outputs_eq listed
    exact ⟨s', sent⟩

end SendSystem

section SmallSystem

/-- A connector that saves the blocks of requests that end at their length limit. -/
def cappedSaver : ConnectorOps FreeHash Unit Unit where
  getNumNewMatchedTokens := fun c _ _ => ((some 0, false), c)
  updateStateAfterAlloc := fun c _ _ _ => c
  buildConnectorMeta := fun c _ => .ok ((), c)
  requestFinished := fun c req _ => .ok ((decide (req.status = .finishedLengthCapped), none), c)
  updateConnectorOutput := fun c _ => c
  executeStep := fun c _ => c

/-- The small engine with several such connectors. -/
def savingConfig (savers : Nat) :
    Config FreeHash (MultiConnector Unit) (MultiKVConnectorMetadata Unit) :=
  smallConfig.withConnector (MultiConnector.ops (List.replicate savers cappedSaver))

/-- A request of one token ends, and a step with its completion is scheduled. -/
def cappedTurn (worldSize : Nat) : List SendOp :=
  [.call (.addRequest (plainRequest 0 [1, 2, 3] 1)), .call (.schedule (atTime 0)),
    .execute (List.replicate worldSize []), .update (fun _ => .fin 0) (sampledOutput [(0, [7])])]

/-- Two workers with two connectors each report crosswise in two steps. -/
def crosswiseReports : List SendOp :=
  [.call (.schedule (atTime 1)), .execute [[([0], []), ([], [])], [([], []), ([0], [])]],
    .update (fun _ => .fin 1) (sampledOutput []),
    .call (.schedule (atTime 2)), .execute [[([], []), ([0], [])], [([0], []), ([], [])]]]

namespace SendSystem

/-- After the second step the request is reported as sent, once, and still kept. -/
theorem sends_reported_once_crosswise :
    ∃ j : SendSystem FreeHash Unit Unit,
      Reachable (savingConfig 2) [(), ()] 2 (fun j op => j.Faithful op ∧ j.Orderly op) j ∧
      (0, [0, 1]) ∈ j.completions ∧ j.Settled 0 ∧ timesSent (j.applied ++ j.outputs) 0 = 1 ∧
      timesSent j.applied 0 = 0 ∧ ∃ r, j.engine.sched.requests.get? 0 = some r := by
  obtain ⟨j, ran, member, settled, unseen⟩ : ∃ j, (init (savingConfig 2) [(), ()] 2).run (savingConfig 2)
      (fun j op => j.Faithful op ∧ j.Orderly op) (cappedTurn 2 ++ crosswiseReports) = .ok j ∧
      (0, [0, 1]) ∈ j.completions ∧ j.Settled 0 ∧ timesSent j.applied 0 = 0 := by
    decide +kernel
  have reached : Reachable (savingConfig 2) [(), ()] 2 (fun j op => j.Faithful op ∧ j.Orderly op) j :=
    steps_of_run ran
  obtain ⟨once, r, _, _, _, kept⟩ := (sends_reported_once rfl (by decide) reached).1 _ member
  rw [if_pos settled] at once
  exact ⟨j, reached, member, settled, once, unseen, r, kept unseen⟩

/-- Requests get unused ids. -/
def NewIds {H C M : Type} (j : SendSystem H C M) : SendOp → Prop
  | .call op => j.engine.NewIds op
  | _ => True

instance {H C M : Type} (j : SendSystem H C M) (op : SendOp) : Decidable (j.NewIds op) :=
  match op with
  | .call op => inferInstanceAs (Decidable (j.engine.NewIds op))
  | .execute _ | .update _ _ => inferInstanceAs (Decidable True)

/-- A finished request whose blocks are being sent is aborted: the connector is asked again and says
no, the blocks go back while a save is owed, and the report of the save raises. -/
theorem aborted_send_raises :
    ∃ j j' : SendSystem FreeHash Unit Unit,
      Reachable (savingConfig 1) [()] 1 (fun j op => j.Faithful op ∧ j.NewIds op) j ∧
      (0, [0]) ∈ j.completions ∧ ¬ j.Settled 0 ∧ releasesSince 0 j.engine.sched.history = 1 ∧
      timesSent (j.applied ++ j.outputs) 0 = 0 ∧
      Reachable (savingConfig 1) [()] 1 (fun j op => j.Faithful op ∧ j.NewIds op) j' ∧
      j'.exec (savingConfig 1) (.update (fun _ => .fin 1) (sampledOutput [])) =
        .error ⟨.key, .missingRequest⟩ := by
  obtain ⟨j, ran, j', ran', member, owed, freed, unsent, _, raised, rfl⟩ : ∃ j,
      (init (savingConfig 1) [()] 1).run (savingConfig 1) (fun j op => j.Faithful op ∧ j.NewIds op)
        (cappedTurn 1 ++ [.call (.finishRequests (fun _ => .fin 0) [0] .finishedAborted)]) = .ok j ∧
      ∃ j', j.run (savingConfig 1) (fun j op => j.Faithful op ∧ j.NewIds op)
        [.call (.schedule (atTime 1)), .execute [[([0], [])]]] = .ok j' ∧
        (0, [0]) ∈ j.completions ∧ ¬ j.Settled 0 ∧ releasesSince 0 j.engine.sched.history = 1 ∧
        timesSent (j.applied ++ j.outputs) 0 = 0 ∧
        ∃ err, j'.exec (savingConfig 1) (.update (fun _ => .fin 1) (sampledOutput [])) = .error err ∧
          err = ⟨.key, .missingRequest⟩ := by
    decide +kernel
  have reached := steps_of_run ran
  exact ⟨j, j', reached, member, owed, freed, unsent, reached.trans (steps_of_run ran'), raised⟩

end SendSystem

end SmallSystem

end Mimir
