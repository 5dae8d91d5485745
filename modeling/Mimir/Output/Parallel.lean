import Mathlib.Data.List.Nodup
import Mathlib.Data.List.Perm.Basic
import Mathlib.Tactic.IntervalCases
import Mimir.Python.Except
import Mimir.Output.Detokenizer

/-! Parallel sampling: one parent request, its children, and the output that ends them all. -/

namespace Mimir

open Python List

variable {stats : LoRAStats} {child : Nat} {p : ChildProgress} {update : LoRAStats → Except Err LoRAStats}

variable {P : Type}

/-- The completion of one child, with whatever it holds beside its index. -/
structure ChildCompletion (P : Type) where
  index : Nat
  finished : Bool
  payload : P
  deriving DecidableEq

/-- A `RequestOutput` of the parent; an entry that was never filled is `None`. -/
structure ParentOutput (P : Type) where
  outputs : List (Option (ChildCompletion P))
  finished : Bool
  deriving DecidableEq

/-- `ParentRequest`; a child is named by its index, which its id starts with. -/
structure ParentRequest (P : Type) where
  n : Nat
  outputKind : RequestOutputKind
  /-- The set of children that are submitted and unfinished. -/
  childRequests : List Nat
  outputAggregator : List (Option (ChildCompletion P))

namespace ParentRequest

/-- `ParentRequest.__init__`. -/
def new (n : Nat) (outputKind : RequestOutputKind) : ParentRequest P where
  n
  outputKind
  childRequests := []
  outputAggregator := if outputKind = .finalOnly then List.replicate n none else []

/-- `get_child_info`. -/
def getChildInfo (p : ParentRequest P) (index : Nat) : ParentRequest P :=
  { p with childRequests := if index ∈ p.childRequests then p.childRequests
      else p.childRequests ++ [index] }

/-- A finished child leaves the set of children. -/
def dropFinished (p : ParentRequest P) (child : Nat) (finished : Bool) :
    Except Err (ParentRequest P) :=
  if finished then do
    require (child ∈ p.childRequests) ⟨.key, .childRequests⟩
    pure { p with childRequests := p.childRequests.erase child }
  else pure p

/-- `get_outputs`: the completions to report and whether the parent is finished. -/
def getOutputs (p : ParentRequest P) (child : Nat) (completion : ChildCompletion P) :
    Except Err ((List (Option (ChildCompletion P)) × Bool) × ParentRequest P) := do
  let p ← p.dropFinished child completion.finished
  -- The parent counts as finished when no child is left in a set that may still be filling.
  let finished := p.childRequests.isEmpty
  if p.outputKind ≠ .finalOnly then pure (([some completion], finished), p)
  else do
    require (completion.index < p.outputAggregator.length) ⟨.index, .aggregatorIndex⟩
    let outputAggregator := p.outputAggregator.set completion.index (some completion)
    pure ((if finished then outputAggregator else [], finished), { p with outputAggregator })

/-- `make_request_output` of a child. -/
def makeRequestOutput (p : ParentRequest P) (child : Nat) (payload : P) (finished : Bool) :
    Except Err (Option (ParentOutput P) × ParentRequest P) :=
  if !finished && p.outputKind = .finalOnly then pure (none, p)
  else do
    let ((outputs, parentFinished), p) ← p.getOutputs child ⟨child, finished, payload⟩
    pure (if outputs.isEmpty then none else some ⟨outputs, parentFinished⟩, p)

end ParentRequest

/-- `EngineCoreEventType`: what the scheduler did with a request since its last output. -/
inductive EngineCoreEventType where
  | queued
  | scheduled
  | preempted

/-- `LoRAStats`: the sets of children that wait and that run with the adapter. -/
structure LoRAStats where
  waitingRequests : List Nat
  runningRequests : List Nat
  deriving DecidableEq

namespace LoRAStats

/-- `LoRARequestStates.add_request`. -/
def addRequest (stats : LoRAStats) (child : Nat) : LoRAStats :=
  { stats with waitingRequests := stats.waitingRequests.insert child }

/-- `LoRARequestStates.abort_request`. -/
def abortRequest (stats : LoRAStats) (child : Nat) : LoRAStats :=
  ⟨stats.waitingRequests.filter (· ≠ child), stats.runningRequests.filter (· ≠ child)⟩

/-- `LoRARequestStates.finish_request`, which raises for a child that does not run. -/
def finishRequest (stats : LoRAStats) (child : Nat) : Except Err LoRAStats := do
  require (child ∈ stats.runningRequests) ⟨.key, .loraRunning⟩
  pure { stats with runningRequests := stats.runningRequests.filter (· ≠ child) }

/-- What `IterationStats.update_from_events` does on one event. -/
def updateFromEvent (child : Nat) (stats : LoRAStats) : EngineCoreEventType → Except Err LoRAStats
  | .queued => pure (stats.addRequest child)
  | .scheduled => do
    require (child ∈ stats.waitingRequests) ⟨.key, .loraWaiting⟩
    pure ⟨stats.waitingRequests.filter (· ≠ child), stats.runningRequests.insert child⟩
  | .preempted => do
    require (child ∈ stats.runningRequests) ⟨.key, .loraRunning⟩
    pure ⟨stats.waitingRequests.insert child, stats.runningRequests.filter (· ≠ child)⟩

/-- `IterationStats.update_from_events`. -/
def updateFromEvents (child : Nat) (events : List EngineCoreEventType) (stats : LoRAStats) :
    Except Err LoRAStats :=
  events.foldlM (updateFromEvent child) stats

end LoRAStats

/-- The parent, its part of the `OutputProcessor`, and the loop that submits the children. -/
structure ParallelSampling (P : Type) where
  parent : ParentRequest P
  /-- The children with an entry in `request_states`. -/
  requestStates : List Nat
  /-- Whether the parent has an entry in `parent_requests`. -/
  registered : Bool
  logStats : Bool
  /-- The children's part of `lora_states`, if the request has a LoRA. -/
  loraStats : Option LoRAStats
  /-- How many turns of the loop of `AsyncLLM.add_request` are done. -/
  submitted : Nat
  /-- All outputs put into the parent's collector, oldest first. -/
  queue : List (ParentOutput P)

/-- The order in which Python iterates over a set. -/
structure SetOrder where
  shuffle : List Nat → List Nat
  perm : ∀ set, (shuffle set).Perm set

/-- What can happen while `add_request` is suspended at its await. -/
inductive SamplingEvent (P : Type) where
  /-- The next turn of the loop: `get_child_info` and `OutputProcessor.add_request`. -/
  | submit
  /-- An output of a child reaches `process_outputs`. -/
  | output (child : Nat) (payload : P) (finished : Bool) (events : List EngineCoreEventType)
  /-- `abort_requests` names the parent. -/
  | abort (order : SetOrder) (payload : Nat → P)

namespace ParallelSampling

/-- `ParentRequest` has been made and nothing is submitted. -/
def start (n : Nat) (outputKind : RequestOutputKind) (logStats hasLora : Bool) : ParallelSampling P :=
  ⟨.new n outputKind, [], false, logStats, if hasLora then some ⟨[], []⟩ else none, 0, []⟩

/-- One turn of the loop; after the last one nothing is left to do. -/
def submit (s : ParallelSampling P) : Except Err (ParallelSampling P) :=
  if s.submitted < s.parent.n then do
    let parent := s.parent.getChildInfo s.submitted
    require (s.submitted ∉ s.requestStates) ⟨.value, .duplicateRequest⟩
    -- Every child enters the parent into the table of parents again.
    pure { s with
      parent
      requestStates := s.requestStates ++ [s.submitted]
      loraStats := s.loraStats.map (·.addRequest s.submitted)
      registered := true
      submitted := s.submitted + 1 }
  else pure s

/-- Making an output of a child and putting it into the collector. -/
def emit (s : ParallelSampling P) (child : Nat) (payload : P) (finished : Bool) :
    Except Err (ParallelSampling P) := do
  let (output, parent) ← s.parent.makeRequestOutput child payload finished
  pure { s with parent, queue := s.queue ++ output.toList }

/-- The stats of the adapter are updated only when stats are logged. -/
def updateStats (s : ParallelSampling P) (update : LoRAStats → Except Err LoRAStats) :
    Except Err (ParallelSampling P) :=
  match s.logStats, s.loraStats with
  | true, some stats => do
    let stats ← update stats
    pure { s with loraStats := some stats }
  | _, _ => pure s

/-- `process_outputs` on one output of a child. -/
def processOutput (s : ParallelSampling P) (child : Nat) (payload : P) (finished : Bool)
    (events : List EngineCoreEventType) : Except Err (ParallelSampling P) :=
  -- The output of an aborted child is ignored.
  if child ∉ s.requestStates then pure s
  else do
    let s ← s.updateStats (·.updateFromEvents child events)
    let s ← s.emit child payload finished
    if finished then
      let s := { s with
        requestStates := s.requestStates.erase child
        registered := if s.parent.childRequests.isEmpty then false else s.registered }
      s.updateStats (·.finishRequest child)
    else pure s

/-- `abort_requests` on one child. -/
def abortChild (payload : Nat → P) (s : ParallelSampling P) (child : Nat) :
    Except Err (ParallelSampling P) :=
  if child ∉ s.requestStates then pure s
  else
    let s : ParallelSampling P := { s with
      requestStates := s.requestStates.erase child
      loraStats := s.loraStats.map (·.abortRequest child) }
    s.emit child (payload child) true

/-- `abort_requests` on the parent. -/
def abortParent (order : SetOrder) (payload : Nat → P) (s : ParallelSampling P) :
    Except Err (ParallelSampling P) :=
  if s.registered then do
    let s ← (order.shuffle s.parent.childRequests).foldlM (abortChild payload) s
    pure { s with registered := false }
  else pure s

/-- One event. -/
def step (s : ParallelSampling P) : SamplingEvent P → Except Err (ParallelSampling P)
  | .submit => s.submit
  | .output child payload finished events => s.processOutput child payload finished events
  | .abort order payload => s.abortParent order payload

/-- A sequence of events. -/
def run (s : ParallelSampling P) (events : List (SamplingEvent P)) :
    Except Err (ParallelSampling P) :=
  events.foldlM step s

end ParallelSampling

/-! ### What has happened to the children -/

/-- How many children were submitted, which of them have had an output, and which have finished or were
aborted. -/
@[ext] structure ChildProgress where
  submitted : Nat
  started : Nat → Bool
  ended : Nat → Bool

namespace ChildProgress

/-- The children before the loop. -/
def none : ChildProgress := ⟨0, fun _ => false, fun _ => false⟩

/-- A child that was submitted and has not ended. -/
def Open (p : ChildProgress) (child : Nat) : Prop := child < p.submitted ∧ p.ended child = false

instance decidableOpen (p : ChildProgress) (child : Nat) : Decidable (p.Open child) :=
  inferInstanceAs (Decidable (_ ∧ _))

/-- The children after an output of one of them. -/
def startOne (p : ChildProgress) (child : Nat) : ChildProgress :=
  { p with started := Function.update p.started child true }

/-- The children after one of them has ended. -/
def endOne (p : ChildProgress) (child : Nat) : ChildProgress :=
  { p with ended := Function.update p.ended child true }

/-- The children after one more event. -/
def next (n : Nat) (p : ChildProgress) : SamplingEvent P → ChildProgress
  | .submit => if p.submitted < n then { p with submitted := p.submitted + 1 } else p
  | .output child _ finished _ =>
    if p.Open child then if finished then (p.startOne child).endOne child else p.startOne child else p
  | .abort _ _ => { p with ended := fun child => child < p.submitted || p.ended child }

/-- The children after a sequence of events. -/
def after (n : Nat) (p : ChildProgress) (events : List (SamplingEvent P)) : ChildProgress :=
  events.foldl (next n) p

/-- All children were submitted, and all of them have ended. -/
def Complete (n : Nat) (p : ChildProgress) : Prop := p.submitted = n ∧ ∀ i < n, p.ended i = true

/-- Until the last child is submitted, some submitted child has not ended. -/
def Pending (n : Nat) (p : ChildProgress) : Prop :=
  0 < p.submitted → p.submitted < n → ∃ i < p.submitted, p.ended i = false

/-- Whether the events of an output are those of a child that waits or runs at first and runs at last. -/
def runsAfter : Bool → List EngineCoreEventType → Bool
  | running, [] => running
  | false, .queued :: events => runsAfter false events
  | false, .scheduled :: events => runsAfter true events
  | true, .preempted :: events => runsAfter false events
  | _, _ => false

/-- With a LoRA stats are logged, and an output of a child tells how the child came to run: from waiting at
first, and from running later. -/
def Accounted (logStats hasLora : Bool) (p : ChildProgress) : SamplingEvent P → Prop
  | .output child _ _ events => hasLora = true → p.Open child → logStats = true ∧
    runsAfter (p.started child) events = true
  | _ => True

end ChildProgress

namespace LoRAStats

open ChildProgress

/-- The stats list the children that are left: one without an output waits, and the others run. -/
structure Lists (stats : LoRAStats) (states : List Nat) (started : Nat → Bool) : Prop where
  waiting : ∀ i, i ∈ stats.waitingRequests ↔ i ∈ states ∧ started i = false
  running : ∀ i, i ∈ stats.runningRequests ↔ i ∈ states ∧ started i = true

variable {states : List Nat} {started : Nat → Bool}

/-- A child that is added waits. -/
theorem Lists.addRequest (lists : stats.Lists states started) (unstarted : started child = false) :
    (stats.addRequest child).Lists (states ++ [child]) started := by
  constructor
  · intro i
    simp only [LoRAStats.addRequest, mem_insert_iff, lists.waiting, mem_append, mem_singleton]
    by_cases here : i = child
    · simp [here, unstarted]
    · simp [here]
  · intro i
    simp only [LoRAStats.addRequest, lists.running, mem_append, mem_singleton]
    by_cases here : i = child
    · simp [here, unstarted]
    · simp [here]

/-- An aborted child is in neither set. -/
theorem Lists.abortRequest (lists : stats.Lists states started) (nodup : states.Nodup) :
    (stats.abortRequest child).Lists (states.erase child) started := by
  constructor <;> intro i <;>
    simp only [LoRAStats.abortRequest, mem_filter, lists.waiting, lists.running,
      nodup.mem_erase_iff, decide_eq_true_eq] <;> tauto

/-- The events of an output are accepted, and its child runs after them. -/
theorem Lists.updateFromEvents (events : List EngineCoreEventType) {running : Bool}
    (lists : stats.Lists states (Function.update started child running)) (member : child ∈ states)
    (runs : runsAfter running events = true) :
    ∃ stats', stats.updateFromEvents child events = .ok stats' ∧
      stats'.Lists states (Function.update started child true) := by
  induction events generalizing running stats with
  | nil =>
    cases runs
    exact ⟨stats, rfl, lists⟩
  | cons event rest ih =>
    -- Only three events are those of a child that comes to run; each moves it between the sets.
    obtain ⟨stats₁, running₁, accepted, lists₁, runs₁⟩ : ∃ stats₁ running₁,
        stats.updateFromEvent child event = .ok stats₁ ∧
        stats₁.Lists states (Function.update started child running₁) ∧
        runsAfter running₁ rest = true := by
      match running, event, runs with
      | false, .queued, runs =>
        refine ⟨_, false, rfl, ⟨fun i => ?_, lists.running⟩, runs⟩
        simp only [LoRAStats.addRequest, mem_insert_iff, lists.waiting]
        by_cases here : i = child <;> simp [here, member]
      | false, .scheduled, runs =>
        have listed := (lists.waiting child).mpr ⟨member, by simp⟩
        refine ⟨_, true, by rw [updateFromEvent, require, if_pos listed]; rfl, ⟨fun i => ?_,
          fun i => ?_⟩, runs⟩ <;>
        · by_cases here : i = child <;> simp [lists.waiting, lists.running, here, member]
      | true, .preempted, runs =>
        have listed := (lists.running child).mpr ⟨member, by simp⟩
        refine ⟨_, false, by rw [updateFromEvent, require, if_pos listed]; rfl, ⟨fun i => ?_,
          fun i => ?_⟩, runs⟩ <;>
        · by_cases here : i = child <;> simp [lists.waiting, lists.running, here, member]
    obtain ⟨stats', later, final⟩ := ih lists₁ runs₁
    refine ⟨stats', ?_, final⟩
    rw [LoRAStats.updateFromEvents, foldlM_cons, accepted]
    exact later

/-- A child that runs can finish. -/
theorem Lists.finishRequest (lists : stats.Lists states started) (nodup : states.Nodup)
    (member : child ∈ states) (runs : started child = true) :
    ∃ stats', stats.finishRequest child = .ok stats' ∧ stats'.Lists (states.erase child) started := by
  have listed := (lists.running child).mpr ⟨member, runs⟩
  refine ⟨_, by rw [LoRAStats.finishRequest, require, if_pos listed]; rfl, fun i => ?_, fun i => ?_⟩
  · rw [nodup.mem_erase_iff, lists.waiting]
    by_cases here : i = child
    · simp [here, runs]
    · simp [here]
  · simp only [mem_filter, lists.running, nodup.mem_erase_iff, decide_eq_true_eq]
    tauto

end LoRAStats

namespace ParallelSampling

open ChildProgress (runsAfter)

/-- The one output of `FINAL_ONLY`: a completion of every child, in index order. -/
def AllCompletions (n : Nat) (outputs : List (Option (ChildCompletion P))) : Prop :=
  outputs.length = n ∧ ∀ i < n, ∃ c, outputs[i]? = some (some c) ∧ c.index = i

/-- What the collector got, and what is kept for it, against what has happened to the children. -/
structure Reports (n : Nat) (outputKind : RequestOutputKind) (p : ChildProgress)
    (aggregator : List (Option (ChildCompletion P))) (queue : List (ParentOutput P)) : Prop where
  /-- The parent is unreported exactly until all children have ended. -/
  unreported : ¬ p.Complete n → (∀ o ∈ queue, o.finished = false) ∧ (outputKind = .finalOnly → queue = [])
  reported : p.Complete n → queue.countP (·.finished) = 1 ∧
    (outputKind = .finalOnly → ∃ outputs, queue = [⟨outputs, true⟩] ∧ AllCompletions n outputs)
  aggregated : outputKind = .finalOnly → aggregator.length = n ∧
    ∀ i, p.ended i = true → ∃ c, aggregator[i]? = some (some c) ∧ c.index = i

/-- The state against what has happened to the children, apart from the table of parents. -/
structure Tracks (n : Nat) (outputKind : RequestOutputKind) (log lora : Bool) (p : ChildProgress)
    (s : ParallelSampling P) : Prop extends
    Reports n outputKind p s.parent.outputAggregator s.queue where
  size : s.parent.n = n
  kind : s.parent.outputKind = outputKind
  count : s.submitted = p.submitted
  within : p.submitted ≤ n
  known : ∀ i, p.ended i = true → i < p.submitted
  fresh : ∀ i, p.started i = true → i < p.submitted
  members : ∀ i, i ∈ s.parent.childRequests ↔ i < p.submitted ∧ p.ended i = false
  nodup : s.parent.childRequests.Nodup
  states : s.requestStates = s.parent.childRequests
  logs : s.logStats = log
  adapter : s.loraStats.isSome = lora
  stats : ∀ stats, s.loraStats = some stats → stats.Lists s.requestStates p.started

/-- The whole invariant: the parent is in the table while a child is left. -/
structure Consistent (n : Nat) (outputKind : RequestOutputKind) (log lora : Bool) (p : ChildProgress)
    (s : ParallelSampling P) : Prop extends Tracks n outputKind log lora p s where
  table : s.registered = !s.parent.childRequests.isEmpty

variable {n : Nat} {outputKind : RequestOutputKind} {log lora : Bool}
  {s : ParallelSampling P}

section

variable (tracks : Tracks n outputKind log lora p s)

include tracks

/-- No child is left exactly when every submitted child has ended. -/
theorem Tracks.isEmpty_iff : s.parent.childRequests = [] ↔ ∀ i < p.submitted, p.ended i = true := by
  rw [eq_nil_iff_forall_not_mem]
  constructor
  · intro none i small
    have := none i
    rw [tracks.members] at this
    simpa [small] using this
  · intro all i member
    obtain ⟨small, left⟩ := (tracks.members i).mp member
    rw [all i small] at left
    cases left

/-- A child that is left keeps the parent from being complete. -/
theorem Tracks.not_complete (member : child ∈ s.parent.childRequests) : ¬ p.Complete n := by
  intro complete
  obtain ⟨small, left⟩ := (tracks.members child).mp member
  have bound := tracks.within
  rw [complete.2 child (by omega)] at left
  cases left

/-- The completion of a child in the aggregator, beside those of the children before it. -/
theorem Tracks.aggregate (final : outputKind = .finalOnly)
    (small : child < n) (c : ChildCompletion P) (index : c.index = child) :
    (s.parent.outputAggregator.set child (some c)).length = n ∧
      ∀ i, (p.endOne child).ended i = true →
        ∃ d, (s.parent.outputAggregator.set child (some c))[i]? = some (some d) ∧ d.index = i := by
  obtain ⟨length, filled⟩ := tracks.aggregated final
  refine ⟨by simpa using length, fun i ended => ?_⟩
  by_cases here : i = child
  · subst here
    exact ⟨c, by rw [getElem?_set_self (by omega)], index⟩
  · rw [getElem?_set_ne (Ne.symm here)]
    exact filled i (by simpa [ChildProgress.endOne, here] using ended)

/-- The output of a finished child reports the parent if no child is left. -/
theorem Tracks.reportEnd (member : child ∈ s.parent.childRequests) (payload : P)
    (done : (p.endOne child).Complete n ↔ s.parent.childRequests.erase child = []) :
    ∃ outputAggregator queue, (∀ states stats,
        { s with requestStates := states, loraStats := stats }.emit child payload true =
          .ok { s with
            requestStates := states, loraStats := stats, queue
            parent := { s.parent with
              childRequests := s.parent.childRequests.erase child, outputAggregator } }) ∧
      Reports n outputKind (p.endOne child) outputAggregator queue := by
  have small := ((tracks.members child).mp member).1
  have bound := tracks.within
  obtain ⟨silent, empty⟩ := tracks.unreported (tracks.not_complete member)
  by_cases final : outputKind = .finalOnly
  · -- Only the last completion makes an output, of all completions together.
    have aggregate := tracks.aggregate final (show child < n by omega) ⟨child, true, payload⟩ rfl
    have inside : child < s.parent.outputAggregator.length := by
      rw [(tracks.aggregated final).1]; omega
    have kind : s.parent.outputKind = .finalOnly := tracks.kind.trans final
    refine ⟨s.parent.outputAggregator.set child (some ⟨child, true, payload⟩),
      if s.parent.childRequests.erase child = [] then
        [⟨s.parent.outputAggregator.set child (some ⟨child, true, payload⟩), true⟩] else [], ?_, ?_, ?_,
      fun _ => aggregate⟩
    · intro requestStates loraStats
      simp only [emit, ParentRequest.makeRequestOutput, ParentRequest.getOutputs,
        ParentRequest.dropFinished, kind, member, inside, require, Bool.not_true, Bool.false_and,
        Bool.false_eq_true, if_false, if_true, ne_eq, not_true_eq_false, Bind.bind, Except.bind,
        Pure.pure, Except.pure, empty final, nil_append]
      have some : s.parent.outputAggregator ≠ [] := ne_nil_of_length_pos (by omega)
      by_cases none : s.parent.childRequests.erase child = []
      · simp [none, some]
      · simp [none]
    · intro open_
      rw [done] at open_
      simp [open_]
    · intro complete
      simp only [done.mp complete, if_true]
      refine ⟨rfl, fun _ => ⟨_, rfl, aggregate.1, fun i smallI => ?_⟩⟩
      exact aggregate.2 i (complete.2 i smallI)
  · -- Every completion makes an output, and the last one reports the parent.
    have kind : s.parent.outputKind ≠ .finalOnly := by rw [tracks.kind]; exact final
    refine ⟨s.parent.outputAggregator,
      s.queue ++ [⟨[some ⟨child, true, payload⟩], (s.parent.childRequests.erase child).isEmpty⟩],
      ?_, ?_, ?_, fun equal => absurd equal final⟩
    · intro requestStates loraStats
      simp only [emit, ParentRequest.makeRequestOutput, ParentRequest.getOutputs,
        ParentRequest.dropFinished, kind, member, require, Bool.not_true, Bool.false_and,
        Bool.false_eq_true, if_false, if_true, ne_eq, not_false_eq_true, Bind.bind, Except.bind,
        Pure.pure, Except.pure, isEmpty_cons, Option.toList_some]
    · intro open_
      rw [done] at open_
      refine ⟨fun o inside => ?_, fun equal => absurd equal final⟩
      rcases mem_append.mp inside with before | new
      · exact silent o before
      · rw [mem_singleton.mp new]
        simpa using open_
    · intro complete
      have quiet : s.queue.countP (·.finished) = 0 := by
        rw [countP_eq_zero]
        intro o inside
        simp [silent o inside]
      exact ⟨by simp [quiet, done.mp complete], fun equal => absurd equal final⟩

/-- A finished child leaves the parent, the completions and the collector as its end requires. -/
theorem Tracks.finishChild (member : child ∈ s.parent.childRequests) (payload : P)
    (last : s.parent.childRequests.erase child = [] → p.submitted = n) :
    ∃ parent queue, (∀ states stats,
        { s with requestStates := states, loraStats := stats }.emit child payload true =
          .ok { s with requestStates := states, loraStats := stats, parent, queue }) ∧
      ∀ loraStats, loraStats.isSome = lora → (∀ stats, loraStats = some stats →
          stats.Lists (s.requestStates.erase child) p.started) →
        Tracks n outputKind log lora (p.endOne child)
          { s with requestStates := s.requestStates.erase child, loraStats, parent, queue } := by
  -- The children left are those that have not ended, and the parent is done when none is.
  have members : ∀ i, i ∈ s.parent.childRequests.erase child ↔
      i < p.submitted ∧ (p.endOne child).ended i = false := by
    intro i
    rw [tracks.nodup.mem_erase_iff, tracks.members]
    by_cases here : i = child
    · simp [here, ChildProgress.endOne]
    · simp [here, ChildProgress.endOne]
  have done : (p.endOne child).Complete n ↔ s.parent.childRequests.erase child = [] := by
    rw [eq_nil_iff_forall_not_mem]
    constructor
    · intro complete i inside
      obtain ⟨small, left⟩ := (members i).mp inside
      rw [complete.2 i (Nat.lt_of_lt_of_le small tracks.within)] at left
      cases left
    · intro none
      have all := last (eq_nil_iff_forall_not_mem.mpr none)
      refine ⟨all, fun i small => ?_⟩
      have outside := none i
      rw [members, all] at outside
      simpa [small] using outside
  obtain ⟨outputAggregator, queue, made, reports⟩ := tracks.reportEnd member payload done
  refine ⟨_, queue, made, fun loraStats adapter stats => { tracks with
    toReports := reports, members, adapter, stats, nodup := tracks.nodup.erase child
    states := by rw [tracks.states]
    known := fun i ended => ?_ }⟩
  by_cases here : i = child
  · exact here ▸ ((tracks.members child).mp member).1
  · exact tracks.known i (by simpa [ChildProgress.endOne, here] using ended)

end

section

variable (inv : Consistent n outputKind log lora p s)

include inv

/-- One turn of the loop adds a child that has not ended. -/
theorem Consistent.submit :
    ∃ s', s.submit = .ok s' ∧
      Consistent n outputKind log lora (p.next n (.submit : SamplingEvent P)) s' := by
  unfold ParallelSampling.submit ChildProgress.next
  rw [inv.count, inv.size]
  by_cases more : p.submitted < n
  · have fresh : p.submitted ∉ s.parent.childRequests := by
      rw [inv.members]
      omega
    have unended : p.ended p.submitted = false := by
      rw [← Bool.not_eq_true]
      intro ended
      exact Nat.lt_irrefl _ (inv.known _ ended)
    have freshState : p.submitted ∉ s.requestStates := by rw [inv.states]; exact fresh
    obtain ⟨silent, empty⟩ := inv.unreported fun complete => by
      have := complete.1
      omega
    simp only [more, if_true, require, freshState, not_false_eq_true, Bind.bind, Except.bind,
      Pure.pure, Except.pure, ParentRequest.getChildInfo, fresh, if_false]
    refine ⟨_, rfl, ⟨⟨fun _ => ⟨silent, empty⟩, ?_, inv.aggregated⟩, inv.size, inv.kind, rfl, more, ?_, ?_, ?_,
      ?_, ?_, inv.logs, ?_, ?_⟩, ?_⟩
    · intro complete
      have ended := complete.2 p.submitted more
      rw [unended] at ended
      cases ended
    · intro i ended
      exact Nat.lt_succ_of_lt (inv.known i ended)
    · intro i started
      exact Nat.lt_succ_of_lt (inv.fresh i started)
    · intro i
      simp only [mem_append, mem_singleton, inv.members]
      by_cases here : i = p.submitted
      · subst here; simp [unended]
      · constructor
        · rintro (⟨small, left⟩ | same)
          · exact ⟨by omega, left⟩
          · exact absurd same here
        · rintro ⟨small, left⟩
          exact .inl ⟨by omega, left⟩
    · exact List.Nodup.append inv.nodup (nodup_singleton _) (by simpa using fresh)
    · simp only [inv.states]
    · rw [Option.isSome_map, inv.adapter]
    · intro stats made
      obtain ⟨before, found, rfl⟩ := Option.map_eq_some_iff.mp made
      refine (inv.stats before found).addRequest (Bool.not_eq_true _ ▸ fun started => ?_)
      exact Nat.lt_irrefl _ (inv.fresh _ started)
    · simp
  · simp only [more, if_false]
    exact ⟨s, rfl, inv⟩

/-- An output of an unfinished child leaves the parent unreported. -/
theorem Consistent.emitUnfinished (member : child ∈ s.parent.childRequests) (payload : P) :
    ∃ s', s.emit child payload false = .ok s' ∧ Consistent n outputKind log lora p s' := by
  obtain ⟨silent, empty⟩ := inv.unreported (inv.not_complete member)
  have some : s.parent.childRequests ≠ [] := ne_nil_of_mem member
  by_cases final : outputKind = .finalOnly
  · have kind : s.parent.outputKind = .finalOnly := inv.kind.trans final
    refine ⟨s, ?_, inv⟩
    simp only [emit, ParentRequest.makeRequestOutput, kind, Bool.not_false, decide_true,
      Bool.and_self, if_true, Pure.pure, Except.pure, Bind.bind, Except.bind, Option.toList_none,
      append_nil]
  · have kind : s.parent.outputKind ≠ .finalOnly := by rw [inv.kind]; exact final
    refine ⟨{ s with queue := s.queue ++ [⟨[Option.some ⟨child, false, payload⟩], false⟩] }, ?_, ?_⟩
    · simp [emit, ParentRequest.makeRequestOutput, ParentRequest.getOutputs,
        ParentRequest.dropFinished, kind, some, Pure.pure, Except.pure, Bind.bind, Except.bind]
    · refine { inv with unreported := fun _ => ?_, reported := fun complete => ?_ }
      · refine ⟨fun o inside => ?_, fun equal => absurd equal final⟩
        rcases mem_append.mp inside with before | new
        · exact silent o before
        · rw [mem_singleton.mp new]
      · exact absurd complete (inv.not_complete member)

omit inv in
theorem updateStats_none (found : s.loraStats = none) : s.updateStats update = .ok s := by
  unfold updateStats
  rw [found]
  cases s.logStats <;> rfl

omit inv in
theorem updateStats_some {stats' : LoRAStats}
    (logged : s.logStats = true) (found : s.loraStats = some stats) (done : update stats = .ok stats') :
    s.updateStats update = .ok { s with loraStats := some stats' } := by
  unfold updateStats
  rw [logged, found]
  show (update stats >>= _) = _
  rw [done]
  rfl

/-- The events of an output are accepted, and its child runs after them. -/
theorem Consistent.updateFromEvents (member : child ∈ s.parent.childRequests)
    {events : List EngineCoreEventType}
    (accounted : lora = true → log = true ∧ runsAfter (p.started child) events = true) :
    ∃ loraStats, s.updateStats (·.updateFromEvents child events) = .ok { s with loraStats } ∧
      Consistent n outputKind log lora (p.startOne child) { s with loraStats } := by
  have fresh : ∀ i, (p.startOne child).started i = true → i < p.submitted := by
    intro i started
    by_cases here : i = child
    · exact here ▸ ((inv.members child).mp member).1
    · exact inv.fresh i (by simpa [ChildProgress.startOne, here] using started)
  cases found : s.loraStats with
  | none =>
    refine ⟨s.loraStats, updateStats_none found, { inv with fresh, stats := ?_ }⟩
    intro _ some
    cases found.symm.trans some
  | some stats =>
    have adapter : lora = true := by rw [← inv.adapter, found]; rfl
    obtain ⟨logged, runs⟩ := accounted adapter
    obtain ⟨stats', accepted, lists⟩ := LoRAStats.Lists.updateFromEvents events
      (by rw [Function.update_eq_self]; exact inv.stats stats found) (inv.states ▸ member) runs
    refine ⟨some stats', updateStats_some (inv.logs.trans logged) found accepted,
      { inv with fresh, adapter := adapter.symm, stats := ?_ }⟩
    rintro _ ⟨⟩
    exact lists

omit inv in
/-- A child that runs leaves the stats at its end. -/
theorem Tracks.finishStats (tracks : Tracks n outputKind log lora p s)
    (member : child ∈ s.parent.childRequests) (runs : p.started child = true)
    (logged : lora = true → log = true) :
    ∃ loraStats, loraStats.isSome = lora ∧ (∀ stats, loraStats = some stats →
        stats.Lists (s.requestStates.erase child) p.started) ∧
      ∀ s' : ParallelSampling P, s'.logStats = log → s'.loraStats = s.loraStats →
        s'.updateStats (·.finishRequest child) = .ok { s' with loraStats } := by
  have adapter := tracks.adapter
  cases found : s.loraStats with
  | none =>
    rw [found] at adapter
    refine ⟨none, adapter, fun _ some => (by cases some), fun s' _ same => ?_⟩
    rw [updateStats_none same, ← same]
  | some stats =>
    rw [found] at adapter
    obtain ⟨stats', finished, lists⟩ := (tracks.stats stats found).finishRequest
      (tracks.states ▸ tracks.nodup) (tracks.states ▸ member) runs
    refine ⟨some stats', adapter, fun _ same => (by cases same; exact lists), fun s' logs same => ?_⟩
    exact updateStats_some (logs.trans (logged adapter.symm)) same finished

/-- An output of a child. -/
theorem Consistent.processOutput (child : Nat) (payload : P) (finished : Bool)
    (events : List EngineCoreEventType)
    (pending : (p.next n (.output child payload finished events)).Pending n)
    (accounted : p.Accounted log lora (.output child payload finished events)) :
    ∃ s', s.processOutput child payload finished events = .ok s' ∧
      Consistent n outputKind log lora (p.next n (.output child payload finished events)) s' := by
  unfold ParallelSampling.processOutput
  rw [inv.states]
  by_cases member : child ∈ s.parent.childRequests
  · have isOpen : p.Open child := (inv.members child).mp member
    simp only [ChildProgress.next, isOpen, if_true, member, not_true_eq_false, if_false] at pending ⊢
    have runs := fun adapter => accounted adapter isOpen
    obtain ⟨loraStats, counted, inv₁⟩ := inv.updateFromEvents member runs
    rw [counted]
    cases finished with
    | false =>
      obtain ⟨s', made, inv'⟩ := inv₁.emitUnfinished member payload
      refine ⟨s', ?_, inv'⟩
      show ({ s with loraStats }.emit child payload false >>= _) = _
      rw [made]
      rfl
    | true =>
      -- If no child is left, the condition says that all of them were submitted.
      have last : s.parent.childRequests.erase child = [] → p.submitted = n := by
        intro none
        by_contra notAll
        have bound := inv.within
        obtain ⟨i, smallI, leftI⟩ := pending (Nat.zero_lt_of_lt isOpen.1) (by
          show p.submitted < n
          omega)
        have outside : i ∉ s.parent.childRequests.erase child := by rw [none]; simp
        rw [inv.nodup.mem_erase_iff, inv.members] at outside
        by_cases here : i = child
        · simp [ChildProgress.endOne, here] at leftI
        · exact outside ⟨here, smallI, by simpa [ChildProgress.startOne, ChildProgress.endOne, here]
            using leftI⟩
      obtain ⟨parent, queue, made, tracks⟩ := inv₁.finishChild member payload last
      obtain ⟨loraStats₂, adapter, lists, ended⟩ := inv₁.finishStats member
        (by simp [ChildProgress.startOne]) fun adapter => (runs adapter).1
      refine ⟨{ s with
        requestStates := s.requestStates.erase child, loraStats := loraStats₂, parent, queue,
        registered := if parent.childRequests.isEmpty then false else s.registered }, ?_, ?_⟩
      · have made : { s with loraStats }.emit child payload true = .ok { s with loraStats, parent, queue } :=
          made s.requestStates loraStats
        show ({ s with loraStats }.emit child payload true >>= _) = _
        rw [made]
        exact ended _ inv.logs rfl
      · refine { tracks loraStats₂ adapter lists with table := ?_ }
        have before : s.parent.childRequests.isEmpty = false := by
          simpa using ne_nil_of_mem member
        rw [inv.table, before]
        cases parent.childRequests.isEmpty <;> rfl
  · -- The output of a child that has ended is ignored, and so is its end.
    have closed : ¬ p.Open child := fun isOpen => member ((inv.members child).mpr isOpen)
    simp only [ChildProgress.next, closed, if_false, member, not_false_eq_true, if_true]
    exact ⟨s, rfl, inv⟩

omit inv in
/-- Aborting children one after the other, all of them submitted before. -/
theorem Tracks.abortChildren (payload : Nat → P) (children : List Nat)
    {s : ParallelSampling P} (tracks : Tracks n outputKind log lora p s) (all : p.submitted = n)
    (inside : ∀ child ∈ children, child ∈ s.parent.childRequests) (nodup : children.Nodup) :
    ∃ s', children.foldlM (abortChild payload) s = .ok s' ∧
      Tracks n outputKind log lora (children.foldl ChildProgress.endOne p) s' := by
  induction children generalizing p s with
  | nil => exact ⟨s, rfl, tracks⟩
  | cons child rest ih =>
    rw [nodup_cons] at nodup
    have member := inside child mem_cons_self
    obtain ⟨parent, queue, made, next⟩ :=
      tracks.finishChild member (payload child) fun _ => all
    have next := next (s.loraStats.map (·.abortRequest child))
      (by rw [Option.isSome_map, tracks.adapter]) fun stats aborted => by
        obtain ⟨before, found, rfl⟩ := Option.map_eq_some_iff.mp aborted
        exact (tracks.stats before found).abortRequest (tracks.states ▸ tracks.nodup)
    have left : ∀ other ∈ rest, other ∈ parent.childRequests := by
      intro other later
      have before := (tracks.members other).mp (inside other (mem_cons_of_mem _ later))
      have apart : other ≠ child := fun same => nodup.1 (same ▸ later)
      exact (next.members other).mpr
        ⟨before.1, by simpa [ChildProgress.endOne, apart] using before.2⟩
    obtain ⟨s', ran, final⟩ := ih next all left nodup.2
    refine ⟨s', ?_, final⟩
    have first : abortChild payload s child =
        .ok { s with
          requestStates := s.requestStates.erase child
          loraStats := s.loraStats.map (·.abortRequest child)
          parent, queue } := by
      have known : child ∈ s.requestStates := by rw [tracks.states]; exact member
      simp only [abortChild, known, not_true_eq_false, if_false]
      exact made _ _
    rw [foldlM_cons, first]
    exact ran

omit inv in
/-- Ending a list of children ends exactly those. -/
theorem foldl_endOne (children : List Nat) (p : ChildProgress) :
    (children.foldl ChildProgress.endOne p).submitted = p.submitted ∧
      (children.foldl ChildProgress.endOne p).started = p.started ∧
      ∀ i, (children.foldl ChildProgress.endOne p).ended i = (decide (i ∈ children) || p.ended i) := by
  induction children generalizing p with
  | nil => simp
  | cons child rest ih =>
    obtain ⟨count, started, ended⟩ := ih (p.endOne child)
    refine ⟨count, started, fun i => ?_⟩
    rw [foldl_cons, ended i]
    by_cases here : i = child <;> simp [ChildProgress.endOne, here]

/-- An abort of the parent, once all children were submitted or before any was. -/
theorem Consistent.abortParent (order : SetOrder)
    (payload : Nat → P) (pending : (p.next n (.abort order payload)).Pending n) :
    ∃ s', s.abortParent order payload = .ok s' ∧
      Consistent n outputKind log lora (p.next n (.abort order payload)) s' := by
  unfold ParallelSampling.abortParent
  cases left : s.parent.childRequests with
  | nil =>
    -- No child is left: the abort finds no parent and ends nobody.
    have table := inv.table
    simp only [left, isEmpty_nil, Bool.not_true] at table
    simp only [table, Bool.false_eq_true, if_false]
    refine ⟨s, rfl, ?_⟩
    have same : p.next n (.abort order payload) = p := by
      simp only [ChildProgress.next]
      congr 1
      funext i
      by_cases small : i < p.submitted
      · simp [inv.isEmpty_iff.mp left i small]
      · simp [small]
    rw [same]
    exact inv
  | cons first =>
    have table := inv.table
    simp only [left, isEmpty_cons, Bool.not_false] at table
    simp only [table, if_true, ← left]
    have member : first ∈ s.parent.childRequests := by rw [left]; exact mem_cons_self
    obtain ⟨small, -⟩ := (inv.members first).mp member
    have all : p.submitted = n := by
      by_contra notAll
      have bound := inv.within
      obtain ⟨i, smallI, leftI⟩ := pending (Nat.zero_lt_of_lt small) (by
        show p.submitted < n
        omega)
      have ended : i < p.submitted := smallI
      simp [ChildProgress.next, ended] at leftI
    have shuffled := order.perm s.parent.childRequests
    obtain ⟨s', ran, tracks⟩ := inv.toTracks.abortChildren payload
      (order.shuffle s.parent.childRequests) all (fun child inside => shuffled.mem_iff.mp inside)
      (shuffled.nodup_iff.mpr inv.nodup)
    have same : (order.shuffle s.parent.childRequests).foldl ChildProgress.endOne p =
        p.next n (.abort order payload) := by
      obtain ⟨count, started, ended⟩ := foldl_endOne (order.shuffle s.parent.childRequests) p
      refine ChildProgress.ext (by rw [count]; rfl) (by rw [started]; rfl) (funext fun i => ?_)
      rw [ended i]
      simp only [ChildProgress.next]
      by_cases known : p.ended i = true
      · simp [known]
      · congr 1
        simp only [decide_eq_decide, shuffled.mem_iff, inv.members]
        simpa using fun _ => Bool.not_eq_true _ ▸ known
    rw [same] at tracks
    refine ⟨{ s' with registered := false }, by rw [ran]; rfl, { tracks with table := ?_ }⟩
    have none : s'.parent.childRequests = [] := by
      rw [tracks.isEmpty_iff]
      intro i smallI
      have : i < p.submitted := smallI
      simp [ChildProgress.next, this]
    simp [none]

/-- One event, after which some child is pending or all of them were submitted. -/
theorem Consistent.step (event : SamplingEvent P) (pending : (p.next n event).Pending n)
    (accounted : p.Accounted log lora event) :
    ∃ s', s.step event = .ok s' ∧ Consistent n outputKind log lora (p.next n event) s' := by
  cases event with
  | submit => exact inv.submit
  | output child payload finished events =>
    exact inv.processOutput child payload finished events pending accounted
  | abort order payload => exact inv.abortParent order payload pending

end

/-- A run throughout which some child is pending until all of them were submitted. -/
theorem Consistent.run (events : List (SamplingEvent P))
    {s : ParallelSampling P} (inv : Consistent n outputKind log lora p s)
    (pending : ∀ front rest, events = front ++ rest → (p.after n front).Pending n)
    (accounted : ∀ front event rest, events = front ++ event :: rest →
      (p.after n front).Accounted log lora event) :
    ∃ s', s.run events = .ok s' ∧ Consistent n outputKind log lora (p.after n events) s' := by
  induction events generalizing p s with
  | nil => exact ⟨s, rfl, inv⟩
  | cons event rest ih =>
    obtain ⟨middle, first, inv'⟩ := inv.step event (pending [event] rest rfl)
      (accounted [] event rest rfl)
    obtain ⟨final, later, inv''⟩ := ih inv'
      (fun front behind split => pending (event :: front) behind (by rw [split]; rfl))
      fun front last behind split => accounted (event :: front) last behind (by rw [split]; rfl)
    refine ⟨final, ?_, inv''⟩
    rw [ParallelSampling.run, foldlM_cons, first]
    exact later

/-- Before the loop nothing has happened. -/
theorem Consistent.start (positive : 0 < n) (outputKind : RequestOutputKind) (log lora : Bool) :
    Consistent n outputKind log lora .none (start n outputKind log lora : ParallelSampling P) := by
  have open_ : ¬ ChildProgress.none.Complete n := by
    intro complete
    have zero : 0 = n := complete.1
    omega
  refine ⟨⟨⟨?_, ?_, ?_⟩, rfl, rfl, rfl, Nat.zero_le n, ?_, ?_, ?_, nodup_nil, rfl, rfl, ?_, ?_⟩, rfl⟩
  · intro _
    simp [ParallelSampling.start]
  · intro complete
    exact absurd complete open_
  · rintro rfl
    refine ⟨by simp [ParallelSampling.start, ParentRequest.new], fun i ended => ?_⟩
    cases ended
  · intro i ended
    cases ended
  · intro i started
    cases started
  · intro i
    simp [ParallelSampling.start, ParentRequest.new, ChildProgress.none]
  · cases lora <;> rfl
  · cases lora with
    | false => exact fun _ none => by cases none
    | true =>
      rintro _ ⟨⟩
      exact ⟨fun i => by simp [ParallelSampling.start], fun i => by simp [ParallelSampling.start]⟩

/-- Parallel sampling completes exactly once, if until the last submission some submitted child has not ended,
and with a LoRA the logged outputs tell how their children came to run: the parent is reported exactly when all
children have ended, `FINAL_ONLY` makes one output with all completions, and no state is left. -/
theorem parallel_completes_once (two : 2 ≤ n) (outputKind : RequestOutputKind) (logStats hasLora : Bool)
    (events : List (SamplingEvent P))
    (pending : ∀ front rest, events = front ++ rest → (ChildProgress.none.after n front).Pending n)
    (accounted : ∀ front event rest, events = front ++ event :: rest →
      (ChildProgress.none.after n front).Accounted logStats hasLora event) :
    ∃ s, (start n outputKind logStats hasLora).run events = .ok s ∧
      ((ChildProgress.none.after n events).Complete n →
        s.queue.countP (·.finished) = 1 ∧
        (outputKind = .finalOnly → ∃ outputs, s.queue = [⟨outputs, true⟩] ∧
          AllCompletions n outputs) ∧
        s.requestStates = [] ∧ s.registered = false ∧ s.parent.childRequests = [] ∧
        ∀ stats, s.loraStats = some stats → stats = ⟨[], []⟩) ∧
      (¬ (ChildProgress.none.after n events).Complete n →
        s.queue.countP (·.finished) = 0 ∧ (outputKind = .finalOnly → s.queue = [])) := by
  obtain ⟨s, ran, inv⟩ := (Consistent.start (P := P) (by omega) outputKind logStats hasLora).run events
    pending accounted
  refine ⟨s, ran, fun complete => ?_, fun open_ => ?_⟩
  · obtain ⟨once, final⟩ := inv.reported complete
    have none : s.parent.childRequests = [] := by
      rw [inv.isEmpty_iff, complete.1]
      exact complete.2
    have states : s.requestStates = [] := by rw [inv.states, none]
    refine ⟨once, final, states, by rw [inv.table, none]; rfl, none, fun ⟨waiting, running⟩ found => ?_⟩
    have lists := inv.stats _ found
    rw [states] at lists
    congr
    · exact eq_nil_iff_forall_not_mem.mpr fun i listed => by simpa using (lists.waiting i).mp listed
    · exact eq_nil_iff_forall_not_mem.mpr fun i listed => by simpa using (lists.running i).mp listed
  · obtain ⟨silent, empty⟩ := inv.unreported open_
    refine ⟨?_, empty⟩
    rw [countP_eq_zero]
    intro o inside
    simp [silent o inside]

/-- Two children that finish after both were submitted, one of them preempted on the way. -/
def submittedTogether : List (SamplingEvent Nat) :=
  [.submit, .submit, .output 1 11 true [.queued, .scheduled],
    .output 0 10 true [.queued, .scheduled, .preempted, .scheduled]]

/-- Two children submitted before either finishes are reported in one output, and their adapter is left. -/
theorem parallel_completes_once_submittedTogether :
    ∃ s, (start 2 .finalOnly true true).run submittedTogether = .ok s ∧
      s.queue.countP (·.finished) = 1 ∧
      (∃ outputs, s.queue = [⟨outputs, true⟩] ∧ AllCompletions 2 outputs) ∧
      s.requestStates = [] ∧ s.registered = false ∧
      ∀ stats, s.loraStats = some stats → stats = ⟨[], []⟩ := by
  have cut : ∀ front rest, submittedTogether = front ++ rest →
      front.length ≤ 4 ∧ front = submittedTogether.take front.length ∧
        rest = submittedTogether.drop front.length := by
    intro front rest split
    rw [split]
    have := congrArg List.length split
    simp [submittedTogether] at this
    exact ⟨by omega, by simp, by simp⟩
  have pending : ∀ front rest, submittedTogether = front ++ rest →
      (ChildProgress.none.after 2 front).Pending 2 := by
    intro front rest split
    obtain ⟨short, taken, -⟩ := cut front rest split
    rw [taken]
    generalize front.length = k at short
    intro some few
    refine ⟨0, some, ?_⟩
    interval_cases k
    · rfl
    · rfl
    · rfl
    · rfl
    · exact absurd few (by decide)
  have accounted : ∀ front event rest, submittedTogether = front ++ event :: rest →
      (ChildProgress.none.after 2 front).Accounted true true event := by
    intro front event rest split
    obtain ⟨short, taken, dropped⟩ := cut front (event :: rest) split
    rw [taken]
    generalize front.length = k at short dropped
    interval_cases k <;> cases dropped
    · trivial
    · trivial
    · exact fun _ _ => ⟨rfl, rfl⟩
    · exact fun _ _ => ⟨rfl, rfl⟩
  obtain ⟨s, ran, complete, -⟩ :=
    parallel_completes_once (Nat.le_refl 2) .finalOnly true true submittedTogether pending accounted
  have all : (ChildProgress.none.after 2 submittedTogether).Complete 2 := by
    refine ⟨rfl, fun i small => ?_⟩
    interval_cases i <;> rfl
  obtain ⟨once, final, states, table, -, adapter⟩ := complete all
  exact ⟨s, ran, once, final rfl, states, table, adapter⟩

-- Without stats the children of a LoRA stay among the waiting ones.
example : ((start 2 .finalOnly false true).run submittedTogether).map (·.loraStats) =
    .ok (some ⟨[1, 0], []⟩) := rfl

/-- The first child finishes while the loop waits to submit the second. -/
def finishedEarly : List (SamplingEvent Nat) :=
  [.submit, .output 0 10 true [], .submit, .output 1 11 true []]

/-- A child that finishes before the next is submitted reports the parent with a completion missing, and the
parent is reported again at its end. -/
theorem finishedEarly_reported_twice :
    ((start 2 .finalOnly true false).run finishedEarly).map (·.queue) =
      .ok [⟨[some ⟨0, true, 10⟩, none], true⟩, ⟨[some ⟨0, true, 10⟩, some ⟨1, true, 11⟩], true⟩] :=
  rfl

end ParallelSampling

end Mimir
