import Mimir.Kv.BlockCount
import Mimir.Sched.Reuse

/-! The frames a call of `schedule` passes through, and what it plans for the requests it starts. -/

namespace Mimir

open Python Scheduler KVCacheManager List

variable {H C M : Type} {cfg : Config H C M} {s s' : Scheduler H C} {env : ScheduleEnv} {r : Ref}

/-- Whether an effect is the start of a request. -/
def Effect.isStart : Effect → Bool
  | .started _ _ _ => true
  | _ => false

/-- The request and the cached tokens of a start. -/
def Effect.start? : Effect → Option (Ref × Int × Int)
  | .started r localTokens externalTokens => some (r, localTokens, externalTokens)
  | _ => none

/-- The requests started since an earlier state, each with its local and external cached tokens. -/
def Scheduler.startsSince {H C : Type} (s' s : Scheduler H C) : List (Ref × Int × Int) :=
  (s'.history.take (s'.history.length - s.history.length)).filterMap Effect.start?

/-- The starts since a state are those among the notes since then. -/
theorem Scheduler.mem_startsSince {notes : List Effect}
    (history : s'.history = notes ++ s.history) {numLocal external : Int} :
    (r, numLocal, external) ∈ s'.startsSince s ↔ .started r numLocal external ∈ notes := by
  unfold startsSince
  rw [history, length_append, Nat.add_sub_cancel, take_left, mem_filterMap]
  constructor
  · rintro ⟨effect, member, eq⟩
    cases effect with
    | started =>
      cases eq
      exact member
    | _ => cases eq
  · intro member
    exact ⟨_, member, rfl⟩

section Expiry

variable [DecidableEq H] {now : PyFloat}

/-- Expiring pins starts no request. -/
theorem expiry_history (moves : Moves cfg (expiryScope now) s s') :
    ∃ notes, s'.history = notes ++ s.history ∧ ∀ e ∈ notes, e.isStart = false := by
  induction moves with
  | refl => exact ⟨[], rfl, by simp⟩
  | tail _ last ih =>
    obtain ⟨notes, eq, quiet⟩ := ih
    obtain ⟨new, step, each⟩ := last.history
    refine ⟨new ++ notes, by rw [step, eq, append_assoc], fun e member => ?_⟩
    rcases mem_append.mp member with here | old
    · rcases each e here with ⟨r, touched, _⟩ | ⟨r, rfl⟩
      · exact touched.elim
      · rfl
    · exact quiet e old

end Expiry

section Steps

variable [DecidableEq H] {f f' : Frame H C}

/-- A request that a step of the loops leaves as it is, with all that is planned for it. -/
structure Frame.Keeps (f f' : Frame H C) (r : Ref) : Prop where
  running : r ∈ f'.sched.running
  object : f'.sched.objs r = f.sched.objs r
  blocks : f'.sched.kvCacheManager.getBlocks (f.sched.objs r).requestId =
    f.sched.kvCacheManager.getBlocks (f.sched.objs r).requestId
  scheduled : f'.plan.numScheduledTokens.get? (f.sched.objs r).requestId =
    f.plan.numScheduledTokens.get? (f.sched.objs r).requestId
  newBlocks : f'.plan.reqToNewBlocks.get? (f.sched.objs r).requestId =
    f.plan.reqToNewBlocks.get? (f.sched.objs r).requestId

omit [DecidableEq H] in
/-- A running request and a waiting one have different ids. -/
theorem Link.apart (link : Link f.flat) (inv : QueueInv f.flat) {x : Ref}
    (runs : x ∈ f.sched.running) (waits : r ∈ f.sched.waiting) :
    x ≠ r ∧ (f.sched.objs x).requestId ≠ (f.sched.objs r).requestId := by
  have waits' : r ∈ f.flat.waiting := mem_append_right _ waits
  have other : x ≠ r := by
    rintro rfl
    exact inv.disjoint waits' runs
  exact ⟨other, fun same => other (link.queued_inj (mem_append_right _ runs)
    (mem_append_left _ waits') same)⟩

/-- How a step of the loops changes the plan, seen from the requests it has started: another one is
started, or all of them stay as they are. -/
inductive LoopStep.Progress (cfg : Config H C M) (f f' : Frame H C) : Prop
  | early (before : f.plan.Early) (after : f'.plan.Early)
      (history : ∃ notes, f'.sched.history = notes ++ f.sched.history ∧ ∀ e ∈ notes, e.isStart = false)
      (connector : f'.sched.connector = f.sched.connector)
  | stay (new : f'.plan.scheduledNewReqs = f.plan.scheduledNewReqs)
      (resumed : f'.plan.scheduledResumedReqs = f.plan.scheduledResumedReqs)
      (history : f'.sched.history = f.sched.history)
      (keeps : ∀ r ∈ f.plan.scheduledNewReqs ++ f.plan.scheduledResumedReqs,
        r ∈ f.sched.running → f.Keeps f' r)
      (connector : f'.sched.connector = f.sched.connector ∨ ∃ r answer,
        r ∈ f.sched.waiting ∧ f.sched.computedTokens cfg r = .ok (answer, f'.sched.connector))
  | start (r : Ref) (computed : Scheduler.Computed) (connector : C) (numNewTokens encoderTokens : Int)
      (newBlocks : List (List BlockId)) (kv : KVCacheManager H)
      (starts : f.sched.Starts cfg r computed connector numNewTokens encoderTokens newBlocks kv)
      (started : (f.granted cfg r computed connector newBlocks kv).Started cfg f' r computed
        numNewTokens)
      (keeps : ∀ x ∈ f.plan.scheduledNewReqs ++ f.plan.scheduledResumedReqs,
        x ∈ f.sched.running → f.Keeps f' x)

/-- Being ready changes the waiting request itself and the counts of its cached blocks. -/
theorem readyToSchedule_keeps {answer : Bool}
    (done : s.readyToSchedule cfg env r = .ok (answer, s')) :
    s'.running = s.running ∧ s'.history = s.history ∧ s'.connector = s.connector ∧
      (∀ x, x ≠ r → s'.objs x = s.objs x) ∧
      ∀ id, s'.kvCacheManager.getBlocks id = s.kvCacheManager.getBlocks id := by
  cases readyToSchedule_readied done with
  | same => exact ⟨rfl, rfl, rfl, fun _ _ => rfl, fun _ => rfl⟩
  | woken =>
    refine ⟨rfl, rfl, rfl, fun x other => ?_, fun _ => rfl⟩
    simp [setStatus, modifyObj, other]
  | loaded blockIds received kv status connected held count cached =>
    refine ⟨rfl, rfl, rfl, fun x other => ?_, cacheBlocks_getBlocks cached⟩
    simp [other]

/-- Every step of the loops starts another request or leaves those started as they are. -/
theorem LoopStep.progress (inv : QueueInv f.flat) (link : Link f.flat)
    (balanced : f.sched.kvCacheManager.Balanced cfg.kv)
    (nodup : ∀ r, (f.sched.objs r).blockHashes.Nodup) (loads : cfg.LoadsInStep)
    (step : LoopStep cfg env f f') : LoopStep.Progress cfg f f' := by
  cases step with
  | minor =>
    exact .stay rfl rfl rfl (fun r _ runs => ⟨runs, rfl, rfl, rfl, rfl⟩) (.inl rfl)
  | consult r answer connector front asked =>
    exact .stay rfl rfl rfl (fun r _ runs => ⟨runs, rfl, rfl, rfl, rfl⟩)
      (.inr ⟨r, answer, mem_of_mem_head? front, asked⟩)
  | allocFail r args kv queued unstarted sized alloc =>
    refine .stay rfl rfl rfl (fun x listed runs => ?_) (.inl rfl)
    rcases unstarted with waits | early
    · obtain ⟨_, aside, _⟩ := allocateSlots_refused balanced alloc
      exact ⟨runs, rfl, getBlocks_eq aside.soles (link.apart inv runs waits).2, rfl, rfl⟩
    · rw [early.1, early.2] at listed
      cases listed
  | preempt f' victim early fifo what =>
    obtain ⟨cache, state⟩ := what.state
    refine .early early ?_ ⟨[.released victim], ?_, by simp [Effect.isStart]⟩ ?_
    · rw [what.plan]
      exact early
    · rw [state]
      rfl
    · rw [state]
  | run r n newBlocks kv drafts planned member early =>
    exact .early early early ⟨[.granted r newBlocks], rfl, by simp [Effect.isStart]⟩ rfl
  | ready r answer s front done =>
    obtain ⟨running, history, connector, objs, blocks⟩ := readyToSchedule_keeps done
    have waits := mem_of_mem_head? front
    refine .stay rfl rfl history (fun x _ runs => ⟨?_, ?_, ?_, rfl, rfl⟩) (.inl connector)
    · show x ∈ s.running
      rw [running]
      exact runs
    · exact objs x (link.apart inv runs waits).1
    · exact blocks _
  | skip f' r aside state =>
    refine .stay ?_ ?_ ?_ (fun x _ runs => ⟨?_, ?_, ?_, ?_, ?_⟩) (.inl ?_)
    all_goals first | rw [state] | rw [aside.plan]
    exact runs
  | start f' r computed connector n encoderTokens newBlocks kv calm starts started =>
    refine .start r computed connector n encoderTokens newBlocks kv starts started ?_
    intro x _ runs
    obtain ⟨other, ids⟩ := link.apart inv runs started.waits
    have granted := starts.granted nodup balanced
    obtain ⟨numCached, state⟩ := started.state
    refine ⟨?_, ?_, ?_, ?_, ?_⟩
    · rw [state]
      exact mem_append_left _ runs
    · rw [state]
      exact Function.update_of_ne other ..
    · rw [state]
      exact getBlocks_eq granted.aside.soles ids
    · rw [started.scheduled]
      exact PyDict.get?_set_ne _ _ ids
    · rw [started.newBlocks]
      exact PyDict.get?_set_ne _ _ ids
  | park f' r computed connector encoderTokens newBlocks kv parks =>
    exact (parks.never loads).elim

end Steps

namespace Engine

variable [DecidableEq H] {connector : C}
  {allowed : Engine H C M → Op → Prop}

/-- The rule of the scheduling loops: what holds of the frame they start with, and is kept by their
steps, holds of the frame from which `schedule` builds its output. -/
theorem Visited.frames {P : Frame H C → Prop} (visited : Visited cfg connector allowed s)
    {a : Engine H C M} (permitted : allowed a (.schedule env))
    {out : SchedulerOutput M} (scheduled : s.schedule cfg env = .ok (out, s'))
    (start : ∀ s₁, Visited cfg connector allowed s₁ →
      Moves cfg (expiryScope env.now) s s₁ → s₁.connector = s.connector →
      P ⟨s₁, initialPlan cfg⟩)
    (step : ∀ f f', Visited cfg connector allowed f.flat → P f → LoopStep cfg env f f' → P f') :
    ∃ f, Visited cfg connector allowed f.flat ∧ P f ∧
      finishSchedule cfg f = .ok (out, s') := by
  obtain ⟨f, looped, finished⟩ := bind_eq_ok.mp scheduled
  obtain ⟨s₁, expired, steps, unpinned⟩ := (scheduleLoops_sat s).post_of_ok looped
  have first : Visited cfg connector allowed s₁ := visited.changes permitted expired.changes
  -- Both facts are carried along the steps, since a step uses the state it starts from.
  have both : Visited cfg connector allowed f.flat ∧ P f := by
    clear looped finished
    induction steps with
    | refl => exact ⟨first, start s₁ first expired (expirePins_untouched unpinned).connector⟩
    | tail _ last ih =>
      refine ⟨?_, step _ _ ih.1 ih.2 last⟩
      rcases last.moves (a.scope (.schedule env)) trivial with move | loop
      · exact ih.1.change permitted (.move move)
      · exact ih.1.change permitted (.loop loop)
  exact ⟨f, both.1, both.2, finished⟩

end Engine

end Mimir
