import Mimir.Kv.Raises
import Mimir.Sched.Operations

/-! The scheduling loops as sequences of elementary steps on the state and the plan. -/

namespace Mimir

open Python Scheduler List

variable {H C M : Type} {cfg : Config H C M} {env : ScheduleEnv} {s s' : Scheduler H C} {e : Err}
  {f f' : Frame H C} {r : Ref}

/-- The exceptions of a queue are not about saving computed blocks. -/
theorem Unrelated.of_queue (raised : QueueErr e) : Unrelated e := by
  intro site
  rcases raised with eq | eq <;> (rw [site] at eq; cases eq)

theorem Python.Sat.of_queue {α : Type} {x : Except Err α} {Q : α → Prop} (sat : Sat x Q QueueErr) :
    Sat x Q Unrelated := sat.mono (fun _ h => h) fun _ h => .of_queue h

section Steps

variable (cfg) [DecidableEq H]

/-- The arguments of `allocate_slots` for a running request. -/
def runningAllocArgs (numNewTokens : Int) : KVCacheManager.AllocArgs where
  numNewTokens := numNewTokens
  numLookaheadTokens := cfg.numLookaheadTokens

/-- What the connector knows once the slots of a waiting request are allocated. -/
def Config.informed (connector : C) (req : Request H)
    (computed : Scheduler.Computed) (newBlocks : List (List BlockId)) : C :=
  match cfg.connector with
  | none => connector
  | some ops => ops.updateStateAfterAlloc connector req (obtainedBlocks computed newBlocks)
      computed.numExternalComputedTokens

/-- The frame right after the slots of a waiting request are allocated. -/
def Frame.granted (cfg : Config H C M) (f : Frame H C) (r : Ref) (computed : Scheduler.Computed)
    (connector : C) (newBlocks : List (List BlockId)) (kvCacheManager : KVCacheManager H) :
    Frame H C :=
  { f with sched := { f.sched with
      connector := cfg.informed connector (f.sched.objs r) computed newBlocks
      kvCacheManager
      history := .granted r (obtainedBlocks computed newBlocks) :: f.sched.history } }

/-- What is known of a waiting request when its slots are allocated. -/
structure Scheduler.Grants (s : Scheduler H C) (r : Ref)
    (computed : Scheduler.Computed) (connector : C) (numNewTokens encoderTokens : Int)
    (newBlocks : List (List BlockId)) (kv : KVCacheManager H) : Prop where
  asked : s.computedTokens cfg r = .ok (some computed, connector)
  alloc : s.kvCacheManager.allocateSlots cfg.kv (s.objs r)
    (waitingAllocArgs cfg (s.objs r) computed numNewTokens encoderTokens) = .ok (some newBlocks, kv)

/-- A request that can be started at once: nothing is loaded later, and some tokens are left. -/
structure Scheduler.Starts (s : Scheduler H C) (r : Ref)
    (computed : Scheduler.Computed) (connector : C) (numNewTokens encoderTokens : Int)
    (newBlocks : List (List BlockId)) (kv : KVCacheManager H) : Prop extends
    s.Grants cfg r computed connector numNewTokens encoderTokens newBlocks kv where
  sync : computed.loadKvAsync = false
  positive : 0 < numNewTokens
  bound : numNewTokens ≤ (s.objs r).numTokens - computed.numComputedTokens

/-- A request whose blocks are loaded asynchronously; it gets slots and no new tokens. -/
structure Scheduler.Parks (s : Scheduler H C) (r : Ref)
    (computed : Scheduler.Computed) (connector : C) (encoderTokens : Int)
    (newBlocks : List (List BlockId)) (kv : KVCacheManager H) : Prop extends
    s.Grants cfg r computed connector 0 encoderTokens newBlocks kv where
  async : computed.loadKvAsync = true
  external : computed.numExternalComputedTokens > 0

/-- The request at the front of the waiting queue goes to the skipped ones. -/
structure Frame.PutsAside (f f' : Frame H C) (r : Ref) : Prop where
  front : f.sched.waiting.head? = some r
  waiting : f.sched.waiting.Perm (r :: f'.sched.waiting)
  skipped : f'.plan.skippedWaitingRequests.Perm (r :: f.plan.skippedWaitingRequests)
  plan : f'.plan = { f.plan with skippedWaitingRequests := f'.plan.skippedWaitingRequests }
  /-- Queues that are no heaps keep their order. -/
  fifo : cfg.policy ≠ .priority → f.sched.waiting = r :: f'.sched.waiting ∧
    f'.plan.skippedWaitingRequests = r :: f.plan.skippedWaitingRequests

variable {cfg} in
theorem Frame.PutsAside.waits
    (aside : f.PutsAside cfg f' r) : r ∈ f.sched.waiting := mem_of_mem_head? aside.front

/-- What starting the request at the front of the waiting queue does to the state and the plan. -/
structure Frame.Started (f f' : Frame H C) (r : Ref)
    (computed : Scheduler.Computed) (numNewTokens : Int) : Prop where
  front : f.sched.waiting.head? = some r
  waiting : f.sched.waiting.Perm (r :: f'.sched.waiting)
  fifo : cfg.policy ≠ .priority → f.sched.waiting = r :: f'.sched.waiting
  state : ∃ numCachedTokens, f'.sched = { f.sched with
    waiting := f'.sched.waiting
    running := f.sched.running ++ [r]
    objs := Function.update f.sched.objs r { f.sched.objs r with
      status := .running
      numComputedTokens := computed.numComputedTokens
      numCachedTokens }
    history := .started r computed.numNewLocalComputedTokens computed.numExternalComputedTokens ::
      f.sched.history }
  scheduled : f'.plan.numScheduledTokens =
    f.plan.numScheduledTokens.set (f.sched.objs r).requestId numNewTokens
  newBlocks : f'.plan.reqToNewBlocks = f.plan.reqToNewBlocks.set (f.sched.objs r).requestId
    (f.sched.kvCacheManager.getBlocks (f.sched.objs r).requestId)
  /-- A new request is noted as new, a preempted one as resumed. -/
  noted : ((f.sched.objs r).status = .waiting ∧
      f'.plan.scheduledNewReqs = f.plan.scheduledNewReqs ++ [r] ∧
      f'.plan.scheduledResumedReqs = f.plan.scheduledResumedReqs) ∨
    ((f.sched.objs r).status = .preempted ∧
      f'.plan.scheduledNewReqs = f.plan.scheduledNewReqs ∧
      f'.plan.scheduledResumedReqs = f.plan.scheduledResumedReqs ++ [r])
  skipped : f'.plan.skippedWaitingRequests = f.plan.skippedWaitingRequests
  preempted : f'.plan.preemptedReqs = f.plan.preemptedReqs

variable {cfg} in
theorem Frame.Started.waits
    {computed : Scheduler.Computed} {n : Int} (started : f.Started cfg f' r computed n) :
    r ∈ f.sched.waiting := mem_of_mem_head? started.front

/-- What preempting does: the victim leaves the running list for the waiting queue, without blocks. -/
structure Frame.Preempts (f f' : Frame H C) (victim : Ref) : Prop where
  member : victim ∈ f.sched.running
  running : f.sched.running.Perm (victim :: f'.sched.running)
  waiting : f'.sched.waiting.Perm (victim :: f.sched.waiting)
  fifo : cfg.policy ≠ .priority → f.sched.running = f'.sched.running ++ [victim] ∧
    f'.sched.waiting = victim :: f.sched.waiting
  state : ∃ cache, f'.sched = { f.sched with
    running := f'.sched.running
    waiting := f'.sched.waiting
    kvCacheManager := f.sched.kvCacheManager.free (f.sched.objs victim).requestId
    encoderCacheManager := cache
    objs := Function.update f.sched.objs victim
      { f.sched.objs victim with status := .preempted, numComputedTokens := 0 }
    history := .released victim :: f.sched.history }
  plan : f'.plan = { f.plan with
    scheduledRunningReqs := f'.plan.scheduledRunningReqs
    preemptedReqs := f.plan.preemptedReqs ++ [victim] }

/-- What a call of `allocate_slots` asks for: the tokens of a running request that are left in the
step, or a positive number for a waiting one. -/
inductive CallSized (f : Frame H C) (r : Ref) (numNewTokens : Int) : Prop
  | running (member : r ∈ f.sched.running) (nonzero : numNewTokens ≠ 0)
      (least : 0 < numNewTokens ∨ (0 < f.plan.tokenBudget ∧ numNewTokens =
        runningNewTokens cfg (f.sched.objs r) f.plan.tokenBudget))
  | waiting (connector connector' : C) (computed : Scheduler.Computed) (chosen : Int)
      (asked : ({ f.sched with connector }).computedTokens cfg r = .ok (some computed, connector'))
      (total : numNewTokens = chosen + computed.numExternalComputedTokens)
      (some : 0 < chosen ∨ (chosen = 0 ∧ 0 < computed.numExternalComputedTokens))

/-- No waiting request has been started yet. -/
def Plan.Early (plan : Plan) : Prop :=
  plan.scheduledNewReqs = [] ∧ plan.scheduledResumedReqs = []

/-- One elementary step of the scheduling loops. -/
inductive LoopStep (cfg : Config H C M) (env : ScheduleEnv) : Frame H C → Frame H C → Prop
  | minor (f : Frame H C) (cache : EncoderCacheManager) (inputs : PyDict RequestId (List Nat))
      (budget : Int) (index : Nat) (loras : List Int) (forward : f.plan.reqIndex ≤ index) :
      LoopStep cfg env f {
        sched := { f.sched with encoderCacheManager := cache }
        plan := { f.plan with
          scheduledEncoderInputs := inputs
          encoderComputeBudget := budget
          reqIndex := index
          scheduledLoras := loras } }
  | consult (f : Frame H C) (r : Ref) (answer : Option Scheduler.Computed) (connector : C)
      (front : f.sched.waiting.head? = some r)
      (asked : f.sched.computedTokens cfg r = .ok (answer, connector)) :
      LoopStep cfg env f { f with sched := { f.sched with connector } }
  | allocFail (f : Frame H C) (r : Ref) (args : KVCacheManager.AllocArgs) (kv : KVCacheManager H)
      (queued : r ∈ f.sched.waiting ++ f.sched.running)
      (unstarted : r ∈ f.sched.waiting ∨ f.plan.Early)
      (sized : CallSized cfg f r args.numNewTokens)
      (alloc : f.sched.kvCacheManager.allocateSlots cfg.kv (f.sched.objs r) args = .ok (none, kv)) :
      LoopStep cfg env f { f with sched := { f.sched with kvCacheManager := kv } }
  | preempt (f f' : Frame H C) (victim : Ref) (early : f.plan.Early)
      (fifo : cfg.policy ≠ .priority → f.plan.reqIndex < f.sched.running.length)
      (preempts : f.Preempts cfg f' victim)
      (unskipped : f.plan.skippedWaitingRequests = []) : LoopStep cfg env f f'
  | run (f : Frame H C) (r : Ref) (numNewTokens : Int) (newBlocks : List (List BlockId))
      (kv : KVCacheManager H) (specTokenIds : List TokenId)
      (scheduledSpecDecodeTokens : PyDict RequestId (List TokenId)) (member : r ∈ f.sched.running)
      (early : f.plan.Early)
      (fifo : cfg.policy ≠ .priority → f.sched.running[f.plan.reqIndex]? = some r)
      (nonzero : numNewTokens ≠ 0)
      (bound : numNewTokens ≤ runningNewTokens cfg (f.sched.objs r) f.plan.tokenBudget)
      (least : 0 < numNewTokens ∨ (0 < f.plan.tokenBudget ∧ numNewTokens =
        runningNewTokens cfg (f.sched.objs r) f.plan.tokenBudget))
      (trimmed : specTokenIds <+: (f.sched.objs r).specTokenIds)
      (alloc : f.sched.kvCacheManager.allocateSlots cfg.kv (f.sched.objs r)
        (runningAllocArgs cfg numNewTokens) = .ok (some newBlocks, kv)) :
      LoopStep cfg env f {
        sched := { f.sched with
          kvCacheManager := kv
          objs := Function.update f.sched.objs r { f.sched.objs r with specTokenIds }
          history := .granted r newBlocks :: f.sched.history }
        plan := { (commitRunning f r numNewTokens newBlocks).plan with scheduledSpecDecodeTokens } }
  | ready (f : Frame H C) (r : Ref) (answer : Bool) (s : Scheduler H C)
      (front : f.sched.waiting.head? = some r)
      (done : f.sched.readyToSchedule cfg env r = .ok (answer, s)) :
      LoopStep cfg env f { f with sched := s }
  | skip (f f' : Frame H C) (r : Ref) (aside : f.PutsAside cfg f' r)
      (state : f'.sched = { f.sched with waiting := f'.sched.waiting })
      (calm : f.plan.preemptedReqs = []) : LoopStep cfg env f f'
  | start (f f' : Frame H C) (r : Ref) (computed : Scheduler.Computed) (connector : C)
      (numNewTokens encoderTokens : Int) (newBlocks : List (List BlockId)) (kv : KVCacheManager H)
      (calm : f.plan.preemptedReqs = [])
      (starts : f.sched.Starts cfg r computed connector numNewTokens encoderTokens newBlocks kv)
      (started : (f.granted cfg r computed connector newBlocks kv).Started cfg f' r computed
        numNewTokens) : LoopStep cfg env f f'
  | park (f f' : Frame H C) (r : Ref) (computed : Scheduler.Computed) (connector : C)
      (encoderTokens : Int) (newBlocks : List (List BlockId)) (kv : KVCacheManager H)
      (parks : f.sched.Parks cfg r computed connector encoderTokens newBlocks kv)
      (aside : f.PutsAside cfg f' r)
      (state : f'.sched = { (f.granted cfg r computed connector newBlocks kv).sched with
        waiting := f'.sched.waiting
        objs := Function.update f.sched.objs r
          { f.sched.objs r with status := .waitingForRemoteKvs } })
      (calm : f.plan.preemptedReqs = [])
      (arrived : (f.sched.objs r).status ≠ .waitingForRemoteKvs) : LoopStep cfg env f f'

/-- A sequence of elementary steps. -/
abbrev LoopSteps (env : ScheduleEnv) : Frame H C → Frame H C → Prop :=
  Relation.ReflTransGen (LoopStep cfg env)

/-- Allocating slots raises, for a running request or for the one at the front of the waiting. -/
inductive AllocRaises (f : Frame H C) (e : Err) : Prop
  | running (r : Ref) (numNewTokens : Int) (member : r ∈ f.sched.running)
      (raised : f.sched.kvCacheManager.allocateSlots cfg.kv (f.sched.objs r)
        (runningAllocArgs cfg numNewTokens) = .error e)
  | waiting (r : Ref) (computed : Scheduler.Computed) (connector : C)
      (numNewTokens encoderTokens : Int) (front : f.sched.waiting.head? = some r)
      (asked : f.sched.computedTokens cfg r = .ok (some computed, connector))
      (raised : f.sched.kvCacheManager.allocateSlots cfg.kv (f.sched.objs r)
        (waitingAllocArgs cfg (f.sched.objs r) computed numNewTokens encoderTokens) = .error e)

/-- An assertion on saving computed blocks comes from an allocation in a state the loops reach. -/
def Raised (env : ScheduleEnv) (f : Frame H C) (e : Err) : Prop :=
  e.site = .saveNewComputedBlocks → ∃ mid, LoopSteps cfg env f mid ∧ AllocRaises cfg mid e

variable {cfg}

/-- Any other exception needs no explanation. -/
theorem Raised.of_unrelated (other : Unrelated e) : Raised cfg env f e := fun site => absurd site other

theorem Python.Sat.raised {α : Type}
    {x : Except Err α} {Q : α → Prop} (sat : Sat x Q Unrelated) : Sat x Q (Raised cfg env f) :=
  sat.mono (fun _ h => h) fun _ h => .of_unrelated h

/-- What raises later in the loops raises from the start. -/
theorem Raised.after {mid : Frame H C}
    (steps : LoopSteps cfg env f mid) (raised : Raised cfg env mid e) : Raised cfg env f e := by
  intro site
  obtain ⟨last, more, alloc⟩ := raised site
  exact ⟨last, steps.trans more, alloc⟩

end Steps

namespace Scheduler

section Encoder

/-- An exception about encoder inputs. -/
def OfEncoder (e : Err) : Prop := e.site = .encoderStart ∨ e.site = .encoderFreeable

/-- Exceptions about encoder inputs are not about saving computed blocks. -/
theorem OfEncoder.unrelated (about : OfEncoder e) : Unrelated e := by
  rcases about with site | site <;> simp [Unrelated, site]

/-- A lookup in the encoder cache raises only about reclaimable outputs. -/
theorem checkAndUpdateCache_sat (e : EncoderCacheManager) (req : Request H) (mm : MmFeature) :
    Sat (e.checkAndUpdateCache req mm) (fun _ => True) OfEncoder := by
  unfold EncoderCacheManager.checkAndUpdateCache
  split
  · exact Sat.ok trivial
  · refine Sat.bind (Q := fun _ => True) ?_ fun _ _ => Sat.ok trivial
    unfold EncoderCacheManager.reuseFreeable
    split
    · exact Sat.bind (Sat.orRaise fun _ => by simp [OfEncoder]) fun _ _ => Sat.ok trivial
    · exact Sat.ok trivial

/-- Reclaiming encoder outputs raises only about reclaimable outputs. -/
theorem evictUntil_sat (numTokens : Int) (items : List (String × Nat)) (e : EncoderCacheManager) :
    Sat (EncoderCacheManager.evictUntil numTokens items e) (fun _ => True) OfEncoder := by
  induction items generalizing e with
  | nil =>
    unfold EncoderCacheManager.evictUntil
    split
    · exact Sat.error (by simp [OfEncoder])
    · exact Sat.ok trivial
  | cons item rest ih =>
    unfold EncoderCacheManager.evictUntil
    split
    · exact Sat.bind (Sat.require fun _ => by simp [OfEncoder]) fun _ _ => ih _
    · exact Sat.ok trivial

theorem canAllocate_sat (e : EncoderCacheManager) (mm : MmFeature) (budget planned : Int) :
    Sat (e.canAllocate mm budget planned) (fun _ => True) OfEncoder := by
  unfold EncoderCacheManager.canAllocate
  split
  · exact Sat.ok trivial
  · dsimp only
    split
    · exact Sat.ok trivial
    · split
      · exact Sat.ok trivial
      · exact Sat.bind (evictUntil_sat _ _ _) fun _ _ => Sat.ok trivial

/-- The tokens left by the encoder limits: all, none, or a positive part. -/
def Trimmed (wanted got : Int) : Prop := got = wanted ∨ got = 0 ∨ (0 < got ∧ got < wanted)

/-- The encoder limits only trim the tokens of a step. -/
theorem encoderInputsLoop_sat (req : Request H) (numComputed numNew : Int)
    (features : List MmFeature) (i : Nat) (acc : EncoderAcc) :
    Sat (encoderInputsLoop cfg req numComputed numNew features i acc)
      (fun out => Trimmed numNew out.1) OfEncoder := by
  induction features generalizing i acc with
  | nil => exact Sat.ok (.inl rfl)
  | cons mm rest ih =>
    unfold encoderInputsLoop
    split
    · exact Sat.ok (.inl rfl)
    · rename_i overlaps
      split
      · exact Sat.bind (Sat.require fun _ => by simp [OfEncoder]) fun _ _ => ih _ _
      · split
        · exact ih _ _
        · refine Sat.bind (Q := fun _ => True) ?_ ?_
          · unfold encoderOutputPresent
            split
            · exact Sat.ok trivial
            · split
              · exact Sat.ok trivial
              · exact checkAndUpdateCache_sat _ _ _
          · rintro ⟨present, cache⟩ _
            dsimp only
            split
            · exact ih _ _
            · split
              · rename_i unsplit
                exact Sat.ok (.inr (.inr ⟨by omega, by omega⟩))
              · refine Sat.bind (canAllocate_sat _ _ _ _) ?_
                rintro ⟨fits, cache'⟩ _
                dsimp only
                split
                · exact ih _ _
                · refine Sat.ok ?_
                  dsimp only
                  split
                  · exact .inr (.inr ⟨by omega, by omega⟩)
                  · exact .inr (.inl rfl)

/-- Choosing encoder inputs changes the encoder cache and trims the tokens. -/
theorem tryScheduleEncoderInputs_sat (f : Frame H C) (r : Ref) (numComputed numNew : Int) :
    Sat (tryScheduleEncoderInputs cfg f r numComputed numNew)
      (fun out => (∃ cache, out.2 = { f with sched := { f.sched with encoderCacheManager := cache } }) ∧
        Trimmed numNew out.1.numNewTokens) OfEncoder := by
  unfold tryScheduleEncoderInputs
  dsimp only
  split
  · exact Sat.ok ⟨⟨f.sched.encoderCacheManager, rfl⟩, .inl rfl⟩
  · refine Sat.bind (encoderInputsLoop_sat _ _ _ _ _ _) ?_
    rintro ⟨got, acc⟩ trimmed
    exact Sat.ok ⟨⟨acc.cache, rfl⟩, trimmed⟩

/-- Allocating encoder outputs raises only about the encoder cache. -/
theorem allocateEncoderInputs_sat (req : Request H) (inputs : List Nat) (e : EncoderCacheManager) :
    Sat (allocateEncoderInputs req inputs e) (fun _ => True) Unrelated := by
  induction inputs generalizing e with
  | nil => exact Sat.ok trivial
  | cons i rest ih =>
    refine Sat.found (by simp [Unrelated]) fun mm _ => ?_
    refine Sat.bind (Q := fun _ => True) ?_ fun _ _ => ih _
    refine Sat.guarded (by simp [Unrelated]) fun _ => ?_
    exact Sat.guarded (by simp [Unrelated]) fun _ => Sat.ok trivial

variable [DecidableEq H]

/-- The encoder part of scheduling a request is a minor step. -/
theorem commitEncoderInputs_sat (cfg : Config H C M) (env : ScheduleEnv) (f : Frame H C) (r : Ref)
    (choice : EncoderChoice) :
    Sat (commitEncoderInputs f r choice)
      (fun f' => LoopSteps cfg env f f' ∧ (f.plan.Early → f'.plan.Early) ∧
        f'.plan.preemptedReqs = f.plan.preemptedReqs ∧
        f'.plan.skippedWaitingRequests = f.plan.skippedWaitingRequests) Unrelated := by
  unfold commitEncoderInputs
  split
  · exact Sat.ok ⟨.refl, fun early => early, rfl, rfl⟩
  · refine Sat.bind (allocateEncoderInputs_sat _ _ _) fun cache _ =>
      Sat.ok ⟨?_, fun early => early, rfl, rfl⟩
    exact .single (.minor f cache _ _ f.plan.reqIndex f.plan.scheduledLoras (Nat.le_refl _))

end Encoder

section Preemption

/-- Selecting a victim raises only when nobody is running. -/
theorem selectVictim_sat (f : Frame H C) : Sat (selectVictim cfg f) (fun _ => True) Unrelated := by
  unfold selectVictim
  split
  · split
    · exact Sat.error (by simp [Unrelated])
    · exact Sat.ok trivial
  · exact Sat.found (by simp [Unrelated]) fun _ _ => Sat.ok trivial

/-- The maximum is one of the requests compared. -/
theorem maxByPreemptionKey_mem (objs : Ref → Request H) (best : Ref) (rest : List Ref) :
    maxByPreemptionKey objs best rest ∈ best :: rest := by
  induction rest generalizing best with
  | nil => exact mem_singleton.mpr rfl
  | cons r rest ih =>
    unfold maxByPreemptionKey
    rcases mem_cons.mp (ih (if preemptionKeyLt objs best r then r else best)) with first | later
    · rw [first]
      split
      · exact mem_cons_of_mem _ (mem_cons_self ..)
      · exact mem_cons_self ..
    · exact mem_cons_of_mem _ (mem_cons_of_mem _ later)

/-- Preempting does what it should, or raises about an empty list or the heap. -/
theorem preempt_sat (f : Frame H C) :
    Sat (preempt cfg f) (fun out => f.Preempts cfg out.2 out.1) Unrelated := by
  refine Sat.bind (selectVictim_sat f).self ?_
  rintro ⟨victim, running, scheduled⟩ ⟨selected, _⟩
  dsimp only
  refine Sat.bind (queuePrepend_sat _ _ _ _).of_queue fun waiting moved => Sat.ok ?_
  -- Both policies remove the victim from the running list.
  unfold selectVictim at selected
  split at selected
  · rename_i priority
    split at selected
    · cases selected
    · rename_i first rest runs
      cases selected
      have member : maxByPreemptionKey f.sched.objs first rest ∈ f.sched.running := by
        rw [runs]
        exact maxByPreemptionKey_mem f.sched.objs first rest
      exact ⟨member, perm_cons_erase member, moved.1, fun fifo => absurd priority fifo, ⟨_, rfl⟩, rfl⟩
  · rename_i fifo
    obtain ⟨last, found, built⟩ := bind_eq_ok.mp selected
    cases built
    rw [orRaise_eq_ok] at found
    have whole : f.sched.running = f.sched.running.dropLast ++ [victim] :=
      (dropLast_append_getLast? victim found).symm
    refine ⟨?_, ?_, moved.1, fun policy => ⟨whole, moved.2 policy⟩, ⟨_, rfl⟩, rfl⟩
    · rw [whole]
      exact mem_append_right _ (mem_singleton.mpr rfl)
    · exact (List.Perm.of_eq whole).trans (perm_append_singleton victim _)

/-- A running request other than the victim keeps its place and its state. -/
theorem preempts_other {victim : Ref} (done : f.Preempts cfg f' victim)
    (other : victim ≠ r) (member : r ∈ f.sched.running)
    (fifo : cfg.policy ≠ .priority → f.sched.running[f.plan.reqIndex]? = some r) :
    r ∈ f'.sched.running ∧ f'.sched.objs r = f.sched.objs r ∧
      f'.plan.tokenBudget = f.plan.tokenBudget ∧
      (cfg.policy ≠ .priority → f'.sched.running[f'.plan.reqIndex]? = some r) := by
  have index : f'.plan.reqIndex = f.plan.reqIndex := by rw [done.plan]
  refine ⟨?_, ?_, by rw [done.plan], fun policy => ?_⟩
  · exact (mem_cons.mp (done.running.mem_iff.mp member)).resolve_left (Ne.symm other)
  · obtain ⟨cache, eq⟩ := done.state
    rw [eq]
    simp [Ne.symm other]
  · have found := fifo policy
    rw [index]
    rw [(done.fifo policy).1, getElem?_append] at found
    split at found
    · exact found
    · -- Only the victim itself stands behind the remaining list.
      have last := mem_of_getElem? found
      exact absurd (mem_singleton.mp last).symm other

end Preemption

section Running

variable [DecidableEq H]

/-- Allocating for a running request: preemptions, then slots or the request's own preemption. -/
theorem allocateOrPreempt_sat (r : Ref) (n : Int) (turns : Nat) (f : Frame H C)
    (early : f.plan.Early) (unskipped : f.plan.skippedWaitingRequests = [])
    (member : r ∈ f.sched.running) (nonzero : n ≠ 0)
    (least : 0 < n ∨ (0 < f.plan.tokenBudget ∧
      n = runningNewTokens cfg (f.sched.objs r) f.plan.tokenBudget))
    (fifo : cfg.policy ≠ .priority → f.sched.running[f.plan.reqIndex]? = some r) :
    Sat (allocateOrPreempt cfg r n turns f)
      (fun out => match out.1 with
        | none => LoopSteps cfg env f out.2 ∧ out.2.plan.Early ∧ out.2.plan.skippedWaitingRequests = []
        | some newBlocks => ∃ mid kv, LoopSteps cfg env f mid ∧
            mid.sched.kvCacheManager.allocateSlots cfg.kv (mid.sched.objs r)
              (runningAllocArgs cfg n) = .ok (some newBlocks, kv) ∧
            out.2 = { mid with sched := { mid.sched with kvCacheManager := kv } } ∧
            (mid.plan.Early ∧ mid.plan.skippedWaitingRequests = []) ∧ r ∈ mid.sched.running ∧
            mid.sched.objs r = f.sched.objs r ∧
            mid.plan.tokenBudget = f.plan.tokenBudget ∧
            (cfg.policy ≠ .priority → mid.sched.running[mid.plan.reqIndex]? = some r))
      (Raised cfg env f) := by
  induction turns generalizing f with
  | zero => exact Sat.error (.of_unrelated (by simp [Unrelated]))
  | succ turns ih =>
    have alloc : Sat (f.sched.kvCacheManager.allocateSlots cfg.kv (f.sched.objs r)
        (runningAllocArgs cfg n)) (fun out => f.sched.kvCacheManager.allocateSlots cfg.kv
          (f.sched.objs r) (runningAllocArgs cfg n) = .ok out) (Raised cfg env f) :=
      Sat.intro (fun _ eq => eq)
        fun e raised _ => ⟨f, .refl, .running r n member raised⟩
    refine Sat.bind alloc ?_
    rintro ⟨newBlocks, kv⟩ allocated
    cases newBlocks with
    | some =>
      exact Sat.ok ⟨f, kv, .refl, allocated, rfl, ⟨early, unskipped⟩, member, rfl, rfl, fifo⟩
    | none =>
      dsimp only
      set f₁ : Frame H C := { f with sched := { f.sched with kvCacheManager := kv } } with f₁_def
      have failed : LoopStep cfg env f f₁ :=
        .allocFail f r (runningAllocArgs cfg n) kv (mem_append_right _ member) (.inr early)
          (.running member nonzero least) allocated
      refine Sat.bind (preempt_sat f₁).raised ?_
      rintro ⟨victim, f₂⟩ what
      have within : cfg.policy ≠ .priority → f₁.plan.reqIndex < f₁.sched.running.length :=
        fun policy => (List.getElem?_eq_some_iff.mp (fifo policy)).1
      have steps : LoopSteps cfg env f f₂ :=
        (Relation.ReflTransGen.single failed).tail (.preempt f₁ f₂ victim early within what unskipped)
      have early₂ : f₂.plan.Early := by
        unfold Plan.Early
        rw [what.plan]
        exact early
      have unskipped₂ : f₂.plan.skippedWaitingRequests = [] := by
        rw [what.plan]
        exact unskipped
      dsimp only
      split
      · exact Sat.ok ⟨steps, early₂, unskipped₂⟩
      · rename_i other
        obtain ⟨member₂, same, budget, fifo₂⟩ := preempts_other what other member fifo
        have least₂ : 0 < n ∨ (0 < f₂.plan.tokenBudget ∧
            n = runningNewTokens cfg (f₂.sched.objs r) f₂.plan.tokenBudget) := by
          rw [same, budget]
          exact least
        refine (ih f₂ early₂ unskipped₂ member₂ least₂ fifo₂).mono ?_ fun _ raised => raised.after steps
        rintro ⟨newBlocks, f₃⟩ ended
        cases newBlocks with
        | none => exact ⟨steps.trans ended.1, ended.2⟩
        | some =>
          obtain ⟨mid, kv', more, allocated', eq, early', member', same', budget', fifo'⟩ := ended
          exact ⟨mid, kv', steps.trans more, allocated', eq, early', member', same'.trans same,
            budget'.trans budget, fifo'⟩

omit [DecidableEq H] in
/-- Committing draft tokens trims those of the request and plans them. -/
theorem commitSpecTokens_eq (f : Frame H C) (r : Ref) (n : Int) :
    ∃ specTokenIds scheduledSpecDecodeTokens, specTokenIds <+: (f.sched.objs r).specTokenIds ∧
      commitSpecTokens f r n =
        { sched := { f.sched with
            objs := Function.update f.sched.objs r { f.sched.objs r with specTokenIds } }
          plan := { f.plan with scheduledSpecDecodeTokens } } := by
  unfold commitSpecTokens
  dsimp only
  split
  · exact ⟨_, _, take_prefix _ _, rfl⟩
  · exact ⟨_, _, prefix_rfl, by rw [Function.update_eq_self]⟩

/-- The loop over the running requests takes elementary steps and neither starts nor skips a waiting one. -/
theorem scheduleRunning_sat (turns : Nat) (f : Frame H C) (early : f.plan.Early)
    (unskipped : f.plan.skippedWaitingRequests = []) :
    Sat (scheduleRunning cfg turns f)
      (fun f' => LoopSteps cfg env f f' ∧ f'.plan.Early ∧ f'.plan.skippedWaitingRequests = [])
      (Raised cfg env f) := by
  induction turns generalizing f with
  | zero =>
    unfold scheduleRunning
    split
    · exact Sat.ok ⟨.refl, early, unskipped⟩
    · split
      · exact Sat.ok ⟨.refl, early, unskipped⟩
      · exact Sat.error (.of_unrelated (by simp [Unrelated]))
  | succ turns ih =>
    unfold scheduleRunning
    split
    · exact Sat.ok ⟨.refl, early, unskipped⟩
    · rename_i r found
      split
      · exact Sat.ok ⟨.refl, early, unskipped⟩
      · rename_i enough
        dsimp only
        refine Sat.bind ((tryScheduleEncoderInputs_sat f r _ _).mono (fun _ h => h)
          fun _ h => .of_unrelated h.unrelated) ?_
        rintro ⟨choice, f₁⟩ ⟨⟨cache, eq⟩, trimmed⟩
        dsimp only at eq trimmed ⊢
        subst eq
        set f₁ : Frame H C := { f with sched := { f.sched with encoderCacheManager := cache } } with f₁_def
        have first : ∀ index, f.plan.reqIndex ≤ index → LoopStep cfg env f
            { f₁ with plan := { f₁.plan with reqIndex := index } } := fun index forward =>
          .minor f cache f.plan.scheduledEncoderInputs f.plan.encoderComputeBudget index
            f.plan.scheduledLoras forward
        have cached : LoopSteps cfg env f f₁ := .single (first f.plan.reqIndex (Nat.le_refl _))
        split
        · -- Nothing to schedule: the next request is looked at.
          have next := Relation.ReflTransGen.single (first (f.plan.reqIndex + 1) (by omega))
          exact (ih { f₁ with plan := { f₁.plan with reqIndex := f.plan.reqIndex + 1 } } early
            unskipped).mono (fun _ steps => ⟨next.trans steps.1, steps.2⟩) fun _ raised => raised.after next
        · rename_i nonzero
          have member : r ∈ f₁.sched.running := mem_of_getElem? found
          have least : 0 < choice.numNewTokens ∨ (0 < f₁.plan.tokenBudget ∧ choice.numNewTokens =
              runningNewTokens cfg (f₁.sched.objs r) f₁.plan.tokenBudget) := by
            rcases trimmed with eq | eq | ⟨positive, _⟩
            · exact .inr ⟨by simpa using enough, eq⟩
            · exact absurd eq nonzero
            · exact .inl positive
          refine Sat.bind ((allocateOrPreempt_sat r choice.numNewTokens _ f₁ early unskipped member
            nonzero least fun _ => found).mono (fun _ h => h) fun _ raised => raised.after cached) ?_
          rintro ⟨newBlocks, f₂⟩ ended
          cases newBlocks with
          | none => exact Sat.ok ⟨cached.trans ended.1, ended.2⟩
          | some newBlocks =>
            obtain ⟨mid, kv, steps, allocated, eq, ⟨early', unskipped'⟩, member', same, budget, fifo'⟩ :=
              ended
            dsimp only at eq ⊢
            subst eq
            have bound : choice.numNewTokens ≤
                runningNewTokens cfg (mid.sched.objs r) mid.plan.tokenBudget := by
              rw [same, budget]
              rcases trimmed with eq | eq | ⟨_, less⟩
              · rw [eq]
              · exact absurd eq nonzero
              · exact less.le
            have least' : 0 < choice.numNewTokens ∨ (0 < mid.plan.tokenBudget ∧ choice.numNewTokens =
                runningNewTokens cfg (mid.sched.objs r) mid.plan.tokenBudget) := by
              rw [same, budget]
              exact least
            obtain ⟨drafts, planned, prefixed, eq⟩ := commitSpecTokens_eq
              (commitRunning { mid with sched := { mid.sched with kvCacheManager := kv } } r
                choice.numNewTokens newBlocks) r choice.numNewTokens
            rw [eq]
            have committed := (cached.trans steps).tail (.run mid r choice.numNewTokens newBlocks kv
              drafts planned member' early' fifo' nonzero bound least' prefixed allocated)
            refine Sat.bind (commitEncoderInputs_sat cfg env _ r choice).raised ?_
            rintro f₃ ⟨more, still, _, skips⟩
            have path := committed.trans more
            exact (ih f₃ (still early') (skips.trans unskipped')).mono
              (fun _ steps => ⟨path.trans steps.1, steps.2⟩) fun _ raised => raised.after path

/-- Recording LoRAs is a minor step. -/
theorem recordLoras_sat (env : ScheduleEnv) (f : Frame H C) :
    Sat (recordLoras cfg f) (LoopSteps cfg env f) Unrelated := by
  unfold recordLoras
  split
  · exact Sat.ok .refl
  · refine Sat.guarded (by simp [Unrelated]) fun _ => Sat.ok ?_
    exact .single (.minor f f.sched.encoderCacheManager _ _ f.plan.reqIndex _ (Nat.le_refl _))

end Running

section WaitingParts

/-- What the choice of tokens for a waiting request says about them. -/
theorem waitingNewTokens_sat (f : Frame H C) (r : Ref) (computed : Computed) :
    Sat (waitingNewTokens cfg f r computed)
      (fun out =>
        (∃ cache, out.2 = { f with sched := { f.sched with encoderCacheManager := cache } }) ∧
        ∀ choice, out.1 = .schedule choice →
          (computed.loadKvAsync = true ∧ choice.numNewTokens = 0 ∧
            computed.numExternalComputedTokens > 0) ∨
          (computed.loadKvAsync = false ∧ 0 < choice.numNewTokens ∧
            choice.numNewTokens ≤ (f.sched.objs r).numTokens - computed.numComputedTokens))
      Unrelated := by
  unfold waitingNewTokens
  dsimp only
  split
  · rename_i async
    refine Sat.guarded (by simp [Unrelated]) fun external => Sat.ok ?_
    refine ⟨⟨f.sched.encoderCacheManager, rfl⟩, ?_⟩
    intro choice eq
    cases eq
    exact .inl ⟨async, rfl, external⟩
  · rename_i sync
    split
    · exact Sat.ok ⟨⟨f.sched.encoderCacheManager, rfl⟩, by intro _ eq; cases eq⟩
    · refine Sat.guarded (by simp [Unrelated]) fun positive => ?_
      refine Sat.bind ((tryScheduleEncoderInputs_sat f r _ _).mono (fun _ h => h)
        fun _ h => h.unrelated) ?_
      rintro ⟨choice, f₁⟩ ⟨cache, trimmed⟩
      dsimp only at cache trimmed ⊢
      split
      · exact Sat.ok ⟨cache, by intro _ eq; cases eq⟩
      · rename_i nonzero
        refine Sat.ok ⟨cache, ?_⟩
        intro choice' eq
        cases eq
        have capped : capLongPrefill cfg
            ((f.sched.objs r).numTokens - computed.numComputedTokens) ≤
            (f.sched.objs r).numTokens - computed.numComputedTokens := by
          unfold capLongPrefill
          split
          · rename_i long; exact long.2.le
          · exact le_refl _
        refine .inr ⟨by simpa using sync, ?_, ?_⟩
        · rcases trimmed with eq | eq | ⟨some', _⟩
          · rw [eq]; exact positive
          · exact absurd eq nonzero
          · exact some'
        · have below : choice.numNewTokens ≤ min (capLongPrefill cfg
              ((f.sched.objs r).numTokens - computed.numComputedTokens)) f.plan.tokenBudget := by
            rcases trimmed with eq | eq | ⟨_, less⟩
            · exact eq.le
            · exact absurd eq nonzero
            · exact less.le
          exact below.trans ((min_le_left _ _).trans capped)

/-- Skipping puts the request at the front aside, or raises what a queue raises. -/
theorem skipWaiting_sat (f : Frame H C) : Sat (skipWaiting cfg f)
    (fun f' => ∃ r, f.PutsAside cfg f' r ∧ f'.sched = { f.sched with waiting := f'.sched.waiting })
    Unrelated := by
  refine Sat.bind (queuePop_sat _ _ _).of_queue ?_
  rintro ⟨r, waiting⟩ ⟨front, pop, first⟩
  exact Sat.bind (queuePrepend_sat _ _ _ _).of_queue fun skipped push => Sat.ok
    ⟨r, ⟨front, pop, push.1, rfl, fun fifo => ⟨first fifo, push.2 fifo⟩⟩, rfl⟩

theorem parkRequest_sat (f : Frame H C) : Sat (parkRequest cfg f)
    (fun f' => ∃ r, f.PutsAside cfg f' r ∧ f'.sched = { f.sched with
      waiting := f'.sched.waiting
      objs := Function.update f.sched.objs r
        { f.sched.objs r with status := .waitingForRemoteKvs } })
    Unrelated := by
  refine Sat.bind (queuePop_sat _ _ _).of_queue ?_
  rintro ⟨r, waiting⟩ ⟨front, pop, first⟩
  exact Sat.bind (queuePrepend_sat _ _ _ _).of_queue fun skipped push => Sat.ok
    ⟨r, ⟨front, pop, push.1, rfl, fun fifo => ⟨first fifo, push.2 fifo⟩⟩, rfl⟩

/-- Starting takes the request at the front and preempts nobody. -/
theorem startRequest_sat (f : Frame H C) (computed : Computed) (n : Int) :
    Sat (startRequest cfg f computed n) (fun out => f.Started cfg out.2 out.1 computed n)
      Unrelated := by
  refine Sat.bind (queuePop_sat _ _ _).of_queue ?_
  rintro ⟨r, waiting⟩ ⟨front, pop, first⟩
  dsimp only
  -- The plan notes the request by its status and is otherwise as before.
  unfold recordStarted
  split
  · rename_i status
    exact Sat.ok ⟨front, pop, first, ⟨_, rfl⟩, rfl, rfl, .inl ⟨status, rfl, rfl⟩, rfl, rfl⟩
  · rename_i status
    exact Sat.ok ⟨front, pop, first, ⟨_, rfl⟩, rfl, rfl, .inr ⟨status, rfl, rfl⟩, rfl, rfl⟩
  · exact Sat.error (by simp [Unrelated])

/-- The frame a turn of the waiting loop ends with. -/
def Turn.frame : Turn H C → Frame H C
  | .next f => f
  | .stop f => f

theorem informConnector_eq (cfg : Config H C M) (s : Scheduler H C) (r : Ref) (computed : Computed)
    (newBlocks : List (List BlockId)) : s.informConnector cfg r computed newBlocks =
      { s with connector := cfg.informed s.connector (s.objs r) computed newBlocks } := by
  unfold informConnector Config.informed
  cases cfg.connector <;> rfl

end WaitingParts

section Waiting

variable [DecidableEq H]

/-- What the check of a waiting request leaves: the same state, or the request ready, with the blocks that
have arrived if it waited for them. -/
inductive Readied (cfg : Config H C M) (s : Scheduler H C) (r : Ref) : Bool → Scheduler H C → Prop
  | same (answer : Bool) (arrived : answer = true → (s.objs r).status ≠ .waitingForRemoteKvs) :
      Readied cfg s r answer s
  | woken (status : (s.objs r).status = .waitingForFsm) : Readied cfg s r true (s.setStatus r .waiting)
  | loaded (blockIds : List BlockId) (received : Int) (kv : KVCacheManager H)
      (status : (s.objs r).status = .waitingForRemoteKvs) (connected : cfg.connector.isSome)
      (held : s.kvCacheManager.getBlocks (s.objs r).requestId = [blockIds])
      (count : received = min (blockIds.length * cfg.blockSize : Int) (s.objs r).numTokens)
      (cached : s.kvCacheManager.cacheBlocks cfg.kv (s.objs r)
        (if received = (s.objs r).numTokens then received - 1 else received) = .ok kv) :
      Readied cfg s r true { s with
        kvCacheManager := kv
        finishedRecvingKvReqIds := s.finishedRecvingKvReqIds.erase (s.objs r).requestId
        objs := Function.update s.objs r { s.objs r with
          numComputedTokens := if received = (s.objs r).numTokens then received - 1 else received
          status := .waiting } }

/-- Checking a waiting request raises nothing about computed blocks. -/
theorem readyToSchedule_sat (s : Scheduler H C) (r : Ref) :
    Sat (s.readyToSchedule cfg env r) (fun out => Readied cfg s r out.1 out.2) Unrelated := by
  unfold readyToSchedule
  split
  · rename_i status
    refine Sat.bind (Q := fun out => out = (false, s) ∨
      out.1 = true ∧ Readied cfg s r true (out.2.setStatus r .waiting)) ?_ ?_
    · refine Sat.guarded (by simp [Unrelated]) fun connected => ?_
      dsimp only
      split
      · exact Sat.ok (.inl rfl)
      · split
        · rename_i blockIds held
          refine Sat.bind (KVCacheManager.cacheBlocks_sat _ _ _ _).self fun kv cached =>
            Sat.ok (.inr ⟨rfl, ?_⟩)
          simp only [setStatus, modifyObj, Function.update_self, Function.update_idem]
          exact .loaded blockIds _ kv status connected held rfl cached.1
        · exact Sat.error (by simp [Unrelated])
    · rintro ⟨ready, s₁⟩ (same | ⟨isReady, readied⟩)
      · cases same
        exact Sat.ok (.same false (by simp))
      · cases isReady
        exact Sat.ok readied
  · rename_i status
    refine Sat.ok ?_
    split
    · exact .woken status
    · exact .same false (by simp)
  · rename_i other _
    exact Sat.ok (.same true fun _ => other)

theorem readyToSchedule_readied {answer : Bool} (done : s.readyToSchedule cfg env r = .ok (answer, s')) :
    Readied cfg s r answer s' :=
  (readyToSchedule_sat s r).post_of_ok done

/-- Looking for cached tokens raises nothing about saving them. -/
theorem computedTokens_sat (s : Scheduler H C) (r : Ref) :
    Sat (s.computedTokens cfg r) (fun _ => True) Unrelated := by
  unfold computedTokens
  dsimp only
  split
  · refine Sat.bind (KVCacheManager.getComputedBlocks_sat _ _ _) ?_
    rintro ⟨blocks, numLocal⟩ _
    dsimp only
    split
    · exact Sat.ok trivial
    · split
      · exact Sat.ok trivial
      · exact Sat.ok trivial
  · exact Sat.ok trivial

/-- Being ready never moves a request between queues. -/
theorem readyToSchedule_queues {answer : Bool}
    (done : s.readyToSchedule cfg env r = .ok (answer, s')) :
    s'.waiting = s.waiting ∧ s'.running = s.running := by
  cases readyToSchedule_readied done <;> exact ⟨rfl, rfl⟩

/-- A request that is ready is not waiting for remote blocks any more. -/
theorem readyToSchedule_arrived (done : s.readyToSchedule cfg env r = .ok (true, s')) :
    (s'.objs r).status ≠ .waitingForRemoteKvs := by
  cases readyToSchedule_readied done with
  | same _ arrived => exact arrived rfl
  | woken => simp [setStatus, modifyObj]
  | loaded => simp

/-- Admitting the request at the front is made of elementary steps. -/
theorem admitWaiting_sat (f : Frame H C) (r : Ref) (computed : Computed) (connector connector₀ : C)
    (choice : EncoderChoice) (front : f.sched.waiting.head? = some r)
    (calm : f.plan.preemptedReqs = [])
    (arrived : (f.sched.objs r).status ≠ .waitingForRemoteKvs)
    (asked : ({ f.sched with connector := connector₀ }).computedTokens cfg r =
      .ok (some computed, connector)) (current : f.sched.connector = connector)
    (tokens : (computed.loadKvAsync = true ∧ choice.numNewTokens = 0 ∧
        computed.numExternalComputedTokens > 0) ∨
      (computed.loadKvAsync = false ∧ 0 < choice.numNewTokens ∧
        choice.numNewTokens ≤ (f.sched.objs r).numTokens - computed.numComputedTokens)) :
    Sat (admitWaiting cfg f r computed choice)
      (fun out => LoopSteps cfg env { f with sched := { f.sched with connector := connector₀ } }
        out.frame ∧ out.frame.plan.preemptedReqs = [])
      (Raised cfg env { f with sched := { f.sched with connector := connector₀ } }) := by
  -- The steps start before the connector was asked.
  set f₀ : Frame H C := { f with sched := { f.sched with connector := connector₀ } } with f₀_def
  have back : ({ f₀ with sched := { f₀.sched with connector } } : Frame H C) = f := by
    rw [f₀_def, ← current]
  refine Sat.bind (Q := fun _ => True) ?_ fun encoderTokens _ => ?_
  · unfold numEncoderTokens
    split
    · exact Sat.bind (Sat.require fun _ => .of_unrelated (by simp [Unrelated]))
        fun _ _ => Sat.ok trivial
    · exact Sat.ok trivial
  set args := waitingAllocArgs cfg (f.sched.objs r) computed choice.numNewTokens encoderTokens
    with args_def
  have alloc : Sat (f.sched.kvCacheManager.allocateSlots cfg.kv (f.sched.objs r) args)
      (fun out => f.sched.kvCacheManager.allocateSlots cfg.kv (f.sched.objs r) args = .ok out)
      (Raised cfg env f₀) :=
    Sat.intro (fun _ eq => eq) fun e raised _ =>
      ⟨f₀, .refl, .waiting r computed connector choice.numNewTokens encoderTokens front asked raised⟩
  refine Sat.bind alloc ?_
  rintro ⟨newBlocks, kv⟩ allocated
  cases newBlocks with
  | none =>
    have consulted : LoopStep cfg env f₀ f := by
      have step : LoopStep cfg env f₀ _ := .consult f₀ r (some computed) connector front asked
      rw [back] at step
      exact step
    have waits : r ∈ f.sched.waiting := mem_of_mem_head? front
    have sized : CallSized cfg f r args.numNewTokens := by
      refine .waiting connector₀ connector computed choice.numNewTokens asked rfl ?_
      rcases tokens with ⟨_, zero, external⟩ | ⟨_, positive, _⟩
      · exact .inr ⟨zero, external⟩
      · exact .inl positive
    exact Sat.ok ⟨(Relation.ReflTransGen.single consulted).tail
      (.allocFail f r args kv (mem_append_left _ waits) (.inl waits) sized allocated), calm⟩
  | some newBlocks =>
    dsimp only
    have same : ({ f with sched := (({ f.sched with kvCacheManager := kv }).log
        (.granted r (obtainedBlocks computed newBlocks))).informConnector cfg r computed newBlocks } :
        Frame H C) = f₀.granted cfg r computed connector newBlocks kv := by
      rw [informConnector_eq, f₀_def, Frame.granted, ← current]
      rfl
    rw [same]
    split
    · rename_i async
      obtain ⟨_, zero, external⟩ | ⟨sync, _, _⟩ := tokens
      · refine Sat.bind (parkRequest_sat _).raised ?_
        rintro f₁ ⟨r', aside, state⟩
        obtain rfl : r' = r := Option.some.inj (aside.front.symm.trans front)
        have calm₁ : f₁.plan.preemptedReqs = [] := by
          rw [aside.plan]
          exact calm
        rw [args_def, zero] at allocated
        exact Sat.ok ⟨.single (.park f₀ f₁ r' computed connector encoderTokens newBlocks kv
          ⟨⟨asked, allocated⟩, async, external⟩
          ⟨aside.front, aside.waiting, aside.skipped, aside.plan, aside.fifo⟩ state calm arrived), calm₁⟩
      · rw [async] at sync; cases sync
    · rename_i sync
      obtain ⟨async, _, _⟩ | ⟨sync', positive, bound⟩ := tokens
      · exact absurd async sync
      · refine Sat.bind (startRequest_sat _ computed choice.numNewTokens).raised ?_
        rintro ⟨r', f₁⟩ begun
        obtain rfl : r' = r := Option.some.inj (begun.front.symm.trans front)
        have started : LoopStep cfg env f₀ f₁ :=
          .start f₀ f₁ r' computed connector choice.numNewTokens encoderTokens newBlocks kv calm
            ⟨⟨asked, allocated⟩, sync', positive, bound⟩ begun
        refine Sat.bind (commitEncoderInputs_sat cfg env f₁ r' choice).raised ?_
        rintro f₂ ⟨more, _, still, _⟩
        exact Sat.ok ⟨(Relation.ReflTransGen.single started).trans more,
          still.trans (begun.preempted.trans calm)⟩

/-- One turn of the waiting loop is made of elementary steps. -/
theorem waitingTurn_sat (f : Frame H C) (r : Ref) (front : f.sched.waiting.head? = some r)
    (calm : f.plan.preemptedReqs = []) :
    Sat (waitingTurn cfg env f r)
      (fun out => LoopSteps cfg env f out.frame ∧ out.frame.plan.preemptedReqs = [])
      (Raised cfg env f) := by
  refine Sat.bind (readyToSchedule_sat f.sched r).self.raised ?_
  rintro ⟨answer, s⟩ ⟨done, _⟩
  set f₁ : Frame H C := { f with sched := s } with f₁_def
  have first : LoopSteps cfg env f f₁ := .single (.ready f r answer s front done)
  have front₁ : f₁.sched.waiting.head? = some r := by
    rw [f₁_def, (readyToSchedule_queues done).1]; exact front
  have skipped : ∀ g : Frame H C, LoopSteps cfg env f g → g.plan.preemptedReqs = [] →
      Sat (do let g' ← skipWaiting cfg g; .ok (Turn.next g') : Except Err (Turn H C))
        (fun out => LoopSteps cfg env f out.frame ∧ out.frame.plan.preemptedReqs = [])
        (Raised cfg env f) := by
    intro g steps calm'
    refine Sat.bind (skipWaiting_sat g).raised ?_
    rintro g' ⟨r', aside, state⟩
    exact Sat.ok ⟨steps.tail (.skip g g' r' aside state calm'), by
      show g'.plan.preemptedReqs = []
      rw [aside.plan]
      exact calm'⟩
  dsimp only
  split
  · exact skipped f₁ first calm
  · rename_i free
    have arrived : (f₁.sched.objs r).status ≠ .waitingForRemoteKvs := by
      rcases answer with _ | _
      · exact absurd (.inl rfl) free
      · exact readyToSchedule_arrived done
    refine Sat.bind (computedTokens_sat f₁.sched r).self.raised ?_
    rintro ⟨computed, connector⟩ ⟨asked, _⟩
    dsimp only
    set f₂ : Frame H C := { f₁ with sched := { f₁.sched with connector } } with f₂_def
    have consulted : LoopSteps cfg env f f₂ := first.tail (.consult f₁ r computed connector front₁ asked)
    cases computed with
    | none => exact skipped f₂ consulted calm
    | some computed =>
      dsimp only
      refine Sat.bind (waitingNewTokens_sat f₂ r computed).raised ?_
      rintro ⟨choice, f₃⟩ ⟨⟨cache, eq⟩, tokens⟩
      dsimp only at eq tokens ⊢
      subst eq
      have trimmed : LoopStep cfg env f₂
          { f₂ with sched := { f₂.sched with encoderCacheManager := cache } } :=
        .minor f₂ cache f₂.plan.scheduledEncoderInputs f₂.plan.encoderComputeBudget
          f₂.plan.reqIndex f₂.plan.scheduledLoras (Nat.le_refl _)
      cases choice with
      | skip => exact skipped _ (consulted.tail trimmed) calm
      | stop => exact Sat.ok ⟨consulted.tail trimmed, calm⟩
      | schedule choice =>
        -- The encoder cache is settled first, then the connector is asked and slots are taken.
        have cached : LoopStep cfg env f₁
            { f₁ with sched := { f₁.sched with encoderCacheManager := cache } } :=
          .minor f₁ cache f₁.plan.scheduledEncoderInputs f₁.plan.encoderComputeBudget
            f₁.plan.reqIndex f₁.plan.scheduledLoras (Nat.le_refl _)
        have path := first.tail cached
        refine (admitWaiting_sat
          { f₂ with sched := { f₂.sched with encoderCacheManager := cache } } r computed connector
          s.connector choice front₁ calm arrived asked rfl (tokens choice rfl)).mono
          (fun _ ended => ⟨path.trans ended.1, ended.2⟩) fun _ raised => raised.after path

/-- The loop over the waiting requests is made of elementary steps. -/
theorem scheduleWaiting_sat (turns : Nat) (f : Frame H C) (calm : f.plan.preemptedReqs = []) :
    Sat (scheduleWaiting cfg env turns f) (LoopSteps cfg env f) (Raised cfg env f) := by
  induction turns generalizing f with
  | zero =>
    unfold scheduleWaiting
    split
    · exact Sat.ok .refl
    · split
      · exact Sat.ok .refl
      · exact Sat.error (.of_unrelated (by simp [Unrelated]))
  | succ turns ih =>
    unfold scheduleWaiting
    split
    · exact Sat.ok .refl
    · rename_i r rest waits
      split
      · exact Sat.ok .refl
      · dsimp only
        refine Sat.bind (waitingTurn_sat f r (by rw [waits]; rfl) calm) fun turn ended => ?_
        obtain ⟨steps, calm₁⟩ := ended
        cases turn with
        | stop => exact Sat.ok steps
        | next f₁ =>
          exact (ih f₁ calm₁).mono (fun _ more => Relation.ReflTransGen.trans steps more)
            fun _ raised => raised.after steps

end Waiting

section Expiry

/-- The queues and the connector are the same in two states. -/
structure Untouched (s s' : Scheduler H C) : Prop where
  connector : s'.connector = s.connector
  waiting : s'.waiting = s.waiting
  running : s'.running = s.running

theorem Untouched.trans {s₁ s₂ : Scheduler H C} (first : Untouched s s₁) (second : Untouched s₁ s₂) :
    Untouched s s₂ :=
  ⟨second.1.trans first.1, second.2.trans first.2, second.3.trans first.3⟩

/-- Expiring pins touches neither the queues nor the connector. -/
theorem expirePins_untouched {now : PyFloat}
    (done : s.expirePins cfg now = .ok s') : Untouched s s' := by
  have loop : ∀ {pins kept : List (Ref × PyFloat)} {a b : Scheduler H C},
      expirePinsLoop now a pins kept = .ok b → Untouched a b := by
    intro pins
    induction pins with
    | nil =>
      intro kept a b looped
      cases looped
      exact ⟨rfl, rfl, rfl⟩
    | cons pin rest ih =>
      intro kept a b looped
      unfold expirePinsLoop at looped
      split at looped
      · obtain ⟨mid, expired, later⟩ := bind_eq_ok.mp looped
        refine Untouched.trans ?_ (ih later)
        unfold expirePin at expired
        split at expired
        · obtain ⟨_, _, tail⟩ := bind_eq_ok.mp expired
          obtain ⟨_, _, built⟩ := bind_eq_ok.mp tail
          cases built
          exact ⟨rfl, rfl, rfl⟩
        · cases expired
          exact ⟨rfl, rfl, rfl⟩
      · exact ih looped
  unfold expirePins at done
  split at done
  · exact loop done
  · cases done
    exact ⟨rfl, rfl, rfl⟩

/-- `_update_after_schedule` touches neither the queues nor the connector. -/
theorem updateAfterSchedule_untouched {items : List (RequestId × Int)}
    (done : updateAfterSchedule cfg items s = .ok s') : Untouched s s' := by
  have advance : ∀ {items : List (RequestId × Int)} {a b : Scheduler H C},
      advanceComputed cfg items a = .ok b → Untouched a b := by
    intro items
    induction items with
    | nil =>
      intro a b advanced
      cases advanced
      exact ⟨rfl, rfl, rfl⟩
    | cons item rest ih =>
      intro a b advanced
      obtain ⟨r, _, tail⟩ := bind_eq_ok.mp advanced
      refine Untouched.trans ?_ (ih tail)
      split <;> exact ⟨rfl, rfl, rfl⟩
  have reserve : ∀ {ids : List RequestId} {a b : Scheduler H C}, reservePlaceholders ids a = .ok b →
      Untouched a b := by
    intro ids
    induction ids with
    | nil =>
      intro a b reserved
      cases reserved
      exact ⟨rfl, rfl, rfl⟩
    | cons id rest ih =>
      intro a b reserved
      obtain ⟨r, _, tail⟩ := bind_eq_ok.mp reserved
      refine Untouched.trans ?_ (ih tail)
      split <;> exact ⟨rfl, rfl, rfl⟩
  obtain ⟨s₁, advanced, tail⟩ := bind_eq_ok.mp done
  split at tail
  · exact (advance advanced).trans (reserve tail)
  · cases tail
    exact advance advanced

/-- What moves when pins expire: entries whose time has come, nothing else. -/
def expiryScope (now : PyFloat) : Scope :=
  ⟨fun _ => False, fun _ => False, True, False, some now, True⟩

variable [DecidableEq H]

/-- Expiring pins one after the other. -/
theorem expirePinsLoop_sat (cfg : Config H C M) (now : PyFloat) (s : Scheduler H C)
    (rest still : List (Ref × PyFloat)) :
    Sat (expirePinsLoop now s rest still)
      (fun s' => Moves cfg (expiryScope now) { s with pinnedRequests := still ++ rest } s')
      Unrelated := by
  -- The list of pins is followed as the kept entries before the remaining ones.
  induction rest generalizing s still with
  | nil =>
    refine Sat.ok ?_
    rw [append_nil]
  | cons entry rest ih =>
    rcases entry with ⟨r, expiry⟩
    unfold expirePinsLoop
    split
    · rename_i due
      refine Sat.bind (Q := fun s₁ => Move cfg (expiryScope now)
        { s with pinnedRequests := still ++ (r, expiry) :: rest }
        { s₁ with pinnedRequests := still ++ rest }) ?_ fun s₁ first => ?_
      · unfold expirePin
        split
        · rename_i present
          refine Sat.guarded (by simp [Unrelated]) fun finished => ?_
          refine Sat.guarded (by simp [Unrelated]) fun _ => Sat.ok ?_
          exact .expire { s with pinnedRequests := still ++ (r, expiry) :: rest } still r expiry now
            rest rfl due rfl present finished
        · rename_i absent
          exact Sat.ok (.unpin { s with pinnedRequests := still ++ (r, expiry) :: rest } still r
            expiry now rest rfl due rfl absent)
      · exact (ih s₁ still).mono (fun _ steps => .head first steps) fun _ h => h
    · refine (ih s (still ++ [(r, expiry)])).mono (fun _ steps => ?_) fun _ h => h
      rwa [append_assoc] at steps

/-- Expiring pins is made of elementary moves. -/
theorem mimirExpirePins_sat (now : PyFloat) (s : Scheduler H C) :
    Sat (s.mimirExpirePins now) (Moves cfg (expiryScope now) s) Unrelated := by
  exact expirePinsLoop_sat cfg now s s.pinnedRequests []

theorem expirePins_sat (now : PyFloat) (s : Scheduler H C) :
    Sat (s.expirePins cfg now) (Moves cfg (expiryScope now) s) Unrelated := by
  unfold expirePins
  split
  · exact mimirExpirePins_sat now s
  · exact Sat.ok .refl

/-- The loops of `schedule`: pins expire, then elementary steps on the state and the plan. -/
theorem scheduleLoops_sat (s : Scheduler H C) : Sat (scheduleLoops cfg env s)
      (fun f => ∃ s₁, Moves cfg (expiryScope env.now) s s₁ ∧
        LoopSteps cfg env ⟨s₁, initialPlan cfg⟩ f ∧ s.expirePins cfg env.now = .ok s₁)
      (fun e => e.site = .saveNewComputedBlocks → ∃ s₁ mid, Moves cfg (expiryScope env.now) s s₁ ∧
        LoopSteps cfg env ⟨s₁, initialPlan cfg⟩ mid ∧ AllocRaises cfg mid e) := by
  refine Sat.bind ((expirePins_sat env.now s).self.mono (fun _ h => h)
    fun _ other site => absurd site other) fun s₁ both => ?_
  obtain ⟨done, expired⟩ := both
  have lift : ∀ {f : Frame H C}, LoopSteps cfg env ⟨s₁, initialPlan cfg⟩ f → ∀ e, Raised cfg env f e →
      e.site = .saveNewComputedBlocks → ∃ s₁ mid, Moves cfg (expiryScope env.now) s s₁ ∧
        LoopSteps cfg env ⟨s₁, initialPlan cfg⟩ mid ∧ AllocRaises cfg mid e := by
    intro f steps e raised site
    obtain ⟨mid, more, alloc⟩ := raised site
    exact ⟨s₁, mid, expired, steps.trans more, alloc⟩
  refine Sat.bind ((scheduleRunning_sat _ _ ⟨rfl, rfl⟩ rfl).mono (fun _ h => h.1) (lift .refl))
    fun f₁ running => ?_
  refine Sat.bind ((recordLoras_sat env f₁).mono (fun _ h => h)
    fun e other => lift running e (.of_unrelated other)) fun f₂ recorded => ?_
  have path := running.trans recorded
  split
  · rename_i calm
    exact (scheduleWaiting_sat _ f₂ (List.isEmpty_iff.mp calm)).mono
      (fun _ steps => ⟨s₁, expired, path.trans steps, done⟩) (lift path)
  · exact Sat.ok ⟨s₁, expired, path, done⟩

end Expiry

end Scheduler

end Mimir
