import Mimir.Sched.Balance

/-! Who holds blocks: every block is accounted for, and idle engines hold none. -/

namespace Mimir

open Python Scheduler List

variable {H C M : Type} {cfg : Config H C M} {s s' : Scheduler H C} {connector : C} {r : Ref}
  {computed : Scheduler.Computed} {id : RequestId} {req : Request H} {scope : Scope}

section Definitions

/-- The requests on whose behalf blocks are held: the running and the pinned ones. -/
def Scheduler.Keeps (s : Scheduler H C) (r : Ref) : Prop :=
  r ∈ s.running ∨ r ∈ s.pinnedRequests.map Prod.fst

/-- Only running and pinned requests have blocks. -/
def Held (s : Scheduler H C) : Prop :=
  ∀ m ∈ s.kvCacheManager.managers, ∀ id, m.blocksOf id ≠ [] →
    ∃ r, s.requests.get? id = some r ∧ s.Keeps r

/-- Removing the pin of another request. -/
theorem Scheduler.Keeps.unpin {before after : List (Ref × PyFloat)} {x : Ref}
    {expiry : PyFloat} (keeps : s.Keeps x)
    (found : s.pinnedRequests = before ++ (r, expiry) :: after) (other : x ≠ r) :
    x ∈ s.running ∨ x ∈ (before ++ after).map Prod.fst := by
  refine keeps.imp_right fun pins => ?_
  rw [found] at pins
  simp only [map_append, map_cons, mem_append, mem_cons, other, false_or] at pins ⊢
  exact pins

/-- No connector, or one that never loads asynchronously. -/
def Config.LoadsInStep (cfg : Config H C M) : Prop :=
  ∀ ops, cfg.connector = some ops → ops.NeverLoadsAsync

/-- No connector, or one that neither delays the freeing of blocks nor loads asynchronously. -/
def Config.Synchronous (cfg : Config H C M) : Prop :=
  ∀ ops, cfg.connector = some ops → ops.NeverDelays ∧ ops.NeverLoadsAsync

/-- Such a connector loads within the step. -/
theorem Config.Synchronous.loadsInStep (synchronous : cfg.Synchronous) :
    cfg.LoadsInStep := fun ops connected => (synchronous ops connected).2

/-- Without a connector nothing is delayed. -/
theorem Config.synchronous_of_none (none : cfg.connector = none) : cfg.Synchronous := by
  intro ops connected
  rw [none] at connected
  cases connected

variable [DecidableEq H]

/-- Such a connector lets no request wait for its blocks. -/
theorem Scheduler.computedTokens_sync (loads : cfg.LoadsInStep)
    (asked : s.computedTokens cfg r = .ok (some computed, connector)) :
    computed.loadKvAsync = false := by
  unfold computedTokens at asked
  dsimp only at asked
  split at asked
  · obtain ⟨⟨blocks, numLocal⟩, _, tail⟩ := bind_eq_ok.mp asked
    cases connected : cfg.connector with
    | none =>
      rw [connected] at tail
      cases tail
      rfl
    | some ops =>
      rw [connected] at tail
      have never := loads ops connected s.connector (s.objs r) numLocal
      dsimp only at tail
      split at tail
      · cases tail
      · cases tail
        exact never
  · cases asked
    rfl

/-- So no request is parked. -/
theorem Scheduler.Parks.never {encoderTokens : Int}
    {newBlocks : List (List BlockId)} {kv : KVCacheManager H} (loads : cfg.LoadsInStep)
    (parks : s.Parks cfg r computed connector encoderTokens newBlocks kv) : False := by
  have async := parks.async
  rw [computedTokens_sync loads parks.asked] at async
  cases async

end Definitions

namespace Held

/-- A change that leaves the block lists alone. -/
theorem same (held : Held s) (kv : s'.kvCacheManager = s.kvCacheManager)
    (keep : ∀ k r, s.requests.get? k = some r → s.Keeps r → s'.requests.get? k = some r ∧ s'.Keeps r) :
    Held s' := by
  intro m member id nonempty
  rw [kv] at member
  obtain ⟨r, found, keeps⟩ := held m member id nonempty
  exact ⟨r, keep id r found keeps⟩

/-- A change of the block lists of one request. -/
theorem aside (held : Held s)
    (soles : List.Forall₂ (Manager.Sole id) s.kvCacheManager.managers s'.kvCacheManager.managers)
    (keep : ∀ k r, k ≠ id → s.requests.get? k = some r → s.Keeps r →
      s'.requests.get? k = some r ∧ s'.Keeps r)
    (own : ∀ m ∈ s'.kvCacheManager.managers, m.blocksOf id ≠ [] →
      ∃ r, s'.requests.get? id = some r ∧ s'.Keeps r) : Held s' := by
  intro m' member k nonempty
  by_cases mine : k = id
  · subst mine
    exact own m' member nonempty
  · obtain ⟨m, earlier, sole⟩ := exists_of_forall₂ soles member
    rw [sole.blocks k mine] at nonempty
    obtain ⟨r, found, keeps⟩ := held m earlier k nonempty
    exact ⟨r, keep k r mine found keeps⟩

/-- A fresh cache holds nothing. -/
theorem init (cfg : Config H C M) (connector : C) : Held (init cfg connector) := by
  intro m member id nonempty
  obtain ⟨i, _, rfl⟩ := mem_mapIdx.mp member
  exact absurd rfl nonempty

/-- A new request has no blocks. -/
theorem addRequest {req : EngineCoreRequest} (held : Held s) (fresh : FreshId s req.requestId)
    (done : s.addRequest cfg req = .ok s') : Held s' := by
  obtain ⟨r, waiting, _, _, rfl⟩ := addRequest_spec done
  refine held.same rfl fun k x known keeps => ⟨?_, keeps⟩
  have other : k ≠ req.requestId := by
    rintro rfl
    exact fresh.1 (PyDict.mem_keys_iff.mpr ⟨x, known⟩)
  exact (PyDict.get?_set_ne _ _ other).trans known

variable [DecidableEq H]

/-- After a request is freed, the others keep what they had. -/
theorem free (held : Held s) (balanced : s.kvCacheManager.Balanced cfg.kv) (id : RequestId)
    (kv : s'.kvCacheManager = s.kvCacheManager.free id)
    (keep : ∀ k r, k ≠ id → s.requests.get? k = some r → s.Keeps r →
      s'.requests.get? k = some r ∧ s'.Keeps r) : Held s' := by
  obtain ⟨_, aside, freed⟩ := balanced.free id
  rw [← kv] at aside freed
  refine held.aside aside.soles keep fun m member nonempty => ?_
  obtain ⟨_, _, here⟩ := exists_of_forall₂ freed member
  exact absurd here.noBlocks nonempty

/-- Caching blocks leaves the block lists alone. -/
theorem cached {numTokens : Int} (held : Held s) (balanced : s.kvCacheManager.Balanced cfg.kv)
    (done : s.kvCacheManager.cacheBlocks cfg.kv req numTokens = .ok s'.kvCacheManager)
    (keep : ∀ k r, s.requests.get? k = some r → s.Keeps r → s'.requests.get? k = some r ∧ s'.Keeps r) :
    Held s' := by
  obtain ⟨_, _, lists⟩ := balanced.cacheBlocks done
  intro m' member id nonempty
  obtain ⟨m, earlier, here⟩ := exists_of_forall₂ lists member
  unfold Manager.blocksOf at nonempty
  rw [here] at nonempty
  obtain ⟨r, found, keeps⟩ := held m earlier id nonempty
  exact ⟨r, keep id r found keeps⟩

/-- A request that ends keeps its blocks only with a pin. -/
theorem retire {b : Bookkeeping C} {notes : List Effect}
    {outcome : Outcome} (synchronous : cfg.Synchronous)
    (balanced : s.kvCacheManager.Balanced cfg.kv) (inv : QueueInv s) (held : Held s)
    (ends : Retires cfg scope s r req b notes outcome) : Held (s.retire r req b notes outcome) := by
  have stays : ∀ x, x ≠ r → s.Keeps x →
      x ∈ s.running.filter (fun r' => !decide (r' = r)) ∨ x ∈ s.pinnedRequests.map Prod.fst := by
    intro x other keeps
    exact keeps.imp_left fun runs => mem_filter.mpr ⟨runs, by simpa using other⟩
  cases outcome with
  | delayed =>
    obtain ⟨ops, connected, delays⟩ := ends.allowed
    exact absurd (synchronous ops connected).1 delays
  | pinned expiry =>
    have pins : ((s.retire r req b notes (.pinned expiry)).pinnedRequests).map Prod.fst =
        s.pinnedRequests.map Prod.fst ++ [r] := map_append
    refine held.same rfl fun k x found keeps => ⟨found, ?_⟩
    by_cases same : x = r
    · exact .inr (by rw [pins, same]; exact mem_append_right _ (mem_singleton.mpr rfl))
    · exact (stays x same keeps).imp_right fun old => by rw [pins]; exact mem_append_left _ old
  | freed =>
    refine held.free balanced _ ends.freed.2 fun k x other found keeps => ⟨?_, ?_⟩
    · rw [ends.freed.1, PyDict.get?_erase_ne _ other]
      exact found
    · exact stays x (inv.apart found other) keeps

/-- Every elementary change outside the loops keeps blocks with their holders. -/
theorem move (synchronous : cfg.Synchronous)
    (balanced : s.kvCacheManager.Balanced cfg.kv) (inv : QueueInv s) (held : Held s)
    (step : Move cfg scope s s') : Held s' := by
  cases step with
  | retire r req b notes outcome ends => exact held.retire synchronous balanced inv ends
  | sent =>
    refine held.free balanced _ rfl fun k x other found keeps => ⟨?_, keeps⟩
    exact (PyDict.get?_erase_ne _ other).trans found
  | unpin before r expiry t after clock due found gone =>
    refine held.same rfl fun k x known keeps => ⟨known, keeps.unpin found ?_⟩
    rintro rfl
    exact gone (PyDict.mem_keys_iff.mpr ⟨x, by rw [inv.own k x known]; exact known⟩)
  | expire before r expiry t after clock due found =>
    refine held.free balanced _ rfl fun k x other known keeps => ⟨?_, ?_⟩
    · exact (PyDict.get?_erase_ne _ other).trans known
    · exact keeps.unpin found (inv.apart known other)
  | cache r req numTokens kv touched known runs grown cached =>
    exact held.cached balanced cached fun _ _ known keeps => ⟨known, keeps⟩
  | _ => exact held.same rfl fun _ _ known keeps => ⟨known, keeps⟩

/-- Every change inside the loops keeps blocks with their holders. -/
theorem loopMove (synchronous : cfg.Synchronous) (nodup : ∀ r, (s.objs r).blockHashes.Nodup)
    (balanced : s.kvCacheManager.Balanced cfg.kv) (inv : QueueInv s) (link : Link s) (held : Held s)
    (step : LoopMove cfg s s') : Held s' := by
  cases step with
  | allocFail r args kv queued alloc =>
    obtain ⟨_, aside, skipped⟩ := KVCacheManager.allocateSlots_refused balanced alloc
    refine held.aside aside.soles (fun _ _ _ known keeps => ⟨known, keeps⟩) fun m' member nonempty => ?_
    obtain ⟨m, earlier, here⟩ := exists_of_forall₂ skipped member
    refine held m earlier _ fun empty => nonempty ?_
    rw [← length_eq_zero_iff, here.length, empty, length_nil]
  | preempt victim running waiting cache runs =>
    refine held.free balanced _ rfl fun k x other known keeps => ⟨known, ?_⟩
    refine keeps.imp_left fun member => ?_
    exact (mem_cons.mp (runs.mem_iff.mp member)).resolve_left (inv.apart known other)
  | run r n newBlocks kv spec member nonzero bound short least trimmed alloc =>
    have granted := KVCacheManager.allocateSlots_granted balanced (nodup r)
      (fun hits given => (by cases given)) alloc
    exact held.aside granted.aside.soles (fun _ _ _ known keeps => ⟨known, keeps⟩)
      fun _ _ _ => ⟨r, link.queued r (mem_append_right _ member), .inl member⟩
  | wake => exact held.same rfl fun _ _ known keeps => ⟨known, keeps⟩
  | arrive r blockIds received kv arrived waits status connected obtained count cached =>
    exact held.cached balanced cached fun _ _ known keeps => ⟨known, keeps⟩
  | start r computed connector informed n encoderTokens numCached newBlocks kv waiting waits status
      starts =>
    have granted := starts.granted nodup balanced
    have queued : r ∈ s.waiting ++ s.running :=
      mem_append_left _ (waits.mem_iff.mpr (mem_cons_self ..))
    refine held.aside granted.aside.soles
      (fun _ _ _ known keeps => ⟨known, keeps.imp_left (mem_append_left _)⟩)
      fun _ _ _ => ⟨r, link.queued r queued, .inl ?_⟩
    exact mem_append_right _ (mem_singleton.mpr rfl)
  | park r computed connector informed encoderTokens newBlocks kv waiting waits perm parks =>
    exact (parks.never synchronous.loadsInStep).elim

end Held

namespace Engine

variable [DecidableEq H]
  {allowed : Engine H C M → Op → Prop}

/-- In every run with fresh ids, blocks are held for running and pinned requests only. -/
theorem Visited.held (acyclic : cfg.hasher.Acyclic)
    (synchronous : cfg.Synchronous) (fresh : ∀ a op, allowed a op → a.FreshIds op)
    (visited : Visited cfg connector allowed s) : Held s := by
  induction visited with
  | start => exact .init cfg connector
  | add _ permitted done ih => exact ih.addRequest (fresh _ _ permitted) done
  | reset _ _ ih => exact ih
  | change before _ step ih =>
    have balanced := before.balanced acyclic
    cases step with
    | move step => exact ih.move synchronous balanced before.queueInv step
    | loop step =>
      exact ih.loopMove synchronous (fun r => (before.chained r).nodup acyclic) balanced
        before.queueInv (before.link fresh) step
    | advance scheduled reserved known eq =>
      rw [eq]
      exact ih.same rfl fun _ _ known keeps => ⟨known, keeps⟩

/-- Under the other policies nothing is pinned. -/
theorem Visited.pinned_eq_nil (other : cfg.policy ≠ .mimir)
    (visited : Visited cfg connector allowed s) : s.pinnedRequests = [] := by
  induction visited with
  | start => rfl
  | add _ _ done ih =>
    obtain ⟨_, _, _, _, rfl⟩ := addRequest_spec done
    exact ih
  | reset _ _ ih => exact ih
  | change _ _ step ih =>
    cases step with
    | loop step => rw [step.frame.pinned]; exact ih
    | advance scheduled reserved known eq => rw [eq]; exact ih
    | move step =>
      cases step with
      | retire r req b notes outcome ends =>
        -- Only the policy that pins can end a request with a pin.
        cases outcome with
        | pinned => exact absurd ends.allowed other
        | freed => exact ih
        | delayed => exact ih
      | unpin before r expiry t after clock due found =>
        rw [ih] at found
        simp at found
      | expire before r expiry t after clock due found =>
        rw [ih] at found
        simp at found
      | _ => exact ih

end Engine

section Expiry

variable {now : PyFloat}

namespace Scheduler

/-- Expiring the pin of a finished request never raises. -/
theorem expirePin_eq (finished : (s.objs r).isFinished = true) :
    s.expirePin r = .ok (if (s.objs r).requestId ∈ s.requests.keys then s.release r else s) := by
  unfold expirePin
  split
  · rename_i present
    exact freeBlocks_ok finished present
  · rfl

/-- Expiring pins of finished requests succeeds, and the pins still running stay. -/
theorem expirePinsLoop_ok (now : PyFloat) (s : Scheduler H C) (rest still : List (Ref × PyFloat))
    (finished : ∀ p ∈ rest, (s.objs p.1).isFinished = true) :
    ∃ s', expirePinsLoop now s rest still = .ok s' ∧ s'.waiting = s.waiting ∧
      s'.running = s.running ∧
      s'.pinnedRequests = still ++ rest.filter fun p => !p.2.le now := by
  -- The induction is on the pins not yet visited; freeing one changes no request object.
  induction rest generalizing s still with
  | nil => exact ⟨_, rfl, rfl, rfl, by simp⟩
  | cons entry rest ih =>
    rcases entry with ⟨r, expiry⟩
    have later : ∀ p ∈ rest, (s.objs p.1).isFinished = true := fun p member =>
      finished p (mem_cons_of_mem _ member)
    unfold expirePinsLoop
    cases due : expiry.le now with
    | false =>
      obtain ⟨s', done, waiting, running, pins⟩ := ih s (still ++ [(r, expiry)]) later
      refine ⟨s', done, waiting, running, ?_⟩
      rw [pins, filter_cons_of_pos (by simp [due]), append_assoc]
      rfl
    | true =>
      rw [expirePin_eq (finished (r, expiry) (mem_cons_self ..))]
      -- Released or not, the queues and the request objects are those of before.
      set s₁ := if (s.objs r).requestId ∈ s.requests.keys then s.release r else s with s₁_def
      have kept : s₁.objs = s.objs ∧ s₁.waiting = s.waiting ∧ s₁.running = s.running := by
        rw [s₁_def]
        split <;> exact ⟨rfl, rfl, rfl⟩
      obtain ⟨s', done, waiting, running, pins⟩ := ih s₁ still
        (by rw [kept.1]; exact later)
      refine ⟨s', done, waiting.trans kept.2.1, running.trans kept.2.2, ?_⟩
      rw [pins, filter_cons_of_neg (by simp [due])]

/-- No group has blocks for an id. -/
def Vacant (s : Scheduler H C) (id : RequestId) : Prop :=
  ∀ m ∈ s.kvCacheManager.managers, m.blocksOf id = []

variable [DecidableEq H]

/-- Releasing a request empties its lists and fills none. -/
theorem Vacant.release (balanced : s.kvCacheManager.Balanced cfg.kv)
    (vacant : id = (s.objs r).requestId ∨ s.Vacant id) : (s.release r).Vacant id := by
  obtain ⟨_, aside, freed⟩ := balanced.free (s.objs r).requestId
  intro m' member
  obtain ⟨m, earlier, here⟩ := exists_of_forall₂ freed member
  by_cases same : id = (s.objs r).requestId
  · rw [same]; exact here.noBlocks
  · rw [here.blocks id same]
    exact vacant.resolve_left same m earlier

/-- When pins expire, the blocks of every pin that is due go. -/
theorem expirePinsLoop_vacant {rest still : List (Ref × PyFloat)}
    (balanced : s.kvCacheManager.Balanced cfg.kv)
    (known : ∀ id, id ∉ s.requests.keys → s.Vacant id)
    (finished : ∀ p ∈ rest, (s.objs p.1).isFinished = true)
    (done : expirePinsLoop now s rest still = .ok s')
    (gone : s.Vacant id ∨ ∃ p ∈ rest, p.2.le now = true ∧ (s.objs p.1).requestId = id) :
    s'.Vacant id := by
  induction rest generalizing s still with
  | nil =>
    cases done
    rcases gone with vacant | ⟨p, member, _⟩
    · exact vacant
    · cases member
  | cons entry rest ih =>
    rcases entry with ⟨r, expiry⟩
    have later : ∀ p ∈ rest, (s.objs p.1).isFinished = true := fun p member =>
      finished p (mem_cons_of_mem _ member)
    unfold expirePinsLoop at done
    cases due : expiry.le now with
    | false =>
      rw [due] at done
      refine ih balanced known later done (gone.imp_right ?_)
      rintro ⟨p, member, passed, named⟩
      rcases mem_cons.mp member with rfl | member
      · rw [due] at passed; cases passed
      · exact ⟨p, member, passed, named⟩
    | true =>
      rw [due, expirePin_eq (finished (r, expiry) (mem_cons_self ..))] at done
      -- The entry at hand is vacant now: freed, or not held to begin with.
      set s₁ := if (s.objs r).requestId ∈ s.requests.keys then s.release r else s with s₁_def
      have objs : s₁.objs = s.objs := by
        rw [s₁_def]
        split <;> rfl
      have balanced₁ : s₁.kvCacheManager.Balanced cfg.kv := by
        rw [s₁_def]
        split
        · exact (balanced.free _).1
        · exact balanced
      have vacant₁ : ∀ k, k = (s.objs r).requestId ∨ s.Vacant k → s₁.Vacant k := by
        intro k either
        rw [s₁_def]
        split
        · exact Vacant.release balanced either
        · rename_i absent
          rcases either with rfl | vacant
          · exact known _ absent
          · exact vacant
      have known₁ : ∀ k, k ∉ s₁.requests.keys → s₁.Vacant k := by
        intro k absent
        apply vacant₁
        by_cases same : k = (s.objs r).requestId
        · exact .inl same
        · refine .inr (known k fun present => absent ?_)
          rw [s₁_def]
          split
          · exact PyDict.mem_keys_erase.mpr ⟨same, present⟩
          · exact present
      refine ih balanced₁ known₁ (by rw [objs]; exact later) done ?_
      rcases gone with vacant | ⟨p, member, passed, named⟩
      · exact .inl (vacant₁ id (.inr vacant))
      · rcases mem_cons.mp member with rfl | member
        · exact .inl (vacant₁ id (.inl named.symm))
        · exact .inr ⟨p, member, passed, by rw [objs]; exact named⟩

omit [DecidableEq H] in
/-- With nothing running and nothing planned, the end of `schedule` leaves the KV cache alone. -/
theorem finishSchedule_idle (noConnector : cfg.connector = none)
    (budget : 0 ≤ cfg.maxNumScheduledTokens) (running : s.running = []) (loras : List Int) :
    ∃ out s', finishSchedule cfg ⟨s, { initialPlan cfg with scheduledLoras := loras }⟩ =
      .ok (out, s') ∧ s'.kvCacheManager = s.kvCacheManager := by
  have checked : checkConstraints cfg ⟨s, { initialPlan cfg with scheduledLoras := loras }⟩ =
      .ok () := by
    simp [checkConstraints, initialPlan, PyDict.values, PyDict.empty, require, running, budget, bind,
      Except.bind]
  obtain ⟨out, built, none⟩ : ∃ out : SchedulerOutput M,
      schedulerOutput cfg ⟨s, { initialPlan cfg with scheduledLoras := loras }⟩ = .ok out ∧
        out.numScheduledTokens = .empty := by
    unfold schedulerOutput commonPrefixBlocks
    simp only [running]
    exact ⟨_, rfl, rfl⟩
  have advanced : ∀ s₂ : Scheduler H C,
      updateAfterSchedule cfg out.numScheduledTokens.items s₂ = .ok s₂ := by
    intro s₂
    rw [none]
    show (if cfg.asyncScheduling then Except.ok s₂ else Except.ok s₂) = _
    split <;> rfl
  refine ⟨out, { s with
    encoderCacheManager := { s.encoderCacheManager with freed := [] }, finishedReqIds := [] }, ?_, rfl⟩
  unfold finishSchedule
  have back : putBackSkipped cfg ⟨s, { initialPlan cfg with scheduledLoras := loras }⟩ =
      .ok ⟨s, { initialPlan cfg with scheduledLoras := loras }⟩ := rfl
  simp only [back, checked, built, attachConnectorMeta, noConnector, advanced, bind, Except.bind]

/-- Without queued requests `schedule` only lets pins expire. -/
theorem schedule_idle (noConnector : cfg.connector = none)
    (budget : 0 ≤ cfg.maxNumScheduledTokens) {env : ScheduleEnv} {s₁ : Scheduler H C}
    (expired : s.expirePins cfg env.now = .ok s₁) (waiting : s₁.waiting = [])
    (running : s₁.running = []) :
    ∃ out s', s.schedule cfg env = .ok (out, s') ∧ s'.kvCacheManager = s₁.kvCacheManager := by
  -- Both loops end at once, with the plan they start from.
  have first : scheduleRunning cfg 0 ⟨s₁, initialPlan cfg⟩ = .ok ⟨s₁, initialPlan cfg⟩ := by
    simp [scheduleRunning, running]
  obtain ⟨loras, recorded⟩ : ∃ loras, recordLoras cfg ⟨s₁, initialPlan cfg⟩ =
      .ok ⟨s₁, { initialPlan cfg with scheduledLoras := loras }⟩ := by
    unfold recordLoras
    cases cfg.maxLoras with
    | none => exact ⟨[], rfl⟩
    | some => exact ⟨[], rfl⟩
  have second : scheduleWaiting cfg env 0 ⟨s₁, { initialPlan cfg with scheduledLoras := loras }⟩ =
      .ok ⟨s₁, { initialPlan cfg with scheduledLoras := loras }⟩ := by
    simp [scheduleWaiting, waiting]
  have loops : scheduleLoops cfg env s =
      .ok ⟨s₁, { initialPlan cfg with scheduledLoras := loras }⟩ := by
    unfold scheduleLoops
    simp only [expired, bind, Except.bind, running, length_nil, first, recorded, waiting, second]
    rfl
  obtain ⟨out, s', done, kv⟩ := finishSchedule_idle noConnector budget running loras
  refine ⟨out, s', ?_, kv⟩
  unfold schedule
  simp only [loops, bind, Except.bind]
  exact done

end Scheduler

end Expiry

namespace Engine

variable [DecidableEq H] {e : Engine H C M}

/-- Without unfinished requests, a step after the last pin ran out gives all blocks back. -/
theorem idle_schedule (acyclic : cfg.hasher.Acyclic) (noConnector : cfg.connector = none)
    (verified : cfg.Verified)
    (reached : Reachable cfg connector (fun a op => a.FreshIds op) e) (env : ScheduleEnv)
    (waiting : e.sched.waiting = []) (running : e.sched.running = [])
    (due : ∀ p ∈ e.sched.pinnedRequests, p.2.le env.now = true) :
    ∃ e', e.exec cfg (.schedule env) = .ok e' ∧
      e'.sched.kvCacheManager.blockPool.getNumFreeBlocks = cfg.kv.numBlocks - 1 ∧
      e'.sched.resetPrefixCache.1 = true := by
  have visited := reached.visited
  have finished : ∀ p ∈ e.sched.pinnedRequests, (e.sched.objs p.1).isFinished = true :=
    fun p member => (visited.queueInv.pinned p member).2
  -- After the expiry nobody is left who could hold blocks.
  obtain ⟨s₁, expired, waiting₁, running₁, pins₁⟩ : ∃ s₁, e.sched.expirePins cfg env.now = .ok s₁ ∧
      s₁.waiting = [] ∧ s₁.running = [] ∧ s₁.pinnedRequests = [] := by
    unfold expirePins
    split
    · obtain ⟨s₁, done, waiting₁, running₁, pins₁⟩ :=
        expirePinsLoop_ok env.now e.sched e.sched.pinnedRequests [] finished
      refine ⟨s₁, done, waiting₁.trans waiting, running₁.trans running, ?_⟩
      rw [pins₁, nil_append, filter_eq_nil_iff]
      intro p member
      simp [due p member]
    · rename_i other
      exact ⟨e.sched, rfl, waiting, running, visited.pinned_eq_nil other⟩
  have moves := (expirePins_sat env.now e.sched).post_of_ok expired
  have permitted : e.FreshIds (.schedule env) := trivial
  have visited₁ : Visited cfg connector (fun a op => a.FreshIds op) s₁ :=
    visited.changes permitted moves.changes
  have empty : ∀ m ∈ s₁.kvCacheManager.managers, ∀ id, m.blocksOf id = [] := by
    intro m member id
    by_contra nonempty
    have held := visited₁.held acyclic (Config.synchronous_of_none noConnector) fun _ _ h => h
    obtain ⟨r, _, keeps⟩ := held m member id nonempty
    unfold Scheduler.Keeps at keeps
    rw [running₁, pins₁] at keeps
    simp at keeps
  obtain ⟨out, s', done, kv⟩ :=
    schedule_idle noConnector (le_trans (Int.natCast_nonneg _) verified) expired waiting₁
      running₁
  obtain ⟨free, reset⟩ := (visited₁.balanced acyclic).all_free empty
  refine ⟨{ e with sched := s', scheduled := e.scheduled ++ [out] }, ?_, ?_, ?_⟩
  · simp only [exec, done, bind, Except.bind]
  · show s'.kvCacheManager.blockPool.freeBlockQueue.length = _
    rw [kv]
    exact free
  · show s'.kvCacheManager.resetPrefixCache.1 = true
    rw [kv]
    exact reset

/-- Every block is accounted for: counted by the lists, held for running and pinned requests,
given back when the pin runs out, and all free in an idle engine. -/
theorem blocks_accounted (acyclic : cfg.hasher.Acyclic) (noConnector : cfg.connector = none)
    (verified : cfg.Verified)
    (reached : Reachable cfg connector (fun a op => a.FreshIds op) e) :
    (∀ b, b ≠ nullBlock → (e.sched.kvCacheManager.blockPool.blocks b).refCnt =
      occurrences e.sched.kvCacheManager.managers b) ∧
    (∀ m ∈ e.sched.kvCacheManager.managers, ∀ id, m.blocksOf id ≠ [] →
      ∃ r, e.sched.requests.get? id = some r ∧
        (r ∈ e.sched.running ∨ r ∈ e.sched.pinnedRequests.map Prod.fst)) ∧
    (∀ now, ∃ s', e.sched.mimirExpirePins now = .ok s' ∧
      ∀ p ∈ e.sched.pinnedRequests, p.2.le now = true →
        s'.Vacant (e.sched.objs p.1).requestId) ∧
    (∀ env, e.sched.waiting = [] → e.sched.running = [] →
      (∀ p ∈ e.sched.pinnedRequests, p.2.le env.now = true) →
      ∃ e', e.exec cfg (.schedule env) = .ok e' ∧
        e'.sched.kvCacheManager.blockPool.getNumFreeBlocks = cfg.kv.numBlocks - 1 ∧
        e'.sched.resetPrefixCache.1 = true) := by
  have visited := reached.visited
  have balanced := visited.balanced acyclic
  have held : Held e.sched := visited.held acyclic (Config.synchronous_of_none noConnector)
    fun _ _ h => h
  refine ⟨fun b real => balanced.refCnt_eq real, held, fun now => ?_,
    fun env => idle_schedule acyclic noConnector verified reached env⟩
  have finished : ∀ p ∈ e.sched.pinnedRequests, (e.sched.objs p.1).isFinished = true :=
    fun p member => (visited.queueInv.pinned p member).2
  obtain ⟨s', done, _⟩ :=
    expirePinsLoop_ok now e.sched e.sched.pinnedRequests [] finished
  refine ⟨s', done, fun p member due => ?_⟩
  -- An id that leads nowhere has no blocks, so an expired pin leaves none either way.
  have known : ∀ id, id ∉ e.sched.requests.keys → e.sched.Vacant id := by
    intro id absent m member
    by_contra nonempty
    obtain ⟨r, found, _⟩ := held m member id nonempty
    exact absent (PyDict.mem_keys_iff.mpr ⟨r, found⟩)
  exact expirePinsLoop_vacant balanced known finished done
    (.inr ⟨p, member, due, rfl⟩)

/-- An agent turn leaves the engine idle with one pin; when it runs out, every block is free. -/
theorem blocks_accounted_pinnedTurn :
    ∃ e e' : Engine FreeHash Unit Unit,
      Reachable smallConfig () (fun a op => a.FreshIds op) e ∧
      e.sched.pinnedRequests = [(0, .fin 2)] ∧
      e.exec smallConfig (.schedule (atTime 2)) = .ok e' ∧
      e'.sched.kvCacheManager.blockPool.getNumFreeBlocks = 15 ∧
      e'.sched.resetPrefixCache.1 = true := by
  obtain ⟨e, before, waiting, running, pins⟩ : ∃ e,
      (init smallConfig ()).run smallConfig (fun a op => a.FreshIds op) pinnedTurn = .ok e ∧
      e.sched.waiting = [] ∧ e.sched.running = [] ∧ e.sched.pinnedRequests = [(0, .fin 2)] := by
    decide +kernel
  have reached : Reachable smallConfig () (fun a op => a.FreshIds op) e := steps_of_run before
  have due : ∀ p ∈ e.sched.pinnedRequests, p.2.le (atTime 2).now = true := by
    rw [pins]
    decide +kernel
  obtain ⟨e', done, free, reset⟩ := (blocks_accounted freeHasher_collisionFree.acyclic rfl
    (by unfold Config.Verified; decide) reached).2.2.2 (atTime 2) waiting running due
  exact ⟨e, e', reached, pins, done, free, reset⟩

end Engine

end Mimir
