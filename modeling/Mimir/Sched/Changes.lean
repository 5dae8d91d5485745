import Mimir.Sched.Loops
import Mimir.Sched.QueueInv

/-! Every operation of the engine as a sequence of elementary changes of the scheduler's state. -/

namespace Mimir

open Python Scheduler List

variable {H C M : Type} {req : Request H} {n : Int} {cfg : Config H C M} {env : ScheduleEnv} {scope : Scope}
  {f : Frame H C} {items : List (RequestId × Int)} {out : SchedulerOutput M} {s s' : Scheduler H C}
  {r : Ref} {id : RequestId}

section Definitions

/-- The elementary changes that only the scheduling loops make. -/
inductive LoopMove [DecidableEq H] (cfg : Config H C M) : Scheduler H C → Scheduler H C → Prop
  | allocFail (s : Scheduler H C) (r : Ref) (args : KVCacheManager.AllocArgs) (kv : KVCacheManager H)
      (queued : r ∈ s.waiting ++ s.running)
      (alloc : s.kvCacheManager.allocateSlots cfg.kv (s.objs r) args = .ok (none, kv)) :
      LoopMove cfg s { s with kvCacheManager := kv }
  | preempt (s : Scheduler H C) (victim : Ref) (running waiting : List Ref)
      (cache : EncoderCacheManager) (runs : s.running.Perm (victim :: running))
      (waits : waiting.Perm (victim :: s.waiting)) :
      LoopMove cfg s { s with
        running
        waiting
        kvCacheManager := s.kvCacheManager.free (s.objs victim).requestId
        encoderCacheManager := cache
        objs := Function.update s.objs victim
          { s.objs victim with status := .preempted, numComputedTokens := 0 }
        history := .released victim :: s.history }
  | run (s : Scheduler H C) (r : Ref) (numNewTokens : Int) (newBlocks : List (List BlockId))
      (kv : KVCacheManager H) (specTokenIds : List TokenId) (member : r ∈ s.running)
      (nonzero : numNewTokens ≠ 0)
      (bound : numNewTokens ≤ (s.objs r).numTokensWithSpec + (s.objs r).numOutputPlaceholders -
        (s.objs r).numComputedTokens)
      (short : numNewTokens ≤ cfg.kv.maxModelLen - 1 - (s.objs r).numComputedTokens)
      (least : 0 < numNewTokens ∨
        min ((s.objs r).numTokensWithSpec + (s.objs r).numOutputPlaceholders)
          (cfg.kv.maxModelLen - 1) ≤ (s.objs r).numComputedTokens + numNewTokens)
      (trimmed : specTokenIds <+: (s.objs r).specTokenIds)
      (alloc : s.kvCacheManager.allocateSlots cfg.kv (s.objs r) (runningAllocArgs cfg numNewTokens) =
        .ok (some newBlocks, kv)) :
      LoopMove cfg s { s with
        kvCacheManager := kv
        objs := Function.update s.objs r { s.objs r with specTokenIds }
        history := .granted r newBlocks :: s.history }
  | wake (s : Scheduler H C) (r : Ref) (waits : r ∈ s.waiting)
      (status : (s.objs r).status = .waitingForFsm) : LoopMove cfg s (s.setStatus r .waiting)
  | arrive (s : Scheduler H C) (r : Ref) (blockIds : List BlockId) (received : Int)
      (kv : KVCacheManager H) (arrived : List RequestId) (waits : r ∈ s.waiting)
      (status : (s.objs r).status = .waitingForRemoteKvs) (connected : cfg.connector.isSome)
      (held : s.kvCacheManager.getBlocks (s.objs r).requestId = [blockIds])
      (count : received = min (blockIds.length * cfg.blockSize : Int) (s.objs r).numTokens)
      (cached : s.kvCacheManager.cacheBlocks cfg.kv (s.objs r)
        (if received = (s.objs r).numTokens then received - 1 else received) = .ok kv) :
      LoopMove cfg s { s with
        kvCacheManager := kv
        finishedRecvingKvReqIds := arrived
        objs := Function.update s.objs r { s.objs r with
          numComputedTokens := if received = (s.objs r).numTokens then received - 1 else received
          status := .waiting } }
  | start (s : Scheduler H C) (r : Ref) (computed : Scheduler.Computed) (connector informed : C)
      (numNewTokens encoderTokens numCachedTokens : Int) (newBlocks : List (List BlockId))
      (kv : KVCacheManager H) (waiting : List Ref) (waits : s.waiting.Perm (r :: waiting))
      (status : (s.objs r).status = .waiting ∨ (s.objs r).status = .preempted)
      (starts : s.Starts cfg r computed connector numNewTokens encoderTokens newBlocks kv) :
      LoopMove cfg s { s with
        connector := informed
        kvCacheManager := kv
        waiting
        running := s.running ++ [r]
        objs := Function.update s.objs r { s.objs r with
          status := .running
          numComputedTokens := computed.numComputedTokens
          numCachedTokens }
        history := .started r computed.numNewLocalComputedTokens
            computed.numExternalComputedTokens ::
          .granted r (obtainedBlocks computed newBlocks) :: s.history }
  | park (s : Scheduler H C) (r : Ref) (computed : Scheduler.Computed) (connector informed : C)
      (encoderTokens : Int) (newBlocks : List (List BlockId)) (kv : KVCacheManager H)
      (waiting : List Ref) (waits : r ∈ s.waiting) (perm : waiting.Perm s.waiting)
      (parks : s.Parks cfg r computed connector encoderTokens newBlocks kv) :
      LoopMove cfg s { s with
        connector := informed
        kvCacheManager := kv
        waiting
        objs := Function.update s.objs r { s.objs r with status := .waitingForRemoteKvs }
        history := .granted r (obtainedBlocks computed newBlocks) :: s.history }

/-- The state in which the tokens of a step count as computed, with placeholders for its outputs. -/
def Scheduler.advance (s : Scheduler H C) (scheduled reserved : Ref → Int) : Scheduler H C :=
  { s with
    objs := fun r => { s.objs r with
      numComputedTokens := (s.objs r).numComputedTokens + scheduled r
      numOutputPlaceholders := (s.objs r).numOutputPlaceholders + reserved r } }

/-- An elementary change: outside the scheduling loops, inside them, or at the end of a step. -/
inductive Change [DecidableEq H] (cfg : Config H C M) (scope : Scope) (s s' : Scheduler H C) : Prop
  | move (step : Move cfg scope s s')
  | loop (step : LoopMove cfg s s')
  | advance (scheduled reserved : Ref → Int)
      (known : ∀ r, scheduled r ≠ 0 → s.requests.get? (s.objs r).requestId = some r)
      (eq : s' = s.advance scheduled reserved)

/-- A sequence of elementary changes. -/
abbrev Changes [DecidableEq H] (cfg : Config H C M) (scope : Scope) :
    Scheduler H C → Scheduler H C → Prop :=
  Relation.ReflTransGen (Change cfg scope)

/-- The state with the skipped requests back among the waiting ones. -/
def Frame.flat (f : Frame H C) : Scheduler H C :=
  { f.sched with waiting := f.plan.skippedWaitingRequests ++ f.sched.waiting }

variable {budget : Int}

/-- The bounds behind the number of tokens of a running request. -/
theorem Scheduler.runningNewTokens_le (bound : n ≤ runningNewTokens cfg req budget) :
    n ≤ req.numTokensWithSpec + req.numOutputPlaceholders - req.numComputedTokens ∧
      n ≤ cfg.kv.maxModelLen - 1 - req.numComputedTokens := by
  unfold runningNewTokens at bound
  have outer := bound.trans (min_le_left _ _)
  have wanted := outer.trans (min_le_left _ _)
  refine ⟨?_, bound.trans (min_le_right _ _)⟩
  unfold capLongPrefill at wanted
  split at wanted
  · omega
  · exact wanted

/-- Without room for all tokens a positive budget leaves some; otherwise a request gets to its end. -/
theorem Scheduler.runningNewTokens_least
    (least : 0 < n ∨ (0 < budget ∧ n = runningNewTokens cfg req budget)) :
    0 < n ∨ min (req.numTokensWithSpec + req.numOutputPlaceholders) (cfg.kv.maxModelLen - 1) ≤
      req.numComputedTokens + n := by
  rcases least with positive | ⟨room, eq⟩
  · exact .inl positive
  · unfold runningNewTokens capLongPrefill at eq
    split at eq <;> omega

end Definitions

section Loops

variable [DecidableEq H]

/-- Moves are changes. -/
theorem Moves.changes (moves : Moves cfg scope s s') : Changes cfg scope s s' := by
  induction moves with
  | refl => exact .refl
  | tail _ last ih => exact ih.tail (.move last)

/-- What a change inside the loops leaves alone: who is queued, known and pinned, and what was sent. -/
structure LoopMove.Frame (s s' : Scheduler H C) : Prop where
  requests : s'.requests = s.requests
  pinned : s'.pinnedRequests = s.pinnedRequests
  nextRef : s'.nextRef = s.nextRef
  queued : (s'.waiting ++ s'.running).Perm (s.waiting ++ s.running)
  fixed : ∀ r, (s'.objs r).fixed = (s.objs r).fixed
  output : ∀ r, (s'.objs r).outputTokenIds = (s.objs r).outputTokenIds
  hashes : ∀ r, (s'.objs r).blockHashes = (s.objs r).blockHashes
  /-- Requests outside the queues are left alone. -/
  outside : ∀ r ∉ s.waiting ++ s.running, s'.objs r = s.objs r

omit [DecidableEq H] in
/-- The frame of a change of one queued request. -/
theorem LoopMove.Frame.update
    (member : r ∈ s.waiting ++ s.running) (objs : s'.objs = Function.update s.objs r req)
    (same : (req.fixed, req.outputTokenIds, req.blockHashes) =
      ((s.objs r).fixed, (s.objs r).outputTokenIds, (s.objs r).blockHashes))
    (rest : (s'.requests, s'.pinnedRequests, s'.nextRef) = (s.requests, s.pinnedRequests, s.nextRef))
    (queued : (s'.waiting ++ s'.running).Perm (s.waiting ++ s.running)) : LoopMove.Frame s s' := by
  simp only [Prod.mk.injEq] at same rest
  refine ⟨rest.1, rest.2.1, rest.2.2, queued, ?_, ?_, ?_, fun x outside => ?_⟩ <;> rw [objs]
  · exact update_field _ same.1
  · exact update_field _ same.2.1
  · exact update_field _ same.2.2
  · have other : x ≠ r := by rintro rfl; exact outside member
    exact Function.update_of_ne other ..

/-- The changes inside the loops move requests between queues and nothing more. -/
theorem LoopMove.frame (step : LoopMove cfg s s') : LoopMove.Frame s s' := by
  cases step with
  | allocFail =>
    exact ⟨rfl, rfl, rfl, .refl _, fun _ => rfl, fun _ => rfl, fun _ => rfl, fun _ _ => rfl⟩
  | preempt victim running waiting cache runs waits =>
    refine .update (mem_append_right _ (runs.mem_iff.mpr mem_cons_self)) rfl rfl rfl ?_
    calc (waiting ++ running).Perm ((victim :: s.waiting) ++ running) := waits.append_right _
      _ |>.Perm (s.waiting ++ victim :: running) := perm_middle.symm
      _ |>.Perm (s.waiting ++ s.running) := runs.symm.append_left _
  | run r n newBlocks kv spec member => exact .update (mem_append_right _ member) rfl rfl rfl (.refl _)
  | wake r waits => exact .update (mem_append_left _ waits) rfl rfl rfl (.refl _)
  | arrive r blockIds received kv arrived waits =>
    exact .update (mem_append_left _ waits) rfl rfl rfl (.refl _)
  | start r computed connector informed n encoderTokens numCached newBlocks kv waiting waits =>
    refine .update (mem_append_left _ (waits.mem_iff.mpr mem_cons_self)) rfl rfl rfl ?_
    calc (waiting ++ (s.running ++ [r])).Perm (waiting ++ r :: s.running) :=
          (perm_append_singleton r s.running).append_left _
      _ |>.Perm ((r :: waiting) ++ s.running) := perm_middle
      _ |>.Perm (s.waiting ++ s.running) := waits.symm.append_right _
  | park r computed connector informed encoderTokens newBlocks kv waiting waits perm =>
    exact .update (mem_append_left _ waits) rfl rfl rfl (perm.append_right _)

/-- What a change inside the loops notes: blocks of a running request that went back, or a grant. -/
theorem LoopMove.history (step : LoopMove cfg s s') :
    ∃ notes, s'.history = notes ++ s.history ∧ ∀ e ∈ notes, (∃ r ∈ s.running, e = .released r) ∨
      (∃ r blocks, e = .granted r blocks) ∨ ∃ r a b, e = .started r a b := by
  cases step with
  | preempt victim running waiting cache runs =>
    have member : victim ∈ s.running := runs.mem_iff.mpr mem_cons_self
    exact ⟨[.released victim], rfl, by simp [member]⟩
  | run r n newBlocks => exact ⟨[.granted r newBlocks], rfl, by simp⟩
  | start r => exact ⟨[.started r _ _, .granted r _], rfl, by simp⟩
  | park r => exact ⟨[.granted r _], rfl, by simp⟩
  | _ => exact ⟨[], rfl, by simp⟩

/-- No change creates a request object. -/
theorem Changes.nextRef (steps : Changes cfg scope s s') : s'.nextRef = s.nextRef := by
  induction steps with
  | refl => rfl
  | tail _ last ih =>
    rw [← ih]
    cases last with
    | move step =>
      cases step with
      | retire => exact retire_nextRef ..
      | _ => rfl
    | loop step => exact step.frame.nextRef
    | advance scheduled reserved known eq => rw [eq]; rfl

/-- No change changes what was sent. -/
theorem Change.fixed (step : Change cfg scope s s') (r : Ref) :
    (s'.objs r).fixed = (s.objs r).fixed := by
  cases step with
  | move step => exact step.fixed r
  | loop step => exact step.frame.fixed r
  | advance scheduled reserved known eq => rw [eq]; rfl

/-- A change of bookkeeping. -/
theorem Change.book (s : Scheduler H C) (b : Bookkeeping C)
    (told : scope.step ∨ cfg.Notified s.connector b.connector)
    (unrecorded : b.jobToolHistory = s.jobToolHistory) : Change cfg scope s (s.book b []) :=
  .move (.book s b told unrecorded)

/-- What waiting for remote blocks or for a grammar changes. -/
theorem readyToSchedule_change {answer : Bool} (scope : Scope)
    (done : s.readyToSchedule cfg env r = .ok (answer, s')) {waiting : List Ref}
    (member : r ∈ waiting) :
    Move cfg scope { s with waiting } { s' with waiting } ∨
      LoopMove cfg { s with waiting } { s' with waiting } := by
  cases readyToSchedule_readied done with
  | same => exact .inl (.book _ s.bookkeeping (.inr (.inl rfl)) rfl)
  | woken status => exact .inr (.wake { s with waiting } r member status)
  | loaded blockIds received kv status connected held count cached =>
    exact .inr (.arrive _ r blockIds received kv _ member status connected held count cached)

variable {f' : Frame H C}

omit [DecidableEq H] in
/-- A request that is put aside is among the same requests. -/
theorem Frame.PutsAside.flat (aside : f.PutsAside cfg f' r) :
    (f'.plan.skippedWaitingRequests ++ f'.sched.waiting).Perm f.flat.waiting :=
  calc (f'.plan.skippedWaitingRequests ++ f'.sched.waiting).Perm
        ((r :: f.plan.skippedWaitingRequests) ++ f'.sched.waiting) := aside.skipped.append_right _
    _ |>.Perm (f.plan.skippedWaitingRequests ++ r :: f'.sched.waiting) := perm_middle.symm
    _ |>.Perm f.flat.waiting := aside.waiting.symm.append_left _

/-- A step of the scheduling loops is one change of the state with the skipped requests put back. -/
theorem LoopStep.moves (scope : Scope) (inStep : scope.step) (step : LoopStep cfg env f f') :
    Move cfg scope f.flat f'.flat ∨ LoopMove cfg f.flat f'.flat := by
  cases step with
  | minor cache =>
    exact .inl <| .book f.flat { f.flat.bookkeeping with encoderCacheManager := cache } (.inl inStep) rfl
  | consult r answer connector =>
    exact .inl <| .book f.flat { f.flat.bookkeeping with connector } (.inl inStep) rfl
  | allocFail r args kv queued unstarted sized alloc =>
    refine .inr (.allocFail f.flat r args kv ?_ alloc)
    rcases mem_append.mp queued with waits | runs
    · exact mem_append_left _ (mem_append_right _ waits)
    · exact mem_append_right _ runs
  | preempt f' victim early fifo what =>
    obtain ⟨cache, state⟩ := what.state
    have skipped : f'.plan.skippedWaitingRequests = f.plan.skippedWaitingRequests := by
      rw [what.plan]
    have waits : (f'.plan.skippedWaitingRequests ++ f'.sched.waiting).Perm
        (victim :: f.flat.waiting) := by
      rw [skipped]
      exact (what.waiting.append_left _).trans perm_middle
    have move : LoopMove cfg f.flat _ :=
      .preempt f.flat victim f'.sched.running _ cache what.running waits
    refine .inr ?_
    unfold Frame.flat at move ⊢
    rw [state]
    exact move
  | run r n newBlocks kv drafts planned member early fifo nonzero bound least trimmed alloc =>
    obtain ⟨wanted, short⟩ := runningNewTokens_le bound
    exact .inr (.run f.flat r n newBlocks kv drafts member nonzero wanted short
      (runningNewTokens_least least) trimmed alloc)
  | ready r answer s front done =>
    have waits : r ∈ f.sched.waiting := mem_of_mem_head? front
    have change := readyToSchedule_change scope done
      (mem_append_right f.plan.skippedWaitingRequests waits)
    have same : s.waiting = f.sched.waiting := (readyToSchedule_queues done).1
    unfold Frame.flat
    rw [same]
    exact change
  | skip f' r aside state =>
    refine .inl ?_
    have move : Move cfg scope f.flat _ := .reorder f.flat _ aside.flat
    unfold Frame.flat at move ⊢
    rw [state]
    exact move
  | start f' r computed connector n encoderTokens newBlocks kv calm starts started =>
    obtain ⟨numCached, state⟩ := started.state
    have waits : f.flat.waiting.Perm (r :: (f.plan.skippedWaitingRequests ++ f'.sched.waiting)) :=
      (started.waiting.append_left _).trans perm_middle
    have status : (f.sched.objs r).status = .waiting ∨ (f.sched.objs r).status = .preempted :=
      started.noted.imp And.left And.left
    have move : LoopMove cfg f.flat _ := .start f.flat r computed connector
      (cfg.informed connector (f.sched.objs r) computed newBlocks) n encoderTokens numCached newBlocks
      kv _ waits status ⟨⟨starts.asked, starts.alloc⟩, starts.sync, starts.positive, starts.bound⟩
    refine .inr ?_
    unfold Frame.flat at move ⊢
    rw [started.skipped, state]
    exact move
  | park f' r computed connector encoderTokens newBlocks kv parks aside state =>
    have move : LoopMove cfg f.flat _ := .park f.flat r computed connector
      (cfg.informed connector (f.sched.objs r) computed newBlocks) encoderTokens newBlocks kv _
      (mem_append_right _ aside.waits) aside.flat
      ⟨⟨parks.asked, parks.alloc⟩, parks.async, parks.external⟩
    refine .inr ?_
    unfold Frame.flat at move ⊢
    rw [state]
    exact move

/-- The scheduling loops are sequences of changes. -/
theorem LoopSteps.changes (inStep : scope.step) (steps : LoopSteps cfg env f f') :
    Changes cfg scope f.flat f'.flat := by
  induction steps with
  | refl => exact .refl
  | tail _ last ih =>
    rcases last.moves scope inStep with move | loop
    · exact ih.tail (.move move)
    · exact ih.tail (.loop loop)

end Loops

section Finish

/-- The tokens a step computes for a request object, by the entry of its id. -/
def scheduledFor (requests : PyDict RequestId Ref) (items : List (RequestId × Int)) (id : RequestId)
    (r : Ref) : Int :=
  if requests.get? id = some r then (items.lookup id).getD 0 else 0

variable {requests : PyDict RequestId Ref}

/-- Only the request known under an id has tokens scheduled for it. -/
theorem scheduledFor_known (nonzero : scheduledFor requests items id r ≠ 0) :
    requests.get? id = some r := by
  unfold scheduledFor at nonzero
  split at nonzero
  · assumption
  · exact absurd rfl nonzero

/-- A first entry counts for the request it names, and for no other. -/
theorem scheduledFor_cons {rest : List (RequestId × Int)}
    {id' : RequestId} {r' : Ref} (found : requests.get? id = some r)
    (fresh : id ∉ rest.map Prod.fst) (named : r' = r → id' = id) :
    scheduledFor requests ((id, n) :: rest) id' r' =
      (if r' = r then n else 0) + scheduledFor requests rest id' r' := by
  -- An id leads to one request object, so the two conditions agree.
  unfold scheduledFor
  by_cases same : r' = r
  · have eq := named same
    subst same eq
    have absent : rest.lookup id' = none := by
      rw [lookup_eq_none_iff]
      intro item member
      simp only [bne_iff_ne, ne_eq]
      rintro rfl
      exact fresh (mem_map_of_mem member)
    simp [found, absent]
  · by_cases known : requests.get? id' = some r'
    · have other : id' ≠ id := by
        rintro rfl
        exact same (Option.some.inj (known.symm.trans found))
      simp [known, same, PyDict.lookup_cons_ite, other]
    · simp [known, same]

/-- Draft tokens go to unfinished requests of the ids they are proposed for. -/
theorem updateDraftTokenIds_moves [DecidableEq H] {drafts : List (RequestId × List TokenId)}
    (touched : ∀ r, s.named (drafts.map Prod.fst) r → (s.objs r).isFinished = false → scope.touch r)
    (allowed : scope.drafts) : Moves cfg scope s (s.updateDraftTokenIds drafts) := by
  induction drafts generalizing s with
  | nil => exact .refl
  | cons item rest ih =>
    rcases item with ⟨id, tokens⟩
    have later : ∀ r, s.named (rest.map Prod.fst) r → s.named (((id, tokens) :: rest).map Prod.fst) r :=
      fun r ⟨id', member, held⟩ => ⟨id', mem_cons_of_mem _ member, held⟩
    unfold updateDraftTokenIds
    split
    · exact ih fun r name live => touched r (later r name) live
    · rename_i r found
      split
      · exact ih fun r name live => touched r (later r name) live
      · rename_i live
        have here : scope.touch r :=
          touched r ⟨id, mem_cons_self .., found⟩ (by simpa using live)
        refine .head (.adjust s r _ [] here (.draft tokens allowed)) (ih fun r' name live' => ?_)
        apply touched r' (later r' name)
        by_cases same : r' = r
        · subst same; simpa [withObj, Request.isFinished] using live'
        · simpa [withObj, same] using live'

namespace Scheduler

/-- One turn of `_update_after_schedule` changes one request object and the encoder cache. -/
theorem freeEncoderInputs_eq (cfg : Config H C M) (s : Scheduler H C) (r : Ref) :
    ∃ cache, (if (s.objs r).hasEncoderInputs then s.freeEncoderInputs cfg r else s) =
      { s with encoderCacheManager := cache } := by
  split
  · exact ⟨_, rfl⟩
  · exact ⟨s.encoderCacheManager, rfl⟩

/-- `_update_after_schedule` counts the scheduled tokens of each request as computed. -/
theorem advanceComputed_spec (own : ∀ k r, s.requests.get? k = some r → (s.objs r).requestId = k)
    (nodup : (items.map Prod.fst).Nodup) (done : advanceComputed cfg items s = .ok s') :
    ∃ cache, s' = { s with
      encoderCacheManager := cache
      objs := fun r => { s.objs r with
        numComputedTokens := (s.objs r).numComputedTokens +
          scheduledFor s.requests items (s.objs r).requestId r } } := by
  -- The induction is on the entries; each adds to the request its id names.
  induction items generalizing s with
  | nil =>
    cases done
    refine ⟨s'.encoderCacheManager, ?_⟩
    simp [scheduledFor]
  | cons item rest ih =>
    rcases item with ⟨id, n⟩
    obtain ⟨r, found, tail⟩ := bind_eq_ok.mp done
    rw [orRaise_eq_ok] at found
    dsimp only at tail
    set s₁ := s.modifyObj r fun req =>
      { req with numComputedTokens := req.numComputedTokens + n } with s₁_def
    obtain ⟨cache, cleared⟩ := freeEncoderInputs_eq cfg s₁ r
    rw [cleared] at tail
    simp only [map_cons, nodup_cons] at nodup
    have own₁ : ∀ k r', s₁.requests.get? k = some r' → (s₁.objs r').requestId = k := by
      intro k r' held
      by_cases same : r' = r
      · subst same; simpa [s₁_def, modifyObj] using own k r' held
      · simpa [s₁_def, modifyObj, same] using own k r' held
    obtain ⟨cache', eq⟩ := ih (s := { s₁ with encoderCacheManager := cache }) own₁ nodup.2 tail
    refine ⟨cache', eq.trans ?_⟩
    have objs : ∀ r', s₁.objs r' = { s.objs r' with
        numComputedTokens := (s.objs r').numComputedTokens + if r' = r then n else 0 } := by
      intro r'
      by_cases same : r' = r
      · subst same; simp [s₁_def, modifyObj]
      · simp [s₁_def, modifyObj, same]
    have named : ∀ r', r' = r → (s.objs r').requestId = id := by
      rintro r' rfl
      exact own id r' found
    refine congrArg (fun objs : Ref → Request H =>
      ({ s with encoderCacheManager := cache', objs } : Scheduler H C)) ?_
    funext r'
    dsimp only
    rw [objs r', scheduledFor_cons found nodup.1 (named r'), ← add_assoc]
    rfl

/-- Placeholders are added for the requests whose last token is scheduled. -/
theorem reservePlaceholders_spec {ids : List RequestId}
    (own : ∀ k r, s.requests.get? k = some r → (s.objs r).requestId = k) (nodup : ids.Nodup)
    (done : reservePlaceholders ids s = .ok s') :
    s' = { s with
      objs := fun r => { s.objs r with
        numOutputPlaceholders := (s.objs r).numOutputPlaceholders +
          if s.requests.get? (s.objs r).requestId = some r ∧ (s.objs r).requestId ∈ ids ∧
            (s.objs r).numComputedTokens = (s.objs r).numTokens + (s.objs r).numOutputPlaceholders
          then 1 else 0 } } := by
  -- The induction is on the ids; each is about another request.
  induction ids generalizing s with
  | nil =>
    cases done
    simp
  | cons id rest ih =>
    obtain ⟨r, found, tail⟩ := bind_eq_ok.mp done
    rw [orRaise_eq_ok] at found
    dsimp only at tail
    rw [nodup_cons] at nodup
    have ownId := own id r found
    set s₁ : Scheduler H C := { s with
      objs := fun x => { s.objs x with
        numOutputPlaceholders := (s.objs x).numOutputPlaceholders +
          if x = r ∧ (s.objs r).numComputedTokens =
            (s.objs r).numTokens + (s.objs r).numOutputPlaceholders then 1 else 0 } } with s₁_def
    have first : (if (s.objs r).numComputedTokens =
        (s.objs r).numTokens + (s.objs r).numOutputPlaceholders then
        s.modifyObj r fun req =>
          { req with numOutputPlaceholders := req.numOutputPlaceholders + 1 }
        else s) = s₁ := by
      refine Eq.trans (b := { s with objs := s₁.objs }) ?_ rfl
      split
      · rename_i full
        refine congrArg (fun objs : Ref → Request H => ({ s with objs } : Scheduler H C)) ?_
        funext x
        by_cases same : x = r
        · subst same
          simp [s₁_def, full]
        · simp [s₁_def, same]
      · rename_i partly
        refine congrArg (fun objs : Ref → Request H => ({ s with objs } : Scheduler H C)) ?_
        funext x
        simp [s₁_def, partly]
    rw [first] at tail
    rw [ih (s := s₁) own nodup.2 tail]
    refine congrArg (fun objs : Ref → Request H => ({ s with objs } : Scheduler H C)) ?_
    funext x
    by_cases same : x = r
    · subst same
      -- No later entry is about this request.
      simp [s₁_def, ownId, nodup.1, found]
    · have other : s.requests.get? (s.objs x).requestId = some x → (s.objs x).requestId ≠ id := by
        intro held clash
        rw [clash, found] at held
        exact same (Option.some.inj held).symm
      by_cases held : s.requests.get? (s.objs x).requestId = some x
      · simp [s₁_def, same, held, other held]
      · simp [s₁_def, same, held]

/-- The placeholder that the `AsyncScheduler` adds for a request of a step. -/
def reservedFor (cfg : Config H C M) (requests : PyDict RequestId Ref) (ids : List RequestId)
    (req : Request H) (r : Ref) (numComputedTokens : Int) : Int :=
  if cfg.asyncScheduling ∧ requests.get? req.requestId = some r ∧ req.requestId ∈ ids ∧
    numComputedTokens = req.numTokens + req.numOutputPlaceholders then 1 else 0

/-- A request object after `_update_after_schedule`. -/
def advanced (cfg : Config H C M) (requests : PyDict RequestId Ref) (items : List (RequestId × Int))
    (req : Request H) (r : Ref) : Request H :=
  let numComputedTokens := req.numComputedTokens + scheduledFor requests items req.requestId r
  { req with
    numComputedTokens
    numOutputPlaceholders := req.numOutputPlaceholders +
      reservedFor cfg requests (items.map Prod.fst) req r numComputedTokens }

/-- `_update_after_schedule` of both schedulers, request by request. -/
theorem updateAfterSchedule_spec (own : ∀ k r, s.requests.get? k = some r → (s.objs r).requestId = k)
    (nodup : (items.map Prod.fst).Nodup) (done : updateAfterSchedule cfg items s = .ok s') :
    ∃ cache, s' = { s with
      encoderCacheManager := cache
      objs := fun r => advanced cfg s.requests items (s.objs r) r } := by
  obtain ⟨s₁, done, tail⟩ := bind_eq_ok.mp done
  obtain ⟨cache, rfl⟩ := advanceComputed_spec own nodup done
  refine ⟨cache, ?_⟩
  split at tail
  · rename_i async
    have reserved := reservePlaceholders_spec (by exact own) nodup tail
    rw [reserved]
    simp only [advanced, reservedFor, async, true_and]
    rfl
  · rename_i plain
    cases tail
    simp [advanced, reservedFor, plain]

/-- What the end of `schedule` does, part by part. -/
theorem finishSchedule_parts (done : finishSchedule cfg f = .ok (out, s')) :
    ∃ waiting out₀ s₁ s₂, waiting.Perm f.flat.waiting ∧
      (cfg.policy ≠ .priority → waiting = f.flat.waiting) ∧
      checkConstraints cfg ⟨{ f.sched with waiting }, { f.plan with skippedWaitingRequests := [] }⟩ =
        .ok () ∧
      schedulerOutput cfg ⟨{ f.sched with waiting }, { f.plan with skippedWaitingRequests := [] }⟩ =
        .ok out₀ ∧
      attachConnectorMeta cfg { f.sched with
        waiting
        encoderCacheManager := { f.sched.encoderCacheManager with freed := [] } } out₀ =
        .ok (out, s₁) ∧
      updateAfterSchedule cfg out.numScheduledTokens.items s₁ = .ok s₂ ∧
      s' = { s₂ with finishedReqIds := [] } := by
  obtain ⟨f₁, back, tail⟩ := bind_eq_ok.mp done
  obtain ⟨_, checked, tail⟩ := bind_eq_ok.mp tail
  obtain ⟨out₀, built, tail⟩ := bind_eq_ok.mp tail
  obtain ⟨⟨out₁, s₁⟩, attached, tail⟩ := bind_eq_ok.mp tail
  obtain ⟨s₂, advanced, ended⟩ := bind_eq_ok.mp tail
  simp only [Except.ok.injEq, Prod.mk.injEq] at ended
  obtain ⟨rfl, rfl⟩ := ended
  have put : ∃ waiting, waiting.Perm f.flat.waiting ∧
      (cfg.policy ≠ .priority → waiting = f.flat.waiting) ∧
      f₁ = ⟨{ f.sched with waiting }, { f.plan with skippedWaitingRequests := [] }⟩ := by
    unfold putBackSkipped at back
    split at back
    · rename_i none
      cases back
      have empty := List.isEmpty_iff.mp none
      refine ⟨f.sched.waiting, ?_, fun _ => ?_, ?_⟩
      · simp [Frame.flat, empty]
      · simp [Frame.flat, empty]
      · rcases f with ⟨sched, plan⟩
        simp only at empty
        simp [← empty]
    · obtain ⟨waiting, moved, eq⟩ := bind_eq_ok.mp back
      cases eq
      refine ⟨waiting, (queuePrependAll_sat _ _ _ _).post_of_ok moved, fun fifo => ?_, rfl⟩
      exact Except.ok.inj (moved.symm.trans (queuePrependAll_fifo fifo _ _))
  obtain ⟨waiting, perm, order, rfl⟩ := put
  exact ⟨waiting, out₀, s₁, s₂, perm, order, checked, built, attached, advanced, rfl⟩

/-- Attaching the connector's metadata changes the connector only. -/
theorem attachConnectorMeta_eq {out' : SchedulerOutput M}
    (done : attachConnectorMeta cfg s out = .ok (out', s')) :
    ∃ connector metadata, s' = { s with connector } ∧
      out' = { out with kvConnectorMetadata := metadata } := by
  unfold attachConnectorMeta at done
  split at done
  · cases done
    exact ⟨s.connector, out.kvConnectorMetadata, rfl, rfl⟩
  · obtain ⟨⟨metadata, connector⟩, _, built⟩ := bind_eq_ok.mp done
    cases built
    exact ⟨connector, some metadata, rfl, rfl⟩

/-- The output carries the numbers of tokens of the plan. -/
theorem schedulerOutput_numScheduledTokens (done : schedulerOutput cfg f = .ok out) :
    out.numScheduledTokens = f.plan.numScheduledTokens ∧
      out.scheduledSpecDecodeTokens = f.plan.scheduledSpecDecodeTokens := by
  obtain ⟨_, _, tail⟩ := bind_eq_ok.mp done
  obtain ⟨_, _, tail⟩ := bind_eq_ok.mp tail
  obtain ⟨_, _, tail⟩ := bind_eq_ok.mp tail
  cases tail
  exact ⟨rfl, rfl⟩

/-- The end of `schedule`: the waiting queue is put together and scheduled tokens are counted. -/
theorem finishSchedule_spec
    (own : ∀ k r, f.sched.requests.get? k = some r → (f.sched.objs r).requestId = k)
    (done : finishSchedule cfg f = .ok (out, s')) :
    out.numScheduledTokens = f.plan.numScheduledTokens ∧
    out.scheduledSpecDecodeTokens = f.plan.scheduledSpecDecodeTokens ∧
    ∃ waiting cache connector, waiting.Perm f.flat.waiting ∧ s' = { f.sched with
      waiting
      encoderCacheManager := cache
      connector
      finishedReqIds := []
      objs := fun r => advanced cfg f.sched.requests f.plan.numScheduledTokens.items
        (f.sched.objs r) r } := by
  obtain ⟨waiting, out₀, s₁, s₂, perm, _, _, built, attached, advanced, rfl⟩ := finishSchedule_parts done
  obtain ⟨numbers, drafts⟩ := schedulerOutput_numScheduledTokens built
  obtain ⟨connector, metadata, rfl, rfl⟩ := attachConnectorMeta_eq attached
  simp only at numbers drafts
  rw [numbers] at advanced
  obtain ⟨cache, rfl⟩ := updateAfterSchedule_spec
    (s := { f.sched with
      waiting
      encoderCacheManager := { f.sched.encoderCacheManager with freed := [] }
      connector }) own (PyDict.nodup _) advanced
  exact ⟨numbers, drafts, waiting, cache, connector, perm, rfl⟩

/-- A new request gets the next object and joins the waiting queue. -/
theorem addRequest_spec {req : EngineCoreRequest} (done : s.addRequest cfg req = .ok s') :
    ∃ r waiting, Request.New cfg.newBlockHashes req r ∧ waiting.Perm (s.nextRef :: s.waiting) ∧
      s' = { s with
        objs := Function.update s.objs s.nextRef r
        nextRef := s.nextRef + 1
        waiting
        requests := s.requests.set req.requestId s.nextRef } := by
  obtain ⟨r, created, tail⟩ := bind_eq_ok.mp done
  obtain ⟨waiting, queued, built⟩ := bind_eq_ok.mp tail
  exact ⟨r, waiting, Request.create_new _ created, (queueAdd_sat _ _ _ _).post_of_ok queued,
    (Except.ok.inj built).symm⟩

end Scheduler

end Finish

namespace QueueInv

variable (inv : QueueInv s)

include inv

/-- A pinned request is not queued. -/
theorem pinned_ne (queued : r ∈ s.waiting ++ s.running)
    {p : Ref × PyFloat} (pinned : p ∈ s.pinnedRequests) : p.1 ≠ r := by
  rintro rfl
  exact inv.finished_not_queued (inv.pinned p pinned).2 queued

/-- A queued request may change its queue together with its status. -/
theorem requeue (objs : s'.objs = Function.update s.objs r req) (member : r ∈ s.waiting ++ s.running)
    (id : req.requestId = (s.objs r).requestId) (nextRef : s'.nextRef = s.nextRef)
    (requests : s'.requests = s.requests) (pins : s'.pinnedRequests = s.pinnedRequests)
    (perm : (s'.waiting ++ s'.running).Perm (s.waiting ++ s.running))
    (waiting : ∀ x ∈ s'.waiting, if x = r then req.status.isQueued = true else x ∈ s.waiting)
    (running : ∀ x ∈ s'.running, if x = r then req.status = .running else x ∈ s.running) :
    QueueInv s' where
  own k x found := by
    rw [requests] at found
    rw [objs]
    by_cases same : x = r
    · subst same; simpa [id] using inv.own k x found
    · simpa [same] using inv.own k x found
  known k x found := by
    rw [requests] at found
    rw [nextRef]
    exact inv.known k x found
  nodup := perm.nodup_iff.mpr inv.nodup
  runningStatus x runs := by
    have allowed := running x runs
    rw [objs]
    by_cases same : x = r
    · subst same; simpa using allowed
    · rw [if_neg same] at allowed
      simpa [same] using inv.runningStatus x allowed
  waitingStatus x waits := by
    have allowed := waiting x waits
    rw [objs]
    by_cases same : x = r
    · subst same; simpa using allowed
    · rw [if_neg same] at allowed
      simpa [same] using inv.waitingStatus x allowed
  queued x queued := by
    rw [nextRef]
    exact inv.queued x (perm.mem_iff.mp queued)
  pinned p pinned := by
    rw [pins] at pinned
    have other : p.1 ≠ r := inv.pinned_ne member pinned
    rw [nextRef, objs]
    simpa [other] using inv.pinned p pinned

/-- A waiting request may change everything but its id, as long as it stays queued. -/
theorem rewait (objs : s'.objs = Function.update s.objs r req) (member : r ∈ s.waiting)
    (id : req.requestId = (s.objs r).requestId) (queued : req.status.isQueued = true)
    (nextRef : s'.nextRef = s.nextRef)
    (requests : s'.requests = s.requests) (pins : s'.pinnedRequests = s.pinnedRequests)
    (waiting : s'.waiting.Perm s.waiting) (running : s'.running = s.running) : QueueInv s' := by
  refine inv.requeue objs (mem_append_left _ member) id nextRef requests pins
    (by rw [running]; exact waiting.append_right _) ?_ ?_
  · intro x waits
    split
    · exact queued
    · exact waiting.mem_iff.mp waits
  · intro x runs
    rw [running] at runs
    have other : x ≠ r := by
      rintro rfl
      exact inv.disjoint member runs
    rw [if_neg other]
    exact runs

/-- Every change inside the scheduling loops keeps the queues in order. -/
theorem loopMove [DecidableEq H] (step : LoopMove cfg s s') : QueueInv s' := by
  have frame := step.frame
  cases step with
  | allocFail => exact inv.keep rfl (fun _ => rfl) (fun _ => rfl) fun _ _ found => found
  | preempt victim running waiting cache runs waits =>
    have member : victim ∈ s.running := runs.mem_iff.mpr (mem_cons_self ..)
    have nodup : (victim :: running).Nodup := runs.nodup_iff.mp inv.runningNodup
    refine inv.requeue rfl (mem_append_right _ member) rfl rfl rfl rfl frame.queued ?_ ?_
    · intro x member
      by_cases same : x = victim
      · rw [if_pos same]; rfl
      · rw [if_neg same]
        exact (mem_cons.mp (waits.mem_iff.mp member)).resolve_left same
    · intro x member
      have other : x ≠ victim := by
        rintro rfl
        exact (nodup_cons.mp nodup).1 member
      rw [if_neg other]
      exact runs.mem_iff.mpr (mem_cons_of_mem _ member)
  | run r n newBlocks kv spec member =>
    refine inv.requeue rfl (mem_append_right _ member) rfl rfl rfl rfl (.refl _) ?_ ?_
    · intro x waits
      have other : x ≠ r := by
        rintro rfl
        exact inv.disjoint waits member
      rw [if_neg other]
      exact waits
    · intro x runs
      split
      · exact inv.runningStatus r member
      · exact runs
  | wake r waits => exact inv.rewait rfl waits rfl rfl rfl rfl rfl (.refl _) rfl
  | arrive r blockIds received kv arrived waits =>
    exact inv.rewait rfl waits rfl rfl rfl rfl rfl (.refl _) rfl
  | start r computed connector informed n encoderTokens numCached newBlocks kv waiting waits =>
    have member : r ∈ s.waiting := waits.mem_iff.mpr (mem_cons_self ..)
    have nodup : (r :: waiting).Nodup := waits.nodup_iff.mp inv.waitingNodup
    refine inv.requeue rfl (mem_append_left _ member) rfl rfl rfl rfl frame.queued ?_ ?_
    · intro x member
      have other : x ≠ r := by
        rintro rfl
        exact (nodup_cons.mp nodup).1 member
      rw [if_neg other]
      exact waits.mem_iff.mpr (mem_cons_of_mem _ member)
    · intro x member
      by_cases same : x = r
      · rw [if_pos same]
      · rw [if_neg same]
        exact (mem_append.mp member).resolve_right fun last => same (mem_singleton.mp last)
  | park r computed connector informed encoderTokens newBlocks kv waiting waits perm =>
    exact inv.rewait rfl waits rfl rfl rfl rfl rfl perm rfl

/-- Every change keeps the queues in order. -/
theorem change [DecidableEq H] (step : Change cfg scope s s') : QueueInv s' := by
  cases step with
  | move step => exact inv.move step
  | loop step => exact inv.loopMove step
  | advance scheduled reserved known eq =>
    rw [eq]
    exact inv.keep rfl (fun _ => rfl) (fun _ => rfl) fun _ _ found => found

/-- Every sequence of changes keeps the queues in order. -/
theorem changes [DecidableEq H] (steps : Changes cfg scope s s') : QueueInv s' := by
  induction steps with
  | refl => exact inv
  | tail _ last ih => exact ih.change last

/-- A new request waits behind the others. -/
theorem addRequest {req : EngineCoreRequest}
    (done : s.addRequest cfg req = .ok s') : QueueInv s' := by
  obtain ⟨r, waiting, new, perm, rfl⟩ := addRequest_spec done
  -- Old objects are below the new one, so they keep their state.
  have old : ∀ x, x < s.nextRef → Function.update s.objs s.nextRef r x = s.objs x := by
    intro x below
    exact Function.update_of_ne (Nat.ne_of_lt below) _ _
  have members : ∀ x, x ∈ waiting → x = s.nextRef ∨ x ∈ s.waiting := fun x member =>
    mem_cons.mp (perm.mem_iff.mp member)
  refine ⟨?_, ?_, ?_, ?_, ?_, ?_, ?_⟩
  · intro k x found
    rw [PyDict.get?_set] at found
    split at found
    · rename_i same
      cases found
      simp [new.sent, same]
    · simp only [old x (inv.known k x found)]
      exact inv.own k x found
  · intro k x found
    rw [PyDict.get?_set] at found
    split at found
    · cases found; exact Nat.lt_succ_self _
    · exact Nat.lt_succ_of_lt (inv.known k x found)
  · have fresh : s.nextRef ∉ s.waiting ++ s.running := fun member =>
      absurd (inv.queued _ member) (Nat.lt_irrefl _)
    have all : (waiting ++ s.running).Perm (s.nextRef :: (s.waiting ++ s.running)) :=
      perm.append_right _
    exact all.nodup_iff.mpr (nodup_cons.mpr ⟨fresh, inv.nodup⟩)
  · intro x member
    simp only [old x (inv.queued x (mem_append_right _ member))]
    exact inv.runningStatus x member
  · intro x member
    rcases members x member with rfl | waits
    · rcases new.status with eq | eq <;> simp [eq, RequestStatus.isQueued]
    · simp only [old x (inv.queued x (mem_append_left _ waits))]
      exact inv.waitingStatus x waits
  · intro x member
    rcases mem_append.mp member with waits | runs
    · rcases members x waits with rfl | waits
      · exact Nat.lt_succ_self _
      · exact Nat.lt_succ_of_lt (inv.queued x (mem_append_left _ waits))
    · exact Nat.lt_succ_of_lt (inv.queued x (mem_append_right _ runs))
  · intro p member
    have pinned := inv.pinned p member
    simp only [old p.1 pinned.1]
    exact ⟨Nat.lt_succ_of_lt pinned.1, pinned.2⟩

/-- Forgetting hashes is not about the queues. -/
theorem resetPrefixCache : QueueInv s.resetPrefixCache.2 :=
  inv.keep rfl (fun _ => rfl) (fun _ => rfl) fun _ _ found => found

end QueueInv

section Operations

variable [DecidableEq H]

/-- The end of `schedule` as changes. -/
theorem finishSchedule_changes (inStep : scope.step)
    (own : ∀ k r, f.sched.requests.get? k = some r → (f.sched.objs r).requestId = k)
    (done : finishSchedule cfg f = .ok (out, s')) : Changes cfg scope f.flat s' := by
  obtain ⟨_, _, waiting, cache, connector, perm, rfl⟩ := finishSchedule_spec own done
  have reordered : Change cfg scope f.flat { f.sched with waiting } :=
    .move (.reorder f.flat waiting perm)
  have advanced : Change cfg scope { f.sched with waiting } _ := .advance
    (fun r => scheduledFor f.sched.requests f.plan.numScheduledTokens.items
      (f.sched.objs r).requestId r)
    (fun r => reservedFor cfg f.sched.requests
      (f.plan.numScheduledTokens.items.map Prod.fst) (f.sched.objs r) r
      ((f.sched.objs r).numComputedTokens + scheduledFor f.sched.requests
        f.plan.numScheduledTokens.items (f.sched.objs r).requestId r))
    (fun r nonzero => scheduledFor_known nonzero) rfl
  refine ((Relation.ReflTransGen.single reordered).tail advanced).tail ?_
  exact Change.book _ { f.sched.bookkeeping with
    encoderCacheManager := cache, connector, finishedReqIds := [] } (.inl inStep) rfl

/-- `schedule` as changes. -/
theorem schedule_changes (inv : QueueInv s)
    (done : s.schedule cfg env = .ok (out, s')) : Changes cfg (expiryScope env.now) s s' := by
  obtain ⟨f, looped, finished⟩ := bind_eq_ok.mp done
  obtain ⟨s₁, expired, steps, _⟩ := (scheduleLoops_sat s).post_of_ok looped
  have loops : Changes cfg (expiryScope env.now) s₁ f.flat := LoopSteps.changes trivial steps
  have path := expired.changes.trans loops
  exact path.trans (finishSchedule_changes trivial (inv.changes path).own finished)

end Operations

end Mimir
