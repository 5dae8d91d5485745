import Mimir.Sched.Frames
import Mimir.Sched.Inert

/-! Requests that ended with their blocks left to a transfer, until the blocks are reported as sent. -/

namespace Mimir

open Python Scheduler List Function

variable {H C M : Type} {notes : List Effect} {cfg : Config H C M} {s s' : Scheduler H C} {r : Ref}
  {scope : Scope} {env : ScheduleEnv} {connector : C} {e : Engine H C M} {req : EngineCoreRequest}
  {ids : List RequestId}

/-- Whether an effect reports a request as finished or gives back its blocks. -/
def Effect.settles (r : Ref) : Effect → Bool
  | .reported r' => r' = r
  | .released r' => r' = r
  | _ => false

/-- How often the blocks of a request went back since it was last reported as finished. -/
def releasesSince (r : Ref) : List Effect → Nat
  | [] => 0
  | .reported r' :: rest => if r' = r then 0 else releasesSince r rest
  | .released r' :: rest => if r' = r then releasesSince r rest + 1 else releasesSince r rest
  | _ :: rest => releasesSince r rest

/-- An effect of another kind, or about another request, does not count. -/
theorem releasesSince_cons {e : Effect} (rest : List Effect) (apart : e.settles r = false) :
    releasesSince r (e :: rest) = releasesSince r rest := by
  cases e with
  | reported r' =>
    have other : r' ≠ r := by simpa [Effect.settles] using apart
    simp [releasesSince, other]
  | released r' =>
    have other : r' ≠ r := by simpa [Effect.settles] using apart
    simp [releasesSince, other]
  | _ => rfl

/-- Effects that do not concern a request do not change its count. -/
theorem releasesSince_append (rest : List Effect) (apart : ∀ e ∈ notes, e.settles r = false) :
    releasesSince r (notes ++ rest) = releasesSince r rest := by
  induction notes with
  | nil => rfl
  | cons e notes ih =>
    rw [cons_append, releasesSince_cons _ (apart e (mem_cons_self ..))]
    exact ih fun x member => apart x (mem_cons_of_mem _ member)

/-- A report starts a new count. -/
theorem releasesSince_reported (rest : List Effect)
    (noted : ∀ e ∈ notes, EndNote r e) (reported : .reported r ∈ notes) :
    releasesSince r (notes ++ rest) = 0 := by
  -- The notes before the report are about tool durations and tokens.
  induction notes with
  | nil => cases reported
  | cons e notes ih =>
    have rest := ih fun x member => noted x (mem_cons_of_mem _ member)
    rcases noted e (mem_cons_self ..) with rfl | ⟨duration, rfl⟩ | ⟨token, rfl⟩
    · simp [releasesSince]
    · exact rest (by simpa using reported)
    · exact rest (by simpa using reported)

/-- A finished request whose blocks are left to a transfer, with the number of times they went back. -/
structure Awaits {H C : Type} (s : Scheduler H C) (r : Ref) (id : RequestId) (count : Nat) : Prop where
  known : r < s.nextRef
  own : (s.objs r).requestId = id
  finished : (s.objs r).isFinished = true
  unpinned : ∀ p ∈ s.pinnedRequests, p.1 ≠ r
  /-- Before they go back, the request is still known. -/
  kept : count = 0 → s.requests.get? id = some r
  released : releasesSince r s.history = count

namespace Awaits

variable {id : RequestId}
  {count : Nat}

/-- A change that concerns neither the request nor its id. -/
theorem keep (awaits : Awaits s r id count) (nextRef : s.nextRef ≤ s'.nextRef)
    (own : (s'.objs r).requestId = (s.objs r).requestId)
    (status : (s'.objs r).status = (s.objs r).status)
    (pins : ∀ p ∈ s'.pinnedRequests, p ∈ s.pinnedRequests ∨ p.1 ≠ r)
    (requests : s.requests.get? id = some r → s'.requests.get? id = some r) (notes : List Effect)
    (history : s'.history = notes ++ s.history) (apart : ∀ e ∈ notes, e.settles r = false) :
    Awaits s' r id count where
  known := awaits.known.trans_le nextRef
  own := by rw [own]; exact awaits.own
  finished := by
    have finished := awaits.finished
    unfold Request.isFinished at finished ⊢
    rw [status]
    exact finished
  unpinned p member := (pins p member).elim (awaits.unpinned p) fun other => other
  kept none := requests (awaits.kept none)
  released := by rw [history, releasesSince_append _ apart]; exact awaits.released

variable {r' : Ref}

/-- Forgetting another request leaves this one known. -/
theorem requests_erase (other : r' ≠ r)
    (known : s.requests.get? (s.objs r').requestId = some r') (found : s.requests.get? id = some r) :
    (s.requests.erase (s.objs r').requestId).get? id = some r := by
  have ids : id ≠ (s.objs r').requestId := by
    rintro rfl
    rw [known] at found
    exact other (Option.some.inj found)
  rw [PyDict.get?_erase_ne _ ids]
  exact found

/-- The notes of another request's end do not concern this one. -/
theorem settles_endNote (other : r' ≠ r) {e : Effect} (note : EndNote r' e) :
    e.settles r = false := by
  rcases note with rfl | ⟨duration, rfl⟩ | ⟨token, rfl⟩
  · simp [Effect.settles, other]
  · rfl
  · rfl

variable [DecidableEq H]

/-- Elementary changes that end only unfinished requests leave it waiting for its transfer. -/
theorem move (link : Link s) (awaits : Awaits s r id count) (fresh : scope.fresh)
    (unsent : ¬ scope.sent r) (step : Move cfg scope s s') : Awaits s' r id count := by
  have ids := step.requestId r
  cases step with
  | adjust r' req notes touched adjusted =>
    refine awaits.keep le_rfl ids (update_field Request.status adjusted.kept.2 r) (fun _ h => .inl h)
      (fun h => h) notes rfl ?_
    cases adjusted <;> simp [Effect.settles]
  | retire r' req b notes outcome ends =>
    -- The request that ends was unfinished, so it is another one.
    have other : r' ≠ r := by
      rintro rfl
      have unfinished := ends.live fresh
      rw [awaits.finished] at unfinished
      cases unfinished
    have status : ((s.retire r' req b notes outcome).objs r).status = (s.objs r).status := by
      rw [retire_objs, update_of_ne (Ne.symm other)]
    have apart : ∀ e ∈ notes, e.settles r = false := fun e note =>
      settles_endNote other (ends.noted e note)
    cases outcome with
    | pinned =>
      refine awaits.keep le_rfl ids status ?_ (fun h => h) notes rfl apart
      intro p member
      rcases mem_append.mp member with old | new
      · exact .inl old
      · cases mem_singleton.mp new
        exact .inr other
    | freed =>
      refine awaits.keep le_rfl ids status (fun _ h => .inl h) (fun found => ?_) (.released r' :: notes)
        rfl ?_
      · rw [ends.freed.1]
        exact requests_erase other ends.known found
      · intro e member
        rcases mem_cons.mp member with rfl | note
        · simp [Effect.settles, other]
        · exact apart e note
    | delayed => exact awaits.keep le_rfl ids status (fun _ h => .inl h) (fun h => h) notes rfl apart
  | sent r' listed known =>
    have other : r' ≠ r := by
      rintro rfl
      exact unsent listed
    exact awaits.keep le_rfl rfl rfl (fun _ h => .inl h) (requests_erase other known) [.released r'] rfl
      (by simp [Effect.settles, other])
  | unpin before r' expiry t after clock due found =>
    refine awaits.keep le_rfl rfl rfl (fun p member => .inl ?_) (fun h => h) [] rfl (by simp)
    rw [found]
    exact mem_append.mpr ((mem_append.mp member).imp_right (mem_cons_of_mem _))
  | expire before r' expiry t after clock due found present =>
    -- Pinned requests are not left to transfers.
    have pinned : (r', expiry) ∈ s.pinnedRequests := by rw [found]; simp
    have other : r' ≠ r := awaits.unpinned _ pinned
    have known := link.pinned_known pinned present
    refine awaits.keep le_rfl rfl rfl (fun p member => .inl ?_) (requests_erase other known)
      [.released r'] rfl (by simp [Effect.settles, other])
    rw [found]
    exact mem_append.mpr ((mem_append.mp member).imp_right (mem_cons_of_mem _))
  | _ => exact awaits.keep le_rfl rfl rfl (fun _ h => .inl h) (fun h => h) [] rfl (by simp)

/-- The scheduling loops are about queued requests. -/
theorem loopMove (inv : QueueInv s) (awaits : Awaits s r id count) (step : LoopMove cfg s s') :
    Awaits s' r id count := by
  have frame := step.frame
  -- A finished request is in no queue, so the loops neither change nor preempt it.
  have unqueued := inv.finished_not_queued awaits.finished
  obtain ⟨notes, history, each⟩ := step.history
  refine awaits.keep (le_of_eq frame.nextRef.symm) (Request.requestId_eq (frame.fixed r))
    (congrArg Request.status (frame.outside r unqueued)) ?_ ?_ notes history fun e member => ?_
  · rw [frame.pinned]
    exact fun _ h => .inl h
  · rw [frame.requests]
    exact fun h => h
  · rcases each e member with ⟨x, runs, rfl⟩ | ⟨x, blocks, rfl⟩ | ⟨x, a, b, rfl⟩
    · have other : x ≠ r := by
        rintro rfl
        exact unqueued (mem_append_right _ runs)
      simp [Effect.settles, other]
    · rfl
    · rfl

/-- Changes that end only unfinished requests leave it waiting for its transfer. -/
theorem changes (inv : QueueInv s) (link : Link s) (awaits : Awaits s r id count)
    (fresh : scope.fresh) (unsent : ¬ scope.sent r) (steps : Changes cfg scope s s') :
    Awaits s' r id count := by
  -- The queues and the link are carried along with the request.
  have all : QueueInv s' ∧ Link s' ∧ Awaits s' r id count := by
    induction steps with
    | refl => exact ⟨inv, link, awaits⟩
    | tail _ last ih =>
      obtain ⟨inv, link, awaits⟩ := ih
      refine ⟨inv.change last, link.change inv last, ?_⟩
      cases last with
      | move step => exact awaits.move link fresh unsent step
      | loop step => exact awaits.loopMove inv step
      | advance scheduled reserved known eq =>
        rw [eq]
        exact awaits.keep le_rfl rfl rfl (fun _ h => .inl h) (fun h => h) [] rfl (by simp)
  exact all.2.2

omit [DecidableEq H] in
/-- A request added under another id leaves it waiting for its transfer. -/
theorem addRequest (awaits : Awaits s r id count)
    (other : req.requestId ≠ id) (done : s.addRequest cfg req = .ok s') : Awaits s' r id count := by
  obtain ⟨_, _, _, _, rfl⟩ := addRequest_spec done
  have old : r ≠ s.nextRef := Nat.ne_of_lt awaits.known
  refine awaits.keep (Nat.le_succ _) (by simp [old]) (by simp [old]) (fun _ h => .inl h) (fun found => ?_)
    [] rfl (by simp)
  rw [← found]
  exact PyDict.get?_set_ne _ _ (Ne.symm other)

omit [DecidableEq H] in
/-- A request that ends with its blocks left to a transfer. -/
theorem delayed (inv : QueueInv s) {req : Request H} {b : Bookkeeping C}
    (ends : Retires cfg scope s r req b notes .delayed) (live : (s.objs r).isFinished = false) :
    Awaits (s.retire r req b notes .delayed) r (s.objs r).requestId 0 where
  known := by
    rw [retire_nextRef]
    exact inv.known _ r ends.known
  own := by
    rw [retire_objs, update_self]
    exact ends.ended.requestId
  finished := by
    rw [retire_objs, update_self]
    exact ends.ended.isFinished
  unpinned p member := by
    -- Pinned requests are finished.
    rintro rfl
    have done := (inv.pinned p member).2
    rw [live] at done
    cases done
  kept _ := ends.known
  released := releasesSince_reported _ ends.noted ends.reported

omit [DecidableEq H] in
/-- Releasing a request under another id. -/
theorem release_other (awaits : Awaits s r id count)
    (known : s.requests.get? (s.objs r').requestId = some r') (other : (s.objs r').requestId ≠ id) :
    Awaits (s.release r') r id count := by
  have apart : r' ≠ r := by
    rintro rfl
    exact other awaits.own
  exact awaits.keep le_rfl rfl rfl (fun _ h => .inl h) (requests_erase apart known) [.released r'] rfl
    (by simp [Effect.settles, apart])

omit [DecidableEq H] in
/-- Its own release. -/
theorem release (awaits : Awaits s r id count) : Awaits (s.release r) r id (count + 1) where
  known := awaits.known
  own := awaits.own
  finished := awaits.finished
  unpinned := awaits.unpinned
  kept none := by cases none
  released := by
    show releasesSince r (.released r :: s.history) = count + 1
    simp [releasesSince, awaits.released]

omit [DecidableEq H] in
/-- The finished transfers of a step: each request among them is released once. -/
theorem freeSent (inv : QueueInv s) (awaits : Awaits s r id count)
    (nodup : ids.Nodup) (pending : id ∈ ids → count = 0)
    (done : freeSent ids s = .ok s') : Awaits s' r id (count + ids.count id) := by
  -- The induction is on the ids; at its own id the request is still known.
  induction ids generalizing s count with
  | nil =>
    cases done
    exact awaits
  | cons id' rest ih =>
    obtain ⟨r', found, tail⟩ := bind_eq_ok.mp done
    obtain ⟨s₁, freed, later⟩ := bind_eq_ok.mp tail
    obtain ⟨_, _, rfl⟩ := freeBlocks_eq freed
    rw [orRaise_eq_ok] at found
    obtain ⟨absent, nodup⟩ := nodup_cons.mp nodup
    have own := inv.own id' r' found
    by_cases same : id' = id
    · subst same
      have here : r' = r := by
        rw [awaits.kept (pending (mem_cons_self ..))] at found
        exact (Option.some.inj found).symm
      subst here
      have rest' := ih (inv.release r') awaits.release nodup (fun member => absurd member absent) later
      rw [count_eq_zero_of_not_mem absent] at rest'
      rw [count_cons_self, count_eq_zero_of_not_mem absent]
      exact rest'
    · rw [count_cons_of_ne same]
      exact ih (inv.release r') (awaits.release_other (by rw [own]; exact found) (by rw [own]; exact same))
        nodup (fun member => pending (mem_cons_of_mem _ member)) later

end Awaits

namespace Scheduler

/-- Freeing requests that are known and finished never raises. -/
theorem freeSent_ok (inv : QueueInv s) (nodup : ids.Nodup)
    (ready : ∀ id ∈ ids, ∃ r, s.requests.get? id = some r ∧ (s.objs r).isFinished = true) :
    ∃ s', freeSent ids s = .ok s' := by
  induction ids generalizing s with
  | nil => exact ⟨s, rfl⟩
  | cons id rest ih =>
    obtain ⟨absent, nodup⟩ := nodup_cons.mp nodup
    obtain ⟨r, found, finished⟩ := ready id (mem_cons_self ..)
    have own := inv.own id r found
    have freed : s.freeBlocks r = .ok (s.release r) := by
      refine bind_eq_ok.mpr ⟨(), require_eq_ok.mpr finished, bind_eq_ok.mpr ⟨(), ?_, rfl⟩⟩
      rw [require_eq_ok, own]
      exact PyDict.mem_keys_iff.mpr ⟨r, found⟩
    obtain ⟨s', later⟩ := ih (inv.release r) nodup (by
      intro id' member
      obtain ⟨r', found', finished'⟩ := ready id' (mem_cons_of_mem _ member)
      have other : id' ≠ (s.objs r).requestId := by
        rw [own]
        rintro rfl
        exact absent member
      exact ⟨r', by rw [← found']; exact PyDict.get?_erase_ne _ other, finished'⟩)
    exact ⟨s', bind_eq_ok.mpr ⟨r, orRaise_eq_ok.mpr found, bind_eq_ok.mpr ⟨_, freed, later⟩⟩⟩

end Scheduler

section Hooks

variable [DecidableEq H] {f f' : Frame H C}
  {ops : ConnectorOps H C M} {P : C → Prop}

variable (connected : cfg.connector = some ops)

include connected

variable (asked : ∀ c req n, P c → P (ops.getNumNewMatchedTokens c req n).2)

include asked

/-- What the question about matched tokens keeps, looking for computed tokens keeps. -/
theorem Scheduler.computedTokens_rule {answer : Option Scheduler.Computed} (start : P s.connector)
    (done : s.computedTokens cfg r = .ok (answer, connector)) : P connector := by
  unfold computedTokens at done
  dsimp only at done
  split at done
  · obtain ⟨⟨blocks, numLocal⟩, _, tail⟩ := bind_eq_ok.mp done
    rw [connected] at tail
    dsimp only at tail
    split at tail
    · cases tail
      exact asked _ _ _ start
    · cases tail
      exact asked _ _ _ start
  · cases done
    exact start

omit [DecidableEq H] asked in
/-- What the news about allocated blocks keeps, granting slots keeps. -/
theorem Config.informed_rule {req : Request H} {computed : Scheduler.Computed}
    {newBlocks : List (List BlockId)}
    (told : ∀ c req blocks n, P c → P (ops.updateStateAfterAlloc c req blocks n))
    (start : P connector) : P (cfg.informed connector req computed newBlocks) := by
  unfold informed
  rw [connected]
  exact told _ _ _ _ start

/-- What the two questions of the loops keep of the connector, a step of the loops keeps. -/
theorem LoopStep.connector_rule
    (told : ∀ c req blocks n, P c → P (ops.updateStateAfterAlloc c req blocks n))
    (start : P f.sched.connector) (step : LoopStep cfg env f f') : P f'.sched.connector := by
  cases step with
  | minor => exact start
  | consult r answer connector front done =>
    exact computedTokens_rule connected asked start done
  | allocFail => exact start
  | preempt f' victim early fifo preempts =>
    obtain ⟨cache, state⟩ := preempts.state
    rw [state]
    exact start
  | run => exact start
  | ready r answer s front done =>
    have same := (readyToSchedule_keeps done).2.2.1
    show P s.connector
    rw [same]
    exact start
  | skip f' r aside state =>
    rw [state]
    exact start
  | start f' r computed connector n encoderTokens newBlocks kv calm starts started =>
    obtain ⟨numCached, state⟩ := started.state
    rw [state]
    exact Config.informed_rule connected told (computedTokens_rule connected asked start starts.asked)
  | park f' r computed connector encoderTokens newBlocks kv parks aside state =>
    rw [state]
    exact Config.informed_rule connected told (computedTokens_rule connected asked start parks.asked)

/-- The connector in a call of `schedule`: what its questions keep holds when it builds its metadata. -/
theorem Scheduler.schedule_connector {out : SchedulerOutput M}
    (told : ∀ c req blocks n, P c → P (ops.updateStateAfterAlloc c req blocks n))
    (start : P s.connector) (done : s.schedule cfg env = .ok (out, s')) :
    ∃ c out₀ metadata, P c ∧ ops.buildConnectorMeta c out₀ = .ok (metadata, s'.connector) ∧
      out.kvConnectorMetadata = some metadata := by
  obtain ⟨f, looped, finished⟩ := bind_eq_ok.mp done
  obtain ⟨s₁, expired, steps, unpinned⟩ := (scheduleLoops_sat s).post_of_ok looped
  have loops : P f.sched.connector := by
    clear looped finished
    induction steps with
    | refl =>
      show P s₁.connector
      rw [(expirePins_untouched unpinned).connector]
      exact start
    | tail _ last ih => exact last.connector_rule connected asked told ih
  obtain ⟨waiting, out₀, s₂, s₃, _, _, _, _, attached, advanced, rfl⟩ := finishSchedule_parts finished
  simp only [attachConnectorMeta, connected] at attached
  obtain ⟨⟨metadata, connector⟩, built, eq⟩ := bind_eq_ok.mp attached
  simp only [Except.ok.injEq, Prod.mk.injEq] at eq
  obtain ⟨rfl, rfl⟩ := eq
  refine ⟨f.sched.connector, out₀, metadata, loops, ?_, rfl⟩
  show ops.buildConnectorMeta f.sched.connector out₀ = .ok (metadata, s₃.connector)
  rw [(updateAfterSchedule_untouched advanced).connector]
  exact built

end Hooks

/-- No two request objects carry one id. -/
def DistinctIds {H C : Type} (s : Scheduler H C) : Prop :=
  ∀ r r', r < s.nextRef → r' < s.nextRef → (s.objs r).requestId = (s.objs r').requestId → r = r'

namespace DistinctIds

/-- The ids of the objects decide. -/
theorem keep (distinct : DistinctIds s) (nextRef : s'.nextRef = s.nextRef)
    (ids : ∀ r, (s'.objs r).requestId = (s.objs r).requestId) : DistinctIds s' := by
  intro r r' known known' same
  rw [nextRef] at known known'
  rw [ids, ids] at same
  exact distinct r r' known known' same

/-- A request added under another id leaves it waiting for its transfer. -/
theorem addRequest (distinct : DistinctIds s)
    (unused : ∀ r < s.nextRef, (s.objs r).requestId ≠ req.requestId)
    (done : s.addRequest cfg req = .ok s') : DistinctIds s' := by
  obtain ⟨_, _, new, _, rfl⟩ := addRequest_spec done
  have own := congrArg EngineCoreRequest.requestId new.sent
  intro r r' known known' same
  rcases Nat.lt_succ_iff_lt_or_eq.mp known with old | rfl <;>
    rcases Nat.lt_succ_iff_lt_or_eq.mp known' with old' | rfl
  · simp only [update_of_ne (Nat.ne_of_lt old), update_of_ne (Nat.ne_of_lt old')] at same
    exact distinct r r' old old' same
  · simp only [update_of_ne (Nat.ne_of_lt old), update_self, own] at same
    exact absurd same (unused r old)
  · simp only [update_of_ne (Nat.ne_of_lt old'), update_self, own] at same
    exact absurd same.symm (unused r' old')
  · rfl

/-- No change touches an id. -/
theorem change [DecidableEq H] (distinct : DistinctIds s) (step : Change cfg scope s s') :
    DistinctIds s' := by
  exact distinct.keep (Changes.nextRef (.single step)) fun r => Request.requestId_eq (step.fixed r)

end DistinctIds

namespace Engine

/-- Requests are added under ids that were never used before. -/
def NewIds (e : Engine H C M) : Op → Prop
  | .addRequest req => FreshId e.sched req.requestId ∧
      ∀ r < e.sched.nextRef, (e.sched.objs r).requestId ≠ req.requestId
  | _ => True

instance (e : Engine H C M) (op : Op) : Decidable (e.NewIds op) :=
  match op with
  | .addRequest req => inferInstanceAs (Decidable (FreshId e.sched req.requestId ∧
      ∀ r < e.sched.nextRef, (e.sched.objs r).requestId ≠ req.requestId))
  | .updateFromOutput _ _ | .finishRequests _ _ _ | .schedule _ | .execute | .updateDraftTokenIds _
  | .resetPrefixCache => inferInstanceAs (Decidable True)

/-- Unused ids are fresh. -/
theorem NewIds.freshIds {op : Op} (new : e.NewIds op) : e.FreshIds op := by
  cases op with
  | addRequest => exact new.1
  | _ => trivial

/-- No two objects carry one id in a run whose requests are added under unused ids. -/
theorem Visited.distinctIds [DecidableEq H] {allowed : Engine H C M → Op → Prop}
    (new : ∀ a op, allowed a op → a.NewIds op) (visited : Visited cfg connector allowed s) :
    DistinctIds s := by
  induction visited with
  | start => exact fun r r' known => absurd known (Nat.not_lt_zero r)
  | add _ permitted done ih => exact ih.addRequest (new _ _ permitted).2 done
  | reset _ _ ih => exact ih.keep rfl fun _ => rfl
  | change _ _ step ih => exact ih.change step

variable [DecidableEq H] {e' : Engine H C M}

/-- Adding a request changes the scheduler only. -/
theorem exec_addRequest (done : e.exec cfg (.addRequest req) = .ok e') :
    ∃ s', e.sched.addRequest cfg req = .ok s' ∧ e' = { e with sched := s' } := by
  obtain ⟨s', added, built⟩ := bind_eq_ok.mp done
  cases built
  exact ⟨s', added, rfl⟩

/-- Scheduling a step puts its batch behind the others. -/
theorem exec_schedule (done : e.exec cfg (.schedule env) = .ok e') :
    ∃ out s', e.sched.schedule cfg env = .ok (out, s') ∧
      e' = { e with sched := s', scheduled := e.scheduled ++ [out] } := by
  obtain ⟨⟨out, s'⟩, scheduled, built⟩ := bind_eq_ok.mp done
  cases built
  exact ⟨out, s', scheduled, rfl⟩

variable {clock : Ref → PyFloat}

/-- Finishing requests changes the scheduler only. -/
theorem exec_finishRequests {status : RequestStatus}
    (done : e.exec cfg (.finishRequests clock ids status) = .ok e') :
    ∃ s', e.sched.finishRequests cfg clock ids status = .ok s' ∧ e' = { e with sched := s' } := by
  obtain ⟨s', finished, built⟩ := bind_eq_ok.mp done
  cases built
  exact ⟨s', finished, rfl⟩

/-- An output is that of the oldest executed batch. -/
theorem exec_updateFromOutput {model : ModelRunnerOutput}
    (done : e.exec cfg (.updateFromOutput clock model) = .ok e') :
    ∃ batch rest outputs s', e.executed = batch :: rest ∧
      e.sched.updateFromOutput cfg clock batch model = .ok (outputs, s') ∧
      e' = { e with sched := s', executed := rest } := by
  cases executed : e.executed with
  | nil => simp [exec, executed] at done
  | cons batch rest =>
    simp only [exec, executed] at done
    obtain ⟨⟨outputs, s'⟩, updated, built⟩ := bind_eq_ok.mp done
    cases built
    exact ⟨batch, rest, outputs, s', rfl, updated, rfl⟩

end Engine

end Mimir
