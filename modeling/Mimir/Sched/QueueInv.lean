import Mimir.Sched.Moves

/-! What always holds of the queues and the dictionary of requests, whatever operations are called. -/

namespace Mimir

open Python List

/-- The statuses of a request in the waiting queue. -/
def RequestStatus.isQueued : RequestStatus → Bool
  | .waiting => true
  | .waitingForFsm => true
  | .waitingForRemoteKvs => true
  | .preempted => true
  | _ => false

variable {status : RequestStatus}

/-- A queued request is not running. -/
theorem RequestStatus.ne_running_of_isQueued (queued : status.isQueued = true) : status ≠ .running := by
  rintro rfl; cases queued

/-- A queued request is not finished. -/
theorem RequestStatus.not_isFinished_of_isQueued
    (queued : status.isQueued = true) : status.isFinished = false := by
  cases status <;> simp_all [isQueued, isFinished]

/-- Queues hold existing objects once, with statuses that fit; pinned requests are finished. -/
structure QueueInv {H C : Type} (s : Scheduler H C) : Prop where
  own : ∀ k r, s.requests.get? k = some r → (s.objs r).requestId = k
  known : ∀ k r, s.requests.get? k = some r → r < s.nextRef
  nodup : (s.waiting ++ s.running).Nodup
  runningStatus : ∀ r ∈ s.running, (s.objs r).status = .running
  waitingStatus : ∀ r ∈ s.waiting, (s.objs r).status.isQueued = true
  queued : ∀ r ∈ s.waiting ++ s.running, r < s.nextRef
  pinned : ∀ p ∈ s.pinnedRequests, p.1 < s.nextRef ∧ (s.objs p.1).isFinished = true

namespace QueueInv

variable {H C M : Type} {cfg : Config H C M} {s s' : Scheduler H C}

/-- A fresh scheduler has empty queues. -/
theorem init (cfg : Config H C M) (connector : C) : QueueInv (Scheduler.init cfg connector) where
  own := by intro k r found; cases found
  known := by intro k r found; cases found
  nodup := nodup_nil
  runningStatus := by intro r member; cases member
  waitingStatus := by intro r member; cases member
  queued := by intro r member; cases member
  pinned := by intro p member; cases member

variable {r : Ref} {scope : Scope}

variable (inv : QueueInv s)

include inv

/-- A running request is unfinished. -/
theorem running_unfinished (member : r ∈ s.running) : (s.objs r).isFinished = false := by
  unfold Request.isFinished
  rw [inv.runningStatus r member]
  rfl

/-- A waiting request is unfinished. -/
theorem waiting_unfinished (member : r ∈ s.waiting) :
    (s.objs r).isFinished = false :=
  RequestStatus.not_isFinished_of_isQueued (inv.waitingStatus r member)

/-- A finished request is in no queue. -/
theorem finished_not_queued (done : (s.objs r).isFinished = true) : r ∉ s.waiting ++ s.running := by
  intro queued
  rcases mem_append.mp queued with waits | runs
  · rw [inv.waiting_unfinished waits] at done; cases done
  · rw [inv.running_unfinished runs] at done; cases done

/-- No request is in both queues. -/
theorem disjoint (waiting : r ∈ s.waiting) : r ∉ s.running := by
  intro running
  have queued := inv.waitingStatus r waiting
  rw [inv.runningStatus r running] at queued
  cases queued

theorem runningNodup : s.running.Nodup := (nodup_append.mp inv.nodup).2.1

theorem waitingNodup : s.waiting.Nodup := (nodup_append.mp inv.nodup).1

/-- Only one id leads to a request object. -/
theorem get?_inj {k k' : RequestId} (found : s.requests.get? k = some r)
    (found' : s.requests.get? k' = some r) : k = k' :=
  (inv.own k r found).symm.trans (inv.own k' r found')

/-- Ids tell request objects apart. -/
theorem apart {k : RequestId} {x : Ref} (found : s.requests.get? k = some x)
    (other : k ≠ (s.objs r).requestId) : x ≠ r := by
  rintro rfl
  exact other (inv.own k x found).symm

/-- A change that shrinks the queues and the dictionary, and keeps the statuses of what stays. -/
theorem shrink (nextRef : s'.nextRef = s.nextRef)
    (ids : ∀ r, (s'.objs r).requestId = (s.objs r).requestId)
    (requests : ∀ k r, s'.requests.get? k = some r → s.requests.get? k = some r)
    (nodup : (s'.waiting ++ s'.running).Nodup)
    (waiting : ∀ r ∈ s'.waiting, r ∈ s.waiting ∧ (s'.objs r).status = (s.objs r).status)
    (running : ∀ r ∈ s'.running, r ∈ s.running ∧ (s'.objs r).status = (s.objs r).status)
    (pinned : ∀ p ∈ s'.pinnedRequests, p.1 < s.nextRef ∧ (s'.objs p.1).isFinished = true) :
    QueueInv s' where
  own k r found := by rw [ids]; exact inv.own k r (requests k r found)
  known k r found := by rw [nextRef]; exact inv.known k r (requests k r found)
  nodup := nodup
  runningStatus r member := by
    rw [(running r member).2]; exact inv.runningStatus r (running r member).1
  waitingStatus r member := by
    rw [(waiting r member).2]; exact inv.waitingStatus r (waiting r member).1
  queued r member := by
    rw [nextRef]
    rcases mem_append.mp member with waits | runs
    · exact inv.queued r (mem_append_left _ (waiting r waits).1)
    · exact inv.queued r (mem_append_right _ (running r runs).1)
  pinned p member := by rw [nextRef]; exact pinned p member

/-- A change that leaves the queues, the pins and all statuses alone, and forgets ids at most. -/
theorem keep (queues : (s'.nextRef, s'.waiting, s'.running, s'.pinnedRequests) =
      (s.nextRef, s.waiting, s.running, s.pinnedRequests))
    (ids : ∀ r, (s'.objs r).requestId = (s.objs r).requestId)
    (statuses : ∀ r, (s'.objs r).status = (s.objs r).status)
    (requests : ∀ k r, s'.requests.get? k = some r → s.requests.get? k = some r) : QueueInv s' := by
  simp only [Prod.mk.injEq] at queues
  obtain ⟨nextRef, waiting, running, pins⟩ := queues
  refine inv.shrink nextRef ids requests (by rw [waiting, running]; exact inv.nodup)
    (fun r member => ⟨waiting ▸ member, statuses r⟩) (fun r member => ⟨running ▸ member, statuses r⟩)
    fun p member => ?_
  rw [pins] at member
  exact ⟨(inv.pinned p member).1, (congrArg _ (statuses p.1)).trans (inv.pinned p member).2⟩

/-- Replacing an object with the same id and status. -/
theorem withObj (r : Ref) (notes : List Effect) {req : Request H}
    (id : req.requestId = (s.objs r).requestId) (status : req.status = (s.objs r).status) :
    QueueInv (s.withObj r req notes) :=
  inv.keep rfl (update_field (fun req => req.requestId) id) (update_field Request.status status)
    fun _ _ found => found

/-- Filtering both queues keeps them free of duplicates. -/
theorem filter_nodup (keep : Ref → Bool) :
    (s.waiting.filter keep ++ s.running.filter keep).Nodup := by
  rw [← filter_append]
  exact inv.nodup.filter _

/-- A request that ends leaves the queues, and everything else stays as it was. -/
theorem retire {r : Ref} {req : Request H} {b : Bookkeeping C} {notes : List Effect} {outcome : Outcome}
    (ends : Retires cfg scope s r req b notes outcome) : QueueInv (s.retire r req b notes outcome) := by
  have finished := ends.ended.isFinished
  -- The state before the outcome already satisfies the invariant, with `r` finished.
  have withdrawn : QueueInv ((s.withdraw r req).book b notes) := by
    have kept : ∀ {r'}, !decide (r' = r) → (s.withdraw r req).objs r' = s.objs r' := by
      intro r' other
      simp [Scheduler.withdraw, show r' ≠ r by simpa using other]
    refine inv.shrink rfl (update_field (fun req => req.requestId) ends.ended.requestId)
      (fun _ _ found => found) (inv.filter_nodup _) ?_ ?_ ?_
    · intro r' member
      obtain ⟨waits, other⟩ := mem_filter.mp member
      exact ⟨waits, congrArg Request.status (kept other)⟩
    · intro r' member
      obtain ⟨runs, other⟩ := mem_filter.mp member
      exact ⟨runs, congrArg Request.status (kept other)⟩
    · intro p member
      refine ⟨(inv.pinned p member).1, ?_⟩
      by_cases same : p.1 = r
      · simpa [Scheduler.withdraw, Scheduler.book, same] using finished
      · simpa [Scheduler.withdraw, Scheduler.book, same] using (inv.pinned p member).2
  cases outcome with
  | delayed => exact withdrawn
  | freed =>
    exact withdrawn.keep rfl (fun _ => rfl) (fun _ => rfl) fun _ _ found => erase_sub found
  | pinned =>
    refine withdrawn.shrink rfl (fun _ => rfl) (fun _ _ found => found) withdrawn.nodup
      (fun _ member => ⟨member, rfl⟩) (fun _ member => ⟨member, rfl⟩) fun p member => ?_
    rcases mem_append.mp member with old | new
    · exact withdrawn.pinned p old
    · cases mem_singleton.mp new
      refine ⟨inv.known _ r ends.known, ?_⟩
      rw [Scheduler.retire_objs, Function.update_self]
      exact finished

/-- Giving back blocks only forgets a request. -/
theorem release (r : Ref) : QueueInv (s.release r) :=
  inv.keep rfl (fun _ => rfl) (fun _ => rfl) fun _ _ found => erase_sub found

/-- Dropping a pin leaves the other pins. -/
theorem dropPin {before after : List (Ref × PyFloat)} {entry : Ref × PyFloat}
    (found : s.pinnedRequests = before ++ entry :: after) :
    QueueInv { s with pinnedRequests := before ++ after } := by
  refine inv.shrink rfl (fun _ => rfl) (fun _ _ held => held) inv.nodup
    (fun _ member => ⟨member, rfl⟩) (fun _ member => ⟨member, rfl⟩) fun p member => ?_
  apply inv.pinned p
  rw [found]
  rcases mem_append.mp member with early | late
  · exact mem_append_left _ early
  · exact mem_append_right _ (mem_cons_of_mem _ late)

/-- Bookkeeping is not about the queues. -/
theorem book (b : Bookkeeping C) (notes : List Effect) : QueueInv (s.book b notes) :=
  inv.keep rfl (fun _ => rfl) (fun _ => rfl) fun _ _ found => found

/-- Every elementary change keeps the queues in order. -/
theorem move [DecidableEq H] (step : Move cfg scope s s') : QueueInv s' := by
  cases step with
  | book b => exact inv.book b []
  | reorder waiting perm =>
    have nodup : (waiting ++ s.running).Nodup := (perm.append_right s.running).nodup_iff.mpr inv.nodup
    exact inv.shrink rfl (fun _ => rfl) (fun _ _ found => found) nodup
      (fun _ member => ⟨perm.mem_iff.mp member, rfl⟩) (fun _ member => ⟨member, rfl⟩) inv.pinned
  | adjust r req notes touched adjusted =>
    exact inv.withObj r notes (Request.requestId_eq adjusted.kept.1) adjusted.kept.2
  | cache => exact inv.keep rfl (fun _ => rfl) (fun _ => rfl) fun _ _ found => found
  | retire r req b notes outcome ends => exact inv.retire ends
  | sent r => exact inv.release r
  | unpin before r expiry t after clock due found => exact inv.dropPin found
  | expire before r expiry t after clock due found =>
    exact (inv.dropPin found).release r

/-- Every sequence of elementary changes keeps the queues in order. -/
theorem moves [DecidableEq H] (steps : Moves cfg scope s s') : QueueInv s' := by
  induction steps with
  | refl => exact inv
  | tail _ last ih => exact ih.move last

end QueueInv

end Mimir
