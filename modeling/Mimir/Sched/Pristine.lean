import Mimir.Sched.Frames

/-! Requests that were never scheduled have computed nothing, and no batch in flight names them. -/

namespace Mimir

open Python List Function

variable {H C M : Type} {cfg : Config H C M} {scope : Scope} {s s' : Scheduler H C} {env : ScheduleEnv}
  {e : Engine H C M} {connector : C} {allowed : Engine H C M → Op → Prop} {r : Ref} {op : Op}

/-- The statuses of a request that was never scheduled. -/
def RequestStatus.isNew : RequestStatus → Bool
  | .waiting => true
  | .waitingForFsm => true
  | _ => false

/-- A finished request is not new. -/
theorem RequestStatus.not_isNew_of_isFinished {status : RequestStatus}
    (finished : status.isFinished = true) : status.isNew = false := by
  cases status <;> simp_all [isNew, isFinished]

/-- New requests have computed nothing, and nothing is loaded asynchronously. -/
structure Pristine {H C : Type} (s : Scheduler H C) : Prop where
  idle : ∀ r, (s.objs r).status.isNew = true → (s.objs r).numComputedTokens = 0
  inStep : ∀ r, (s.objs r).status ≠ .waitingForRemoteKvs

section Moves

/-- Only rejected draft tokens are taken back from what a request has computed. -/
theorem Move.numComputedTokens [DecidableEq H] (move : Move cfg scope s s') (r : Ref)
    (kept : ¬ (scope.drafts ∧ scope.touch r)) :
    (s'.objs r).numComputedTokens = (s.objs r).numComputedTokens := by
  cases move with
  | adjust r' req notes touched adjusted =>
    cases adjusted with
    | reject rejected allowed =>
      have other : r ≠ r' := by
        rintro rfl
        exact kept ⟨allowed, touched⟩
      simp [Scheduler.withObj, other]
    | append token _ done =>
      refine update_field Request.numComputedTokens ?_ r
      rw [appendOutputTokenId_eq done]
    | _ =>
      refine update_field Request.numComputedTokens ?_ r
      rfl
  | retire r' req b notes outcome ends =>
    rw [Scheduler.retire_objs]
    refine update_field Request.numComputedTokens ?_ r
    obtain ⟨last, _, _, _, grown, _⟩ := ends.ended
    exact grown.kept.2.2
  | _ => rfl

/-- The requests that are not new stay so. -/
def Worn (s s' : Scheduler H C) : Prop :=
  ∀ r, (s.objs r).status.isNew = false → (s'.objs r).status.isNew = false

/-- Moves that take back computed tokens of scheduled requests only. -/
theorem Pristine.moves [DecidableEq H] (pristine : Pristine s)
    (apart : ∀ r, scope.drafts → scope.touch r → (s.objs r).status.isNew = false)
    (moves : Moves cfg scope s s') : Pristine s' ∧ Worn s s' := by
  induction moves with
  | refl => exact ⟨pristine, fun _ old => old⟩
  | @tail mid last _ step ih =>
    obtain ⟨before, worn⟩ := ih
    refine ⟨⟨fun r new => ?_, fun r remote => ?_⟩, fun r old => ?_⟩
    · rcases step.status r with same | finished
      · -- A request still new was new at the start, so no batch names it.
        have newBefore : (mid.objs r).status.isNew = true := by rw [← same]; exact new
        rw [step.numComputedTokens r ?_]
        · exact before.idle r newBefore
        · rintro ⟨drafts, touched⟩
          have old := worn r (apart r drafts touched)
          rw [newBefore] at old
          cases old
      · rw [RequestStatus.not_isNew_of_isFinished finished] at new
        cases new
    · rcases step.status r with same | finished
      · exact before.inStep r (same.symm.trans remote)
      · unfold Request.isFinished at finished
        rw [remote] at finished
        cases finished
    · rcases step.status r with same | finished
      · rw [same]
        exact worn r old
      · exact RequestStatus.not_isNew_of_isFinished finished

end Moves

section Loops

variable {base : Scheduler H C}
  {f f' : Frame H C}

/-- What holds along the scheduling loops: new requests are pristine, and the plan has tokens only
for requests that are not new. -/
structure Frame.Pristine (base : Scheduler H C) (f : Frame H C) : Prop where
  sched : Mimir.Pristine f.sched
  worn : Worn base f.sched
  planned : ∀ r, f.sched.named f.plan.numScheduledTokens.keys r →
    (f.sched.objs r).status.isNew = false
  known : ∀ k r, f.sched.requests.get? k = some r → base.requests.get? k = some r

/-- A step that changes one request object, which stays new with what it has computed or is not new
afterwards. -/
theorem Frame.Pristine.update (pristine : Frame.Pristine base f) {req : Request H}
    (objs : f'.sched.objs = Function.update f.sched.objs r req)
    (inStep : req.status ≠ .waitingForRemoteKvs)
    (fits : req.status.isNew = false ∨ (req.status.isNew = (f.sched.objs r).status.isNew ∧
      req.numComputedTokens = (f.sched.objs r).numComputedTokens))
    (requests : f'.sched.requests = f.sched.requests)
    (planned : ∀ x, f.sched.named f'.plan.numScheduledTokens.keys x →
      f.sched.named f.plan.numScheduledTokens.keys x ∨ (x = r ∧ req.status.isNew = false)) :
    Frame.Pristine base f' := by
  have here : f'.sched.objs r = req := by rw [objs, update_self]
  have others : ∀ x, x ≠ r → f'.sched.objs x = f.sched.objs x := by
    intro x other
    rw [objs, update_of_ne other]
  -- A request that was not new is not new after the step.
  have older : ∀ x, (f.sched.objs x).status.isNew = false →
      (f'.sched.objs x).status.isNew = false := by
    intro x old
    by_cases same : x = r
    · subst same
      rw [here]
      rcases fits with new | ⟨kept, _⟩
      · exact new
      · rw [kept]
        exact old
    · rw [others x same]
      exact old
  refine ⟨⟨fun x new => ?_, fun x => ?_⟩, fun x old => older x (pristine.worn x old),
    fun x name => ?_, fun k x found => ?_⟩
  · by_cases same : x = r
    · subst same
      rw [here] at new ⊢
      rcases fits with old | ⟨kept, computed⟩
      · rw [old] at new
        cases new
      · rw [computed]
        exact pristine.sched.idle x (kept ▸ new)
    · rw [others x same] at new ⊢
      exact pristine.sched.idle x new
  · by_cases same : x = r
    · subst same
      rw [here]
      exact inStep
    · rw [others x same]
      exact pristine.sched.inStep x
  · unfold Scheduler.named at name
    rw [requests] at name
    rcases planned x name with before | ⟨same, old⟩
    · exact older x (pristine.planned x before)
    · subst same
      rw [here]
      exact old
  · rw [requests] at found
    exact pristine.known k x found

/-- A step that leaves objects, known requests and scheduled tokens alone. -/
theorem Frame.Pristine.same (pristine : Frame.Pristine base f)
    (objs : f'.sched.objs = f.sched.objs) (requests : f'.sched.requests = f.sched.requests)
    (scheduled : f'.plan.numScheduledTokens = f.plan.numScheduledTokens) :
    Frame.Pristine base f' := by
  refine ⟨⟨?_, ?_⟩, ?_, ?_, ?_⟩
  · rw [objs]
    exact pristine.sched.idle
  · rw [objs]
    exact pristine.sched.inStep
  · unfold Worn
    rw [objs]
    exact pristine.worn
  · unfold Scheduler.named
    rw [objs, requests, scheduled]
    exact pristine.planned
  · rw [requests]
    exact pristine.known

/-- Planning tokens for a queued request plans them for no other. -/
theorem Link.named_set (link : Link f.flat) (queued : r ∈ f.flat.waiting ++ f.flat.running)
    {n : Int} {x : Ref}
    (name : f.sched.named (f.plan.numScheduledTokens.set (f.sched.objs r).requestId n).keys x) :
    f.sched.named f.plan.numScheduledTokens.keys x ∨ x = r := by
  obtain ⟨id, member, found⟩ := name
  rcases PyDict.mem_keys_set.mp member with same | old
  · have own : f.sched.requests.get? (f.sched.objs r).requestId = some r := link.queued r queued
    rw [same, own] at found
    exact .inr (Option.some.inj found).symm
  · exact .inl ⟨id, old, found⟩

variable [DecidableEq H]

/-- Every step of the loops keeps new requests pristine. -/
theorem Frame.Pristine.step (inv : QueueInv f.flat) (link : Link f.flat) (loads : cfg.LoadsInStep)
    (pristine : Frame.Pristine base f) (step : LoopStep cfg env f f') : Frame.Pristine base f' := by
  cases step with
  | minor => exact pristine.same rfl rfl rfl
  | consult => exact pristine.same rfl rfl rfl
  | allocFail => exact pristine.same rfl rfl rfl
  | preempt f' victim early fifo what =>
    obtain ⟨cache, state⟩ := what.state
    refine pristine.update (by rw [state]) (by simp) (.inl rfl) (by rw [state]) fun x name => .inl ?_
    rw [what.plan] at name
    exact name
  | run r n newBlocks kv drafts planned member =>
    have status : (f.sched.objs r).status = .running := inv.runningStatus r member
    have old : (f.sched.objs r).status.isNew = false := by
      rw [status]
      rfl
    refine pristine.update rfl (pristine.sched.inStep r) (.inl old) rfl fun x name => ?_
    rcases link.named_set (mem_append_right _ member) name with before | same
    · exact .inl before
    · exact .inr ⟨same, old⟩
  | ready r answer s front done =>
    cases Scheduler.readyToSchedule_readied done with
    | same => exact pristine.same rfl rfl rfl
    | woken status =>
      refine pristine.update rfl (by simp) (.inr ⟨?_, rfl⟩) rfl fun x name => .inl name
      rw [status]
      rfl
    | loaded blockIds received kv status => exact absurd status (pristine.sched.inStep r)
  | skip f' r aside state => exact pristine.same (by rw [state]) (by rw [state]) (by rw [aside.plan])
  | start f' r computed connector n encoderTokens newBlocks kv calm starts started =>
    obtain ⟨numCached, state⟩ := started.state
    refine pristine.update (by rw [state]; rfl) (by simp) (.inl rfl) (by rw [state]; rfl) fun x name => ?_
    rw [started.scheduled] at name
    rcases link.named_set (mem_append_left _ (mem_append_right _ started.waits)) name with
      before | same
    · exact .inl before
    · exact .inr ⟨same, rfl⟩
  | park f' r computed connector encoderTokens newBlocks kv parks =>
    exact (parks.never loads).elim

end Loops

namespace Engine

/-- Requests are added under ids that are fresh and that no batch in flight names. -/
def UniqueIds (e : Engine H C M) : Op → Prop
  | .addRequest req => FreshId e.sched req.requestId ∧
      ∀ batch ∈ e.scheduled ++ e.executed, req.requestId ∉ batch.numScheduledTokens.keys
  | _ => True

instance (e : Engine H C M) (op : Op) : Decidable (e.UniqueIds op) :=
  match op with
  | .addRequest req => inferInstanceAs (Decidable (FreshId e.sched req.requestId ∧
      ∀ batch ∈ e.scheduled ++ e.executed, req.requestId ∉ batch.numScheduledTokens.keys))
  | .updateFromOutput _ _ | .finishRequests _ _ _ | .schedule _ | .execute | .updateDraftTokenIds _
  | .resetPrefixCache => inferInstanceAs (Decidable True)

/-- Unique ids are fresh. -/
theorem UniqueIds.freshIds (unique : e.UniqueIds op) : e.FreshIds op := by
  cases op with
  | addRequest => exact unique.1
  | _ => trivial

/-- New requests are pristine, and no batch in flight names one of them. -/
structure Pristine (e : Engine H C M) : Prop where
  sched : Mimir.Pristine e.sched
  batches : ∀ batch ∈ e.scheduled ++ e.executed, ∀ r,
    e.sched.named batch.numScheduledTokens.keys r → (e.sched.objs r).status.isNew = false

namespace Pristine

variable {e' : Engine H C M}

/-- An operation that forgets requests at most, keeps old ones old and adds no batch. -/
theorem keep (pristine : e.Pristine) (sched : Mimir.Pristine e'.sched) (worn : Worn e.sched e'.sched)
    (known : ∀ id r, e'.sched.requests.get? id = some r → e.sched.requests.get? id = some r)
    (batches : ∀ batch ∈ e'.scheduled ++ e'.executed, batch ∈ e.scheduled ++ e.executed) :
    e'.Pristine := by
  refine ⟨sched, fun batch member r name => ?_⟩
  obtain ⟨id, listed, found⟩ := name
  exact worn r (pristine.batches batch (batches batch member) r ⟨id, listed, known id r found⟩)

/-- Moves that take back computed tokens only for a batch in flight. -/
theorem moves [DecidableEq H] (pristine : e.Pristine)
    (apart : ∀ r, scope.drafts → scope.touch r → (e.sched.objs r).status.isNew = false)
    (steps : Moves cfg scope e.sched e'.sched)
    (batches : ∀ batch ∈ e'.scheduled ++ e'.executed, batch ∈ e.scheduled ++ e.executed) :
    e'.Pristine := by
  obtain ⟨sched, worn⟩ := pristine.sched.moves apart steps
  exact pristine.keep sched worn (fun _ _ found => steps.requests_sub found) batches

/-- A new request object is pristine, and its id is in no batch. -/
theorem addRequest {req : EngineCoreRequest} (inv : QueueInv e.sched) (pristine : e.Pristine)
    (unique : e.UniqueIds (.addRequest req)) (done : e.sched.addRequest cfg req = .ok s') :
    Pristine { e with sched := s' } := by
  obtain ⟨r, _, new, _, rfl⟩ := Scheduler.addRequest_spec done
  refine ⟨⟨fun x isNew => ?_, fun x => ?_⟩, fun batch member x name => ?_⟩
  · by_cases same : x = e.sched.nextRef
    · subst same
      simpa using new.computed
    · simp only [update_of_ne same] at isNew ⊢
      exact pristine.sched.idle x isNew
  · by_cases same : x = e.sched.nextRef
    · subst same
      simp only [update_self]
      rcases new.status with status | status <;> simp [status]
    · simp only [update_of_ne same]
      exact pristine.sched.inStep x
  · -- The batch names no new id, so it names an object that was there before.
    obtain ⟨id, listed, found⟩ := name
    have other : id ≠ req.requestId := by
      rintro rfl
      exact unique.2 batch member listed
    rw [PyDict.get?_set_ne _ _ other] at found
    have below : x ≠ e.sched.nextRef := Nat.ne_of_lt (inv.known id x found)
    simp only [update_of_ne below]
    exact pristine.batches batch member x ⟨id, listed, found⟩

/-- Drafting tokens touches neither status nor computed tokens nor the known requests. -/
theorem updateDraftTokenIds_fields (s : Scheduler H C) (drafts : List (RequestId × List TokenId)) :
    (s.updateDraftTokenIds drafts).requests = s.requests ∧ ∀ r,
      ((s.updateDraftTokenIds drafts).objs r).status = (s.objs r).status ∧
      ((s.updateDraftTokenIds drafts).objs r).numComputedTokens = (s.objs r).numComputedTokens := by
  induction drafts generalizing s with
  | nil => exact ⟨rfl, fun _ => ⟨rfl, rfl⟩⟩
  | cons item rest ih =>
    rcases item with ⟨id, specTokenIds⟩
    unfold Scheduler.updateDraftTokenIds
    split
    · exact ih s
    · rename_i r found
      split
      · exact ih s
      · obtain ⟨requests, objs⟩ := ih (s.modifyObj r fun req => { req with specTokenIds })
        refine ⟨requests, fun x => ?_⟩
        obtain ⟨status, computed⟩ := objs x
        rw [status, computed]
        exact ⟨update_field Request.status (by rfl) x, update_field Request.numComputedTokens (by rfl) x⟩

variable [DecidableEq H]

/-- A scheduled batch names requests that are not new any more. -/
theorem schedule {out : SchedulerOutput M} (loads : cfg.LoadsInStep)
    (fresh : ∀ a op, allowed a op → a.FreshIds op)
    (visited : Visited cfg connector allowed e.sched) (permitted : allowed e (.schedule env))
    (pristine : e.Pristine) (scheduled : e.sched.schedule cfg env = .ok (out, s')) :
    Pristine { e with sched := s', scheduled := e.scheduled ++ [out] } := by
  obtain ⟨f, passed, frame, finished⟩ := visited.frames (P := Frame.Pristine e.sched) permitted
    scheduled
    (fun s₁ _ expired _ => by
      obtain ⟨sched, worn⟩ := pristine.sched.moves (fun r _ touched => False.elim touched) expired
      refine ⟨sched, worn, fun r name => ?_, fun _ _ found => expired.requests_sub found⟩
      obtain ⟨id, member, _⟩ := name
      cases member)
    (fun f f' passed frame step => frame.step passed.queueInv (passed.link fresh) loads step)
  obtain ⟨numbers, _, waiting, cache, connector', _, rfl⟩ :=
    Scheduler.finishSchedule_spec passed.queueInv.own finished
  refine ⟨⟨fun r new => ?_, frame.sched.inStep⟩, fun batch member r name => ?_⟩
  · -- Tokens are counted for planned requests, and those are not new.
    have none : scheduledFor f.sched.requests f.plan.numScheduledTokens.items
        (f.sched.objs r).requestId r = 0 := by
      by_contra nonzero
      have known := scheduledFor_known nonzero
      have listed : (f.sched.objs r).requestId ∈ f.plan.numScheduledTokens.keys := by
        by_contra absent
        apply nonzero
        unfold scheduledFor
        rw [if_pos known]
        have missing := PyDict.get?_eq_none_iff.mpr absent
        unfold PyDict.get? at missing
        rw [missing]
        rfl
      have old := frame.planned r ⟨_, listed, known⟩
      have still : (f.sched.objs r).status.isNew = true := new
      rw [old] at still
      cases still
    show (f.sched.objs r).numComputedTokens + _ = 0
    rw [none, add_zero]
    exact frame.sched.idle r new
  · obtain ⟨id, listed, found⟩ := name
    have split : batch ∈ e.scheduled ++ e.executed ∨ batch = out := by
      simp only [mem_append, mem_singleton] at member ⊢
      tauto
    rcases split with older | rfl
    · exact frame.worn r (pristine.batches batch older r ⟨id, listed, frame.known id r found⟩)
    · rw [numbers] at listed
      exact frame.planned r ⟨id, listed, found⟩

/-- Every operation keeps new requests pristine. -/
theorem exec (loads : cfg.LoadsInStep) (unique : ∀ a op, allowed a op → a.UniqueIds op)
    (visited : Visited cfg connector allowed e.sched) (permitted : allowed e op)
    (pristine : e.Pristine) (done : e.exec cfg op = .ok e') : e'.Pristine := by
  have fresh : ∀ a op, allowed a op → a.FreshIds op := fun a op h => (unique a op h).freshIds
  have inv := visited.queueInv
  cases op with
  | addRequest =>
    obtain ⟨s', added, built⟩ := bind_eq_ok.mp done
    cases built
    exact pristine.addRequest inv (unique _ _ permitted) added
  | schedule =>
    obtain ⟨⟨out, s'⟩, scheduled, built⟩ := bind_eq_ok.mp done
    cases built
    exact pristine.schedule loads fresh visited permitted scheduled
  | execute =>
    cases waiting : e.scheduled with
    | nil => simp [Engine.exec, waiting] at done
    | cons batch =>
      simp only [Engine.exec, waiting, Except.ok.injEq] at done
      subst done
      have same : (executeBatch cfg e.sched batch).objs = e.sched.objs ∧
          (executeBatch cfg e.sched batch).requests = e.sched.requests := by
        unfold executeBatch
        split <;> exact ⟨rfl, rfl⟩
      refine pristine.keep ⟨?_, ?_⟩ ?_ ?_ ?_
      · rw [same.1]
        exact pristine.sched.idle
      · rw [same.1]
        exact pristine.sched.inStep
      · unfold Worn
        rw [same.1]
        exact fun _ old => old
      · rw [same.2]
        exact fun _ _ found => found
      · intro b member
        simp only [waiting, mem_append, mem_cons] at member ⊢
        tauto
  | updateFromOutput =>
    cases executed : e.executed with
    | nil => simp [Engine.exec, executed] at done
    | cons batch =>
      simp only [Engine.exec, executed] at done
      obtain ⟨⟨outputs, s'⟩, updated, built⟩ := bind_eq_ok.mp done
      cases built
      have steps := Scheduler.updateFromOutput_moves inv (fun _ _ (h : False) => h.elim)
        (fun (h : drafted batch) => h) updated
      have here : batch ∈ e.scheduled ++ e.executed := by simp [executed]
      refine pristine.moves (fun r _ touched => pristine.batches batch here r touched) steps ?_
      intro b member
      simp only [executed, mem_append, mem_cons] at member ⊢
      tauto
  | finishRequests =>
    obtain ⟨s', finished, built⟩ := bind_eq_ok.mp done
    cases built
    exact pristine.moves (fun r drafts _ => False.elim drafts)
      (Scheduler.finishRequests_moves inv (fun _ _ (h : False) => h.elim) finished)
      fun _ member => member
  | updateDraftTokenIds drafts =>
    cases done
    obtain ⟨requests, objs⟩ := updateDraftTokenIds_fields e.sched drafts
    refine pristine.keep ⟨fun r new => ?_, fun r => ?_⟩ (fun r old => ?_) ?_ fun _ member => member
    · rw [(objs r).1] at new
      rw [(objs r).2]
      exact pristine.sched.idle r new
    · rw [(objs r).1]
      exact pristine.sched.inStep r
    · rw [(objs r).1]
      exact old
    · rw [requests]
      exact fun _ _ found => found
  | resetPrefixCache =>
    cases done
    exact ⟨⟨pristine.sched.idle, pristine.sched.inStep⟩, pristine.batches⟩

end Pristine

variable [DecidableEq H]

/-- New requests are pristine in every run whose requests have unique ids. -/
theorem Reachable.pristine (loads : cfg.LoadsInStep) (unique : ∀ a op, allowed a op → a.UniqueIds op)
    (reached : Reachable cfg connector allowed e) : e.Pristine := by
  have both : Visited cfg connector allowed e.sched ∧ e.Pristine := by
    refine Steps.invariant (I := fun x => Visited cfg connector allowed x.sched ∧ x.Pristine) reached
      ⟨.start, ⟨⟨fun _ _ => rfl, fun _ => by simp [Engine.init, Scheduler.init]⟩, ?_⟩⟩ ?_
    · intro batch member
      cases member
    · intro a b op before permitted done
      exact ⟨before.1.exec permitted done, before.2.exec loads unique before.1 permitted done⟩
  exact both.2

end Engine

end Mimir
