import Mimir.Sched.QueueInv
import Mathlib.Data.List.Dedup

/-! Finish signals, model outputs and pin expiry as sequences of elementary changes. -/

namespace Mimir

open Python List Function

namespace Scheduler

variable {H C M : Type} {cfg : Config H C M} {s s' : Scheduler H C} {r : Ref}

/-- Freeing blocks is releasing the request, which must be finished and known. -/
theorem freeBlocks_eq (done : s.freeBlocks r = .ok s') :
    (s.objs r).isFinished = true ∧ (s.objs r).requestId ∈ s.requests.keys ∧ s' = s.release r := by
  obtain ⟨_, finished, rest⟩ := bind_eq_ok.mp done
  obtain ⟨_, present, built⟩ := bind_eq_ok.mp rest
  cases built
  exact ⟨require_eq_ok.mp finished, require_eq_ok.mp present, rfl⟩

/-- A finished request that is known gives its blocks back. -/
theorem freeBlocks_ok (finished : (s.objs r).isFinished = true)
    (known : (s.objs r).requestId ∈ s.requests.keys) : s.freeBlocks r = .ok (s.release r) :=
  bind_eq_ok.mpr ⟨(), require_eq_ok.mpr finished, bind_eq_ok.mpr ⟨(), require_eq_ok.mpr known, rfl⟩⟩

variable {params : Option KVTransferParams} {now : PyFloat} {clock : Ref → PyFloat}
  {status : RequestStatus} {ids : List RequestId} {fresh drafts : Prop} {req req' : Request H}
  {maxModelLen : Int} {pooler : Option Nat} {stopped stopped' : Bool} {scope : Scope}
  {tokens tokens' : List TokenId} {poolers : List (Option Nat)} {acc acc' : UpdateAcc}
  {batch : SchedulerOutput M} {model : ModelRunnerOutput} {id : RequestId}
  {items : List (RequestId × Int)} {outputs : PyDict Nat EngineCoreOutputs}

/-- Asking the connector changes the connector only, and without one nothing is delayed. -/
theorem connectorFinished_spec {delay : Bool}
    (done : s.connectorFinished cfg r = .ok ((delay, params), s')) :
    ∃ c, s' = s.book { s.bookkeeping with connector := c } [] ∧
      (delay = true → Outcome.delayed.Allowed cfg) ∧
      ∀ outcome : Outcome, (outcome = .delayed ↔ delay = true) →
        outcome.Decided cfg s.kvCacheManager s.connector c (s.objs r) := by
  unfold connectorFinished at done
  unfold Outcome.Decided
  cases plugged : cfg.connector with
  | none =>
    simp only [plugged, Except.ok.injEq, Prod.mk.injEq] at done
    obtain ⟨⟨rfl, rfl⟩, rfl⟩ := done
    exact ⟨s.connector, rfl, by simp, fun outcome same => ⟨rfl, fun keeps => by simp [same] at keeps⟩⟩
  | some ops =>
    simp only [plugged] at done
    split at done
    · rename_i blockIds blocks
      obtain ⟨⟨⟨delay', params'⟩, c⟩, answer, built⟩ := bind_eq_ok.mp done
      cases built
      refine ⟨c, rfl, ?_, fun outcome same => ⟨blockIds, _, blocks, answer, same⟩⟩
      rintro rfl
      refine ⟨ops, plugged, fun never => ?_⟩
      cases never _ _ _ _ _ answer
    · cases done

/-- The pin decision records at most one tool duration. -/
theorem setUpPin_spec {job : XArg} {ttl : PyFloat} (done : s.setUpPin cfg r job = .ok (ttl, s')) :
    ∃ b notes, s' = s.book b notes ∧ (∀ e ∈ notes, EndNote r e) ∧ b.connector = s.connector ∧
      Recorded s.jobToolHistory r (some job) b.jobToolHistory notes := by
  unfold setUpPin at done
  split at done
  · obtain ⟨mid, recorded, built⟩ := bind_eq_ok.mp done
    cases built
    unfold recordDuration at recorded
    split at recorded
    · cases recorded
      exact ⟨s.bookkeeping, [], rfl, by simp, rfl, .none _ rfl⟩
    · obtain ⟨duration, _, noted⟩ := bind_eq_ok.mp recorded
      cases noted
      refine ⟨{ s.bookkeeping with
        jobToolHistory :=
          s.jobToolHistory.set (job.dictKey r) (s.toolHistory r job ++ [duration]) },
        [.durationRecorded r duration], rfl, ?_, rfl, .tool job duration _ rfl rfl⟩
      intro e member
      exact .inr (.inl ⟨duration, mem_singleton.mp member⟩)
  · cases done
    exact ⟨s.bookkeeping, [], rfl, by simp, rfl, .none _ rfl⟩

/-- Noting effects twice is noting them together. -/
theorem book_book (s : Scheduler H C) (b b' : Bookkeeping C) (notes notes' : List Effect) :
    (s.book b notes).book b' notes' = s.book b' (notes' ++ notes) := by
  simp [book, append_assoc]

/-- Reporting a finished request notes one effect. -/
theorem reportFinished_eq (cfg : Config H C M) (s : Scheduler H C) (r : Ref) :
    ∃ b, s.reportFinished cfg r = s.book b [.reported r] ∧ b.connector = s.connector ∧
      b.jobToolHistory = s.jobToolHistory := by
  refine ⟨{ s.bookkeeping with
    encoderCacheManager := s.encoderCacheManager.free (s.objs r)
    finishedReqIds := addId s.finishedReqIds (s.objs r).requestId
    finishedReqIdsDict :=
      if cfg.includeFinishedSet then
        s.finishedReqIdsDict.set (s.objs r).clientIndex
          (addId ((s.finishedReqIdsDict.get? (s.objs r).clientIndex).getD []) (s.objs r).requestId)
      else s.finishedReqIdsDict }, rfl, rfl, rfl⟩

/-- The end of a request: the connector's answer and its notes, then one of the three outcomes. -/
theorem freeRequest_spec (done : s.freeRequest cfg now r = .ok (params, s')) :
    ∃ b notes outcome, s' = (s.book b notes).settle r outcome ∧ (∀ e ∈ notes, EndNote r e) ∧
      outcome.Allowed cfg ∧ .reported r ∈ notes ∧
      outcome.Decided cfg s.kvCacheManager s.connector b.connector (s.objs r) ∧
      Recorded s.jobToolHistory r (s.objs r).jobId b.jobToolHistory notes := by
  obtain ⟨_, _, done⟩ := bind_eq_ok.mp done
  obtain ⟨⟨⟨delay, params'⟩, s₁⟩, asked, done⟩ := bind_eq_ok.mp done
  obtain ⟨c, rfl, delayed, decided⟩ := connectorFinished_spec asked
  obtain ⟨b₂, reported, told, unrecorded⟩ :=
    reportFinished_eq cfg (s.book { s.bookkeeping with connector := c } []) r
  dsimp only at done
  rw [reported, book_book] at done
  obtain ⟨⟨ttl, s₂⟩, timed, done⟩ := bind_eq_ok.mp done
  -- Whether or not a pin was considered, only notes were added so far.
  have noted : ∃ b notes, s₂ = s.book b notes ∧ (∀ e ∈ notes, EndNote r e) ∧
      .reported r ∈ notes ∧ b.connector = c ∧
      Recorded s.jobToolHistory r (s.objs r).jobId b.jobToolHistory notes ∧
      (PyFloat.lt (.fin 0) ttl = true → cfg.policy = .mimir ∧ delay = false) := by
    have single : ∀ e ∈ [Effect.reported r] ++ [], EndNote r e := by
      intro e member
      rw [append_nil] at member
      exact .inl (mem_singleton.mp member)
    unfold pinTtl at timed
    split at timed
    · rename_i job chosen
      have owner : (s.objs r).jobId = some job := by
        unfold pinJob at chosen
        split at chosen
        · exact chosen
        · cases chosen
      obtain ⟨b₃, notes, rfl, ended, same, recorded⟩ := setUpPin_spec timed
      refine ⟨b₃, notes ++ ([.reported r] ++ []), book_book _ _ _ _ _, ?_, by simp,
        same.trans told, ?_, ?_⟩
      · intro e member
        rcases mem_append.mp member with new | old
        · exact ended e new
        · exact single e old
      · have before : (s.book b₂ ([.reported r] ++ [])).jobToolHistory = s.jobToolHistory := unrecorded
        rw [owner, ← before]
        exact recorded.append rfl
      · intro _
        unfold pinJob at chosen
        split at chosen
        · rename_i eligible; exact ⟨eligible.1, eligible.2.2⟩
        · cases chosen
    · cases timed
      have nothing : Recorded s.jobToolHistory r (s.objs r).jobId b₂.jobToolHistory [.reported r] := by
        rw [unrecorded]
        exact .none _ rfl
      exact ⟨b₂, _, rfl, single, by simp, told, nothing, by simp [PyFloat.lt]⟩
  obtain ⟨b, notes, rfl, ended, mentioned, same, recorded, policy⟩ := noted
  rw [← same] at decided
  dsimp only at done
  split at done
  · rename_i positive
    cases done
    exact ⟨b, notes, .pinned (now.add ttl), rfl, ended, (policy positive).1, mentioned,
      decided _ (by simp [(policy positive).2]), recorded⟩
  · split at done
    · rename_i keep
      cases done
      exact ⟨b, notes, .delayed, rfl, ended, delayed keep, mentioned, decided _ (by simp [keep]),
        recorded⟩
    · rename_i prompt
      obtain ⟨s₃, freed, built⟩ := bind_eq_ok.mp done
      cases built
      exact ⟨b, notes, .freed, (freeBlocks_eq freed).2.2, ended, trivial, mentioned,
        decided _ (by simp [prompt]), recorded⟩

/-- Filtering out one request and then others filters out all of them. -/
theorem filter_cons_mem (list : List Ref) (r : Ref) (rest : List Ref) :
    (list.filter fun r' => !decide (r' = r)).filter (fun r' => !decide (r' ∈ rest)) =
      list.filter fun r' => !decide (r' ∈ r :: rest) := by
  rw [filter_filter]
  apply filter_congr
  intro r' _
  by_cases same : r' = r <;> simp [same]

/-- The second pass of a finish signal retires its requests one by one. -/
theorem finishAll_moves [DecidableEq H] (scope : Scope)
    (finished : status.isFinished = true) {refs : List Ref} (nodup : refs.Nodup)
    (touched : ∀ r ∈ refs, scope.touch r)
    (known : ∀ r ∈ refs, s.requests.get? (s.objs r).requestId = some r)
    (live : ∀ r ∈ refs, scope.fresh → (s.objs r).isFinished = false)
    (done : finishAll cfg clock status refs s = .ok s') (waiting running : List Ref) :
    Moves cfg scope { s with waiting, running }
      { s' with
        waiting := waiting.filter fun r => !decide (r ∈ refs)
        running := running.filter fun r => !decide (r ∈ refs) } ∧
      s'.waiting = s.waiting ∧ s'.running = s.running := by
  -- The queues are followed separately, since the program emptied them beforehand.
  induction refs generalizing s waiting running with
  | nil =>
    cases done
    simp only [not_mem_nil, decide_false, Bool.not_false, filter_true, and_self, and_true]
    exact .refl
  | cons r rest ih =>
    obtain ⟨⟨params, s₁⟩, freed, done⟩ := bind_eq_ok.mp done
    obtain ⟨b, notes, outcome, ended, noted, allowed, reported, decided, recorded⟩ :=
      freeRequest_spec freed
    dsimp only at done
    have fresh : r ∉ rest := (nodup_cons.mp nodup).1
    have kept : ∀ r' ∈ rest, s₁.objs r' = s.objs r' := by
      intro r' member
      have other : r' ≠ r := by rintro rfl; exact fresh member
      rw [ended]
      cases outcome <;> simp [settle, release, book, modifyObj, other]
    -- The ids of the remaining requests are others, so forgetting this one keeps them.
    have still : ∀ r' ∈ rest, s₁.requests.get? (s₁.objs r').requestId = some r' := by
      intro r' member
      rw [kept r' member]
      have held := known r' (mem_cons_of_mem _ member)
      have other : (s.objs r').requestId ≠ (s.objs r).requestId := by
        intro same
        rw [same, known r (mem_cons_self ..)] at held
        cases held
        exact fresh member
      rw [ended]
      cases outcome with
      | pinned => exact held
      | delayed => exact held
      | freed =>
        simp only [settle, release, book, modifyObj, update_self]
        rw [PyDict.get?_erase_ne _ other]
        exact held
    have first : Move cfg scope { s with waiting, running }
        { s₁ with
          waiting := waiting.filter fun r' => !decide (r' = r)
          running := running.filter fun r' => !decide (r' = r) } := by
      have move : Move cfg scope _ _ := .retire { s with waiting, running } r { s.objs r with status }
        b notes outcome ⟨touched r (mem_cons_self ..), known r (mem_cons_self ..),
          live r (mem_cons_self ..), .mk _ status _ _ .same finished, noted, reported, allowed,
          by simpa [modifyObj] using decided, by simpa [modifyObj] using recorded⟩
      rw [ended]
      cases outcome <;> exact move
    obtain ⟨steps, sameWaiting, sameRunning⟩ := ih (nodup_cons.mp nodup).2
      (fun r' member => touched r' (mem_cons_of_mem _ member)) still
      (fun r' member open' => by
        rw [kept r' member]; exact live r' (mem_cons_of_mem _ member) open')
      done (waiting.filter fun r' => !decide (r' = r)) (running.filter fun r' => !decide (r' = r))
    rw [filter_cons_mem, filter_cons_mem] at steps
    refine ⟨.head first steps, ?_, ?_⟩
    · rw [sameWaiting, ended]; cases outcome <;> rfl
    · rw [sameRunning, ended]; cases outcome <;> rfl

/-- The requests a set of ids names. -/
def named (s : Scheduler H C) (ids : List RequestId) (r : Ref) : Prop :=
  ∃ id ∈ ids, s.requests.get? id = some r

/-- The objects behind different ids are different. -/
theorem valid_nodup (inv : QueueInv s) (nodup : ids.Nodup) :
    (ids.filterMap s.requests.get?).Nodup := by
  apply List.Nodup.filterMap _ nodup
  intro k k' r found found'
  exact inv.get?_inj found found'

/-- A finish signal retires the requests it names, each of which leaves its queue. -/
theorem finishRequests_moves [DecidableEq H] (inv : QueueInv s)
    (live : ∀ r, s.named ids r → fresh → (s.objs r).isFinished = false)
    (done : s.finishRequests cfg clock ids status = .ok s') :
    Moves cfg ⟨s.named ids, fun _ => False, fresh, False, none, False⟩ s s' := by
  obtain ⟨_, finished, done⟩ := bind_eq_ok.mp done
  obtain ⟨waiting, removed, done⟩ := bind_eq_ok.mp done
  have nodup := valid_nodup inv (nodup_dedup ids)
  have naming : ∀ r ∈ ids.dedup.filterMap s.requests.get?, s.named ids r := by
    intro r member
    obtain ⟨id, listed, found⟩ := mem_filterMap.mp member
    exact ⟨id, mem_dedup.mp listed, found⟩
  have known : ∀ r ∈ ids.dedup.filterMap s.requests.get?,
      s.requests.get? (s.objs r).requestId = some r := by
    intro r member
    obtain ⟨id, listed, found⟩ := mem_filterMap.mp member
    rw [inv.own id r found]
    exact found
  set valid := ids.dedup.filterMap s.requests.get? with valid_def
  obtain ⟨steps, sameWaiting, sameRunning⟩ := finishAll_moves
    ⟨s.named ids, fun _ => False, fresh, False, none, False⟩
    (s := { s with
      running := removeAll s.running (valid.filter fun r => (s.objs r).status = .running)
      waiting })
    (require_eq_ok.mp finished) nodup naming known (fun r member => live r (naming r member)) done
    s.waiting s.running
  -- In each queue the filter by status removes exactly the named requests.
  have runs : s'.running = s.running.filter fun r => !decide (r ∈ valid) := by
    rw [sameRunning, removeAll_eq_filter inv.runningNodup]
    apply filter_congr
    intro r member
    simp [mem_filter, inv.runningStatus r member]
  have waits : s'.waiting.Perm (s.waiting.filter fun r => !decide (r ∈ valid)) := by
    rw [sameWaiting]
    have exactly : (s.waiting.filter fun r =>
        !decide (r ∈ valid.filter fun r => decide ((s.objs r).status ≠ .running))) =
        s.waiting.filter fun r => !decide (r ∈ valid) := by
      apply filter_congr
      intro r member
      have queued := RequestStatus.ne_running_of_isQueued (inv.waitingStatus r member)
      simp [mem_filter, queued]
    unfold removeWaiting at removed
    split at removed
    · rename_i none
      cases removed
      rw [← exactly, List.isEmpty_iff.mp none]
      simp
    · rw [← exactly]
      exact (queueRemoveAll_sat s.objs cfg.policy s.waiting _).post_of_ok removed
  have last : Move cfg ⟨s.named ids, fun _ => False, fresh, False, none, False⟩
      { s' with
        waiting := s.waiting.filter fun r => !decide (r ∈ valid)
        running := s.running.filter fun r => !decide (r ∈ valid) } s' := by
    rw [← runs]
    exact .reorder { s' with waiting := s.waiting.filter fun r => !decide (r ∈ valid) } s'.waiting waits
  exact .tail steps last

/-- A stop check either changes nothing below the length limit, or sets a finished status. -/
theorem checkStop_spec (done : checkStop req maxModelLen pooler = .ok (stopped, req')) :
    (stopped = false ∧ req' = req ∧ (req.numTokens : Int) < maxModelLen) ∨
      (stopped = true ∧ ∃ status stopReason, RequestStatus.isFinished status = true ∧
        req' = { req with status, stopReason }) := by
  unfold checkStop at done
  split at done
  · cases done
    exact .inr ⟨rfl, _, req.stopReason, rfl, rfl⟩
  · rename_i short
    have below : (req.numTokens : Int) < maxModelLen := by
      by_contra long
      exact short (.inl (by omega))
    split at done
    · split at done
      · cases done
        exact .inr ⟨rfl, _, req.stopReason, rfl, rfl⟩
      · cases done
        exact .inl ⟨rfl, rfl, below⟩
    · obtain ⟨sampling, _, done⟩ := bind_eq_ok.mp done
      obtain ⟨token, _, done⟩ := bind_eq_ok.mp done
      split at done
      · cases done
        exact .inr ⟨rfl, _, req.stopReason, rfl, rfl⟩
      · split at done
        · cases done
          exact .inr ⟨rfl, _, some token, rfl, rfl⟩
        · cases done
          exact .inl ⟨rfl, rfl, below⟩

/-- A request that its tokens stopped is also stopped by the check for pooling models, which reads
neither the status nor the stop reason nor the placeholders. -/
theorem checkStop_again {req'' : Request H} {stopReason : Option TokenId} {placeholders : Int}
    (first : checkStop req maxModelLen none = .ok (true, req'))
    (second : checkStop { req with status, stopReason, numOutputPlaceholders := placeholders }
      maxModelLen pooler = .ok (stopped, req'')) : stopped = true := by
  unfold checkStop at first second
  by_cases long : (req.numTokens : Int) ≥ maxModelLen ∨ req.outputTokenIds.length ≥ req.maxTokens
  · split at second
    · cases second; rfl
    · rename_i short; exact absurd long short
  · rw [if_neg long] at first
    split at second
    · cases second; rfl
    · by_cases pools : req.poolingParams = true
      · simp [pools] at first
      · rw [if_neg pools] at first second
        obtain ⟨sampling, params, first⟩ := bind_eq_ok.mp first
        obtain ⟨token, last, first⟩ := bind_eq_ok.mp first
        obtain ⟨sampling', params', second⟩ := bind_eq_ok.mp second
        obtain ⟨token', last', second⟩ := bind_eq_ok.mp second
        rw [orRaise_eq_ok] at params last params' last'
        cases params.symm.trans params'
        cases last.symm.trans last'
        by_cases eos : sampling.ignoreEos = false ∧ some token = req.eosTokenId
        · rw [if_pos eos] at second
          cases second
          rfl
        · rw [if_neg eos] at first second
          by_cases stops : token ∈ sampling.stopTokenIds
          · rw [if_pos stops] at second
            cases second
            rfl
          · rw [if_neg stops] at first
            cases first

/-- The state with another KV cache. -/
def withCache (s : Scheduler H C) (kv : KVCacheManager H) : Scheduler H C :=
  { s with kvCacheManager := kv }

/-- Overriding the queues of a state. -/
def withQueues (s : Scheduler H C) (waiting running : List Ref) : Scheduler H C :=
  { s with waiting, running }

/-- Replacing an object twice. -/
theorem withObj_withObj (s : Scheduler H C) (r : Ref) (req req' : Request H) (notes notes' : List Effect) :
    (s.withObj r req notes).withObj r req' notes' = s.withObj r req' (notes' ++ notes) := by
  simp [withObj]

/-- Sampled tokens are appended one by one; if one stops the request, it is the last. -/
theorem updateRequestWithOutput_moves [DecidableEq H] (touched : scope.touch r)
    (done : updateRequestWithOutput cfg r tokens s = .ok ((tokens', stopped), s'))
    (waiting running : List Ref) :
    ∃ req notes, Moves cfg scope (s.withQueues waiting running)
        ((s.withObj r req notes).withQueues waiting running) ∧
      req.fixed = (s.objs r).fixed ∧ req.status = (s.objs r).status ∧
      ((stopped = false ∧ s' = s.withObj r req notes) ∨
        (stopped = true ∧ ∃ last token status stopReason, Grown cfg req last ∧
          status.isFinished = true ∧
          checkStop last cfg.kv.maxModelLen none = .ok (true, { last with status, stopReason }) ∧
          s' = s.withObj r { last with status, stopReason } (.appended r token :: notes))) := by
  induction tokens generalizing s tokens' with
  | nil =>
    simp only [updateRequestWithOutput, Except.ok.injEq, Prod.mk.injEq] at done
    obtain ⟨⟨-, going⟩, same⟩ := done
    refine ⟨s.objs r, [], ?_, rfl, rfl, .inl ⟨going.symm, ?_⟩⟩
    · simp only [withObj, update_eq_self, nil_append]
      exact .refl
    · rw [← same]; simp [withObj]
  | cons token rest ih =>
    obtain ⟨req, appended, tail⟩ := bind_eq_ok.mp done
    obtain ⟨⟨stop, req'⟩, checked, tail'⟩ := bind_eq_ok.mp tail
    simp only [modifyObj, log, update_self, update_idem] at checked tail'
    obtain ⟨rfl, rfl, short⟩ | ⟨rfl, status, stopReason, finished, rfl⟩ := checkStop_spec checked
    · -- The token did not stop the request, so the loop goes on from the longer request.
      simp only [Bool.false_eq_true, ↓reduceIte] at tail'
      obtain ⟨⟨⟨more, stop⟩, s₁⟩, looped, built⟩ := bind_eq_ok.mp tail'
      cases built
      have adjusted : Adjusted cfg scope r (s.objs r) req' [.appended r token] :=
        .append token req' appended short
      obtain ⟨req₁, notes, steps, fixed, status, result⟩ := ih (s := s.withObj r req' [.appended r token]) looped
      simp only [withObj_withObj] at steps result
      simp only [withObj, update_self] at fixed status
      exact ⟨req₁, notes ++ [Effect.appended r token],
        .head (.adjust (s.withQueues waiting running) r req' _ touched adjusted) steps,
        fixed.trans adjusted.kept.1, status.trans adjusted.kept.2, result⟩
    · -- The token stopped the request.
      cases tail'
      refine ⟨s.objs r, [], ?_, rfl, rfl,
        .inr ⟨rfl, req, token, status, stopReason, .token token req appended, finished, checked, rfl⟩⟩
      simp only [withObj, update_eq_self, nil_append]
      exact .refl

/-- The state an update loop stands for: stopped requests are out of their queues already. -/
def view (s : Scheduler H C) (acc : UpdateAcc) : Scheduler H C :=
  s.withQueues (s.waiting.filter fun r => !decide (r ∈ acc.stoppedPreemptedReqs))
    (s.running.filter fun r => !decide (r ∈ acc.stoppedRunningReqs))

/-- Filtering out one more request. -/
theorem filter_snoc_mem (list gone : List Ref) (r : Ref) :
    list.filter (fun r' => !decide (r' ∈ gone ++ [r])) =
      (list.filter fun r' => !decide (r' ∈ gone)).filter fun r' => !decide (r' = r) := by
  rw [filter_filter]
  apply filter_congr
  intro r' _
  by_cases same : r' = r <;> simp [same]

/-- Filtering out a request that is not there changes nothing. -/
theorem filter_absent {list : List Ref} {r : Ref} (absent : r ∉ list) :
    list.filter (fun r' => !decide (r' = r)) = list := by
  apply filter_eq_self.mpr
  intro r' member
  have other : r' ≠ r := by rintro rfl; exact absent member
  simp [other]

/-- Rejected drafts are a move of their own. -/
theorem rejectDraftTokens_moves [DecidableEq H] (cfg : Config H C M) (s : Scheduler H C)
    (touched : scope.touch r) {drafts : List TokenId} (allowed : drafts ≠ [] → scope.drafts)
    (generated : Nat) (waiting running : List Ref) :
    ∃ req, s.rejectDraftTokens r drafts generated = s.withObj r req [] ∧
      req.fixed = (s.objs r).fixed ∧ req.status = (s.objs r).status ∧
      Moves cfg scope (s.withQueues waiting running)
        ((s.withObj r req []).withQueues waiting running) := by
  unfold rejectDraftTokens
  split
  · refine ⟨s.objs r, by simp [withObj], rfl, rfl, ?_⟩
    simp only [withObj, update_eq_self, nil_append]
    exact .refl
  · rename_i nonempty
    have present : drafts ≠ [] := by rintro rfl; simp at nonempty
    exact ⟨_, rfl, rfl, rfl, .single (.adjust (s.withQueues waiting running) r _ [] touched
      (.reject _ (allowed present)))⟩

/-- The stop check of pooling models keeps the request, or stops it for good. -/
theorem checkPooler_spec {index : Nat}
    (done : s.checkPooler cfg r poolers index stopped = .ok ((pooler, stopped'), s')) :
    (stopped' = stopped ∧ s' = s) ∨ ∃ po req, checkStop (s.objs r) cfg.kv.maxModelLen po =
      .ok (stopped', req) ∧ s' = s.withObj r req [] := by
  unfold checkPooler at done
  split at done
  · cases done; exact .inl ⟨rfl, rfl⟩
  · obtain ⟨po, _, done⟩ := bind_eq_ok.mp done
    obtain ⟨⟨stop, req⟩, checked, done⟩ := bind_eq_ok.mp done
    cases done
    exact .inr ⟨_, req, checked, rfl⟩

/-- Settling placeholders changes their number, and caches the blocks of a running request. -/
theorem settlePlaceholders_spec [DecidableEq H] {before : RequestStatus}
    (done : s.settlePlaceholders cfg r before tokens = .ok s') :
    ∃ placeholders kv,
      s' = (s.withObj r { s.objs r with numOutputPlaceholders := placeholders } []).withCache kv ∧
      (kv = s.kvCacheManager ∨ before = .running ∧ ∃ numTokens,
        s.kvCacheManager.cacheBlocks cfg.kv (s.objs r) numTokens = .ok kv) := by
  unfold settlePlaceholders at done
  split at done
  · obtain ⟨_, _, done⟩ := bind_eq_ok.mp done
    split at done
    · rename_i runs
      obtain ⟨kv, cached, built⟩ := bind_eq_ok.mp done
      cases built
      simp only [modifyObj, update_self] at cached
      exact ⟨(s.objs r).numOutputPlaceholders - tokens.length, kv, rfl, .inr ⟨runs, _, cached⟩⟩
    · cases done
      exact ⟨(s.objs r).numOutputPlaceholders - tokens.length, s.kvCacheManager, rfl, .inl rfl⟩
  · cases done
    refine ⟨(s.objs r).numOutputPlaceholders, s.kvCacheManager, ?_, .inl rfl⟩
    simp [withObj, withCache]

/-- Caching the blocks of a running request is a move of its own, or nothing happens. -/
theorem cached_moves [DecidableEq H] (touched : scope.touch r) {kv : KVCacheManager H}
    (known : s.requests.get? (s.objs r).requestId = some r) (grown : Grown cfg (s.objs r) req)
    (cached : kv = s.kvCacheManager ∨ (s.objs r).status = .running ∧ ∃ numTokens,
      s.kvCacheManager.cacheBlocks cfg.kv req numTokens = .ok kv) :
    Moves cfg scope s (s.withCache kv) := by
  rcases cached with rfl | ⟨runs, numTokens, cached⟩
  · exact .refl
  · exact .single (.cache s r req numTokens kv touched known runs grown cached)

/-- Sampled tokens, their placeholders and the pooling check together: going on, or stopped with a
final token or none. -/
theorem sampled_moves [DecidableEq H] (touched : scope.touch r) {s₁ s₂ s₃ : Scheduler H C} {index : Nat}
    (known : s.requests.get? (s.objs r).requestId = some r)
    (updated : updateRequestWithOutput cfg r tokens s = .ok ((tokens', stopped), s₁))
    (settled : s₁.settlePlaceholders cfg r (s.objs r).status tokens' = .ok s₂)
    (checked : s₂.checkPooler cfg r poolers index stopped = .ok ((pooler, stopped'), s₃))
    (waiting running : List Ref) :
    ∃ req notes kv, Moves cfg scope (s.withQueues waiting running)
        (((s.withObj r req notes).withCache kv).withQueues waiting running) ∧
      req.fixed = (s.objs r).fixed ∧ req.status = (s.objs r).status ∧
      ((stopped' = false ∧ s₃ = (s.withObj r req notes).withCache kv) ∨
        (stopped' = true ∧ ∃ last, ∃ grown : List TokenId, Ended cfg req last ∧
          s₃ = (s.withObj r last (grown.map (.appended r) ++ notes)).withCache kv)) := by
  obtain ⟨req, notes, steps, fixed, status, result⟩ :=
    updateRequestWithOutput_moves touched updated waiting running
  obtain ⟨placeholders, kv, rfl, cached⟩ := settlePlaceholders_spec settled
  -- Both ways the blocks are cached with the queues as they are.
  have caching : ∀ q grown : Request H, q.fixed = (s.objs r).fixed → q.status = (s.objs r).status →
      Grown cfg q grown → (kv = s.kvCacheManager ∨ (s.objs r).status = .running ∧ ∃ numTokens,
        s.kvCacheManager.cacheBlocks cfg.kv grown numTokens = .ok kv) →
      Moves cfg scope ((s.withObj r q notes).withQueues waiting running)
        (((s.withObj r q notes).withQueues waiting running).withCache kv) := by
    intro q grown fixed status grew cached
    refine cached_moves touched ?_ (show Grown cfg _ grown from ?_) ?_
    · simp only [withQueues, withObj, update_self]
      rw [Request.requestId_eq fixed]
      exact known
    · simpa only [withQueues, withObj, update_self] using grew
    · simpa only [withQueues, withObj, update_self, status] using cached
  rcases result with ⟨rfl, rfl⟩ | ⟨rfl, last, token, st, sr, grew, fin, check, rfl⟩
  · -- The tokens did not stop the request: its placeholders are settled, then its blocks are cached.
    simp only [withObj, update_self] at cached
    set req' : Request H := { req with numOutputPlaceholders := placeholders } with settledReq
    have settledMove : Move cfg scope ((s.withObj r req notes).withQueues waiting running)
        ((s.withObj r req' notes).withQueues waiting running) := by
      have move : Move cfg scope _ _ := .adjust ((s.withObj r req notes).withQueues waiting running) r _ []
        touched (.reserve placeholders)
      simpa [withQueues, withObj] using move
    have path := (steps.tail settledMove).trans (caching req' req' fixed status .same cached)
    have joined : ((s.withObj r req notes).withObj r
        { (s.withObj r req notes).objs r with numOutputPlaceholders := placeholders } []) =
        s.withObj r req' notes := by
      simp [withObj, settledReq]
    rw [joined] at checked
    refine ⟨req', notes, kv, path, fixed, status, ?_⟩
    rcases checkPooler_spec checked with ⟨rfl, rfl⟩ | ⟨po, req'', stop, rfl⟩
    · exact .inl ⟨rfl, rfl⟩
    · simp only [withObj, withCache, update_self] at stop
      obtain ⟨rfl, rfl, _⟩ | ⟨rfl, st, sr, fin, rfl⟩ := checkStop_spec stop
      · exact .inl ⟨rfl, by simp [withObj, withCache]⟩
      · exact .inr ⟨rfl, _, [], .mk req' st sr placeholders .same fin, by
          simp [withObj, withCache, settledReq]⟩
  · -- The last token stopped the request; its blocks are cached as if it had been appended already.
    simp only [withObj, update_self] at cached
    refine ⟨req, notes, kv, steps.trans (caching req last fixed status grew cached), fixed, status,
      .inr ?_⟩
    rcases checkPooler_spec checked with ⟨rfl, rfl⟩ | ⟨po, req'', stop, rfl⟩
    · exact ⟨rfl, _, [token], .mk last st sr placeholders grew fin, by simp [withObj, withCache]⟩
    · simp only [withObj, withCache, update_self] at stop
      obtain rfl := checkStop_again check stop
      obtain ⟨clash, _, _⟩ | ⟨_, st', sr', fin', rfl⟩ := checkStop_spec stop
      · cases clash
      · exact ⟨rfl, _, [token], .mk last st' sr' placeholders grew fin', by simp [withObj, withCache]⟩

/-- An output to the client is at most one more effect. -/
theorem emitOutput_moves [DecidableEq H] (touched : scope.touch r) {logprobs : List RequestId}
    (done : s.emitOutput acc r tokens pooler params logprobs = .ok (s', acc')) :
    Moves cfg scope (s.view acc) (s'.view acc') ∧ s'.running = s.running := by
  unfold emitOutput at done
  dsimp only at done
  split at done
  · cases done
    exact ⟨.single (.emit (s.view acc) touched _), rfl⟩
  · obtain ⟨_, _, done⟩ := bind_eq_ok.mp done
    cases done
    exact ⟨.refl, rfl⟩

/-- One turn of the update loop moves only the request it is about, and leaves the running list to the
end of the loop. -/
theorem updateRequest_moves [DecidableEq H]
    (inv : QueueInv (s.view acc)) (found : s.requests.get? id = some r) (touched : scope.touch r)
    (live : scope.fresh → (s.objs r).isFinished = false)
    (drafts : (batch.scheduledSpecDecodeTokens.get? id).getD [] ≠ [] → scope.drafts)
    (done : s.updateRequest cfg clock batch model acc id r = .ok (s', acc')) :
    Moves cfg scope (s.view acc) (s'.view acc') ∧ s'.running = s.running := by
  obtain ⟨index, _, done⟩ := bind_eq_ok.mp done
  obtain ⟨generated, _, done⟩ := bind_eq_ok.mp done
  obtain ⟨⟨⟨tokens, stopped⟩, s₀⟩, updated, done⟩ := bind_eq_ok.mp done
  obtain ⟨s₁, settled, done⟩ := bind_eq_ok.mp done
  obtain ⟨⟨⟨pooler, stopped'⟩, s₂⟩, checked, done⟩ := bind_eq_ok.mp done
  obtain ⟨⟨params, s₃, acc₃⟩, ended, emitted⟩ := bind_eq_ok.mp done
  dsimp only at settled checked ended emitted
  set waiting := s.waiting.filter fun r => !decide (r ∈ acc.stoppedPreemptedReqs) with waiting_def
  set running := s.running.filter fun r => !decide (r ∈ acc.stoppedRunningReqs) with running_def
  -- First the drafts and the tokens: the queues are not involved.
  obtain ⟨req₀, rejected, fixed₀, status₀, steps₀⟩ :=
    rejectDraftTokens_moves cfg s touched drafts generated.length waiting running
  rw [rejected] at updated settled ended
  have before : (s.withObj r req₀ []).objs r = req₀ := update_self ..
  have known₀ : s.requests.get? ((s.withObj r req₀ []).objs r).requestId = some r := by
    rw [before, Request.requestId_eq fixed₀, show (s.objs r).requestId = id from inv.own id r found]
    exact found
  obtain ⟨req, notes, kv, steps, fixed, status, result⟩ :=
    sampled_moves touched known₀ updated settled checked waiting running
  rw [before] at fixed status known₀ ended
  simp only [withObj_withObj, append_nil] at steps result
  have path := steps₀.trans steps
  obtain ⟨last, sameRunning⟩ := emitOutput_moves touched emitted
  rcases result with ⟨rfl, rfl⟩ | ⟨rfl, final, grown, isEnded, rfl⟩
  · simp only [stopRequest, Bool.false_eq_true, ↓reduceIte, Except.ok.injEq, Prod.mk.injEq] at ended
    obtain ⟨_, rfl, rfl⟩ := ended
    exact ⟨path.trans last, sameRunning⟩
  · -- The request stops: one move takes it out of its queue and settles its blocks.
    simp only [stopRequest, ↓reduceIte] at ended
    obtain ⟨⟨params', s₅⟩, freed, ended⟩ := bind_eq_ok.mp ended
    obtain ⟨b, endNotes, outcome, rfl, noted, allowed, reported, decided, recorded⟩ :=
      freeRequest_spec freed
    set s₄ := ((s.withObj r req notes).withCache kv).withQueues waiting running with s₄_def
    have now : s₄.objs r = req := update_self ..
    have after : (((s.withObj r final (grown.map (.appended r) ++ notes)).withCache kv).objs r) = final :=
      update_self ..
    rw [after] at decided recorded
    have ends : Retires cfg scope s₄ r final b (endNotes ++ grown.map (.appended r)) outcome := by
      refine ⟨touched, ?_, fun open' => ?_, by rwa [now], fun e member => ?_, mem_append_left _ reported,
        allowed, decided, ?_⟩
      · rw [now, Request.requestId_eq fixed]
        exact known₀
      · rw [now, Request.isFinished, status, status₀]
        exact live open'
      · rcases mem_append.mp member with end' | token
        · exact noted e end'
        · obtain ⟨t, _, rfl⟩ := mem_map.mp token
          exact .inr (.inr ⟨t, rfl⟩)
      · have job : final.jobId = req.jobId := congrArg (·.2.1) isEnded.fixed
        rw [now, ← job]
        exact recorded.append (by simp [Effect.duration?])
    have retired : Move cfg scope s₄ ((((((s.withObj r final (grown.map (.appended r) ++ notes)).withCache
        kv).book b endNotes).settle r outcome).withQueues (waiting.filter fun r' => !decide (r' = r))
          (running.filter fun r' => !decide (r' = r)))) := by
      have move := Move.retire s₄ r final b _ outcome ends
      cases outcome <;>
        simpa [s₄_def, retire, withQueues, withObj, withCache, book, settle, release, withdraw,
          append_assoc] using move
    -- Its old status says which queue it was in, so the other filter changes nothing.
    have fits : ∀ q : Scheduler H C, q.waiting = s.waiting → q.running = s.running →
        (if req₀.status = .running then
          (.ok (params', q, { acc with stoppedRunningReqs := acc.stoppedRunningReqs ++ [r] }) :
            Except Err (Option KVTransferParams × Scheduler H C × UpdateAcc))
        else .ok (params', q, { acc with
          stoppedPreemptedReqs := acc.stoppedPreemptedReqs ++ [r] })) = .ok (params, s₃, acc₃) →
        s₃.view acc₃ = q.withQueues (waiting.filter fun r' => !decide (r' = r))
          (running.filter fun r' => !decide (r' = r)) ∧ s₃.running = s.running := by
      intro q sameWaiting sameRunning eq
      rw [status₀] at eq
      split at eq
      · rename_i runs
        cases eq
        have absent : r ∉ waiting := by
          intro waits
          have clash : (s.objs r).status.isQueued = true := inv.waitingStatus r waits
          rw [runs] at clash
          cases clash
        simp only [view, filter_snoc_mem, sameWaiting, sameRunning]
        rw [← waiting_def, ← running_def, filter_absent absent]
        exact ⟨rfl, trivial⟩
      · rename_i idle
        cases eq
        have absent : r ∉ running := fun runs => idle (inv.runningStatus r runs)
        simp only [view, filter_snoc_mem, sameWaiting, sameRunning]
        rw [← waiting_def, ← running_def, filter_absent absent]
        exact ⟨rfl, trivial⟩
    obtain ⟨target, kept⟩ := fits _ (by cases outcome <;> rfl) (by cases outcome <;> rfl) ended
    rw [target] at last
    exact ⟨(path.tail retired).trans last, sameRunning.trans kept⟩

/-- The update loop moves the requests its batch names, each once, and leaves the running list to its
end. -/
theorem updateLoop_moves [DecidableEq H] (inv : QueueInv (s.view acc)) (nodup : (items.map Prod.fst).Nodup)
    (touched : ∀ r, s.named (items.map Prod.fst) r → scope.touch r)
    (live : ∀ r, s.named (items.map Prod.fst) r → scope.fresh → (s.objs r).isFinished = false)
    (drafts : (∃ id tokens, batch.scheduledSpecDecodeTokens.get? id = some tokens ∧ tokens ≠ []) →
      scope.drafts)
    (done : updateLoop cfg clock batch model items s acc = .ok (s', acc')) :
    Moves cfg scope (s.view acc) (s'.view acc') ∧ s'.running = s.running := by
  -- The turns touch different requests, so what is named later is still as it was.
  induction items generalizing s acc with
  | nil => cases done; exact ⟨.refl, rfl⟩
  | cons item rest ih =>
    rcases item with ⟨id, count⟩
    obtain ⟨_, _, tail⟩ := bind_eq_ok.mp done
    rw [map_cons, nodup_cons] at nodup
    cases found : s.requests.get? id with
    | none =>
      simp only [found] at tail
      have wider : ∀ r, s.named (rest.map Prod.fst) r → s.named (((id, count) :: rest).map Prod.fst) r := by
        rintro r ⟨id', member, held⟩
        exact ⟨id', mem_cons_of_mem _ member, held⟩
      exact ih inv nodup.2 (fun r name => touched r (wider r name))
        (fun r name => live r (wider r name)) tail
    | some r =>
      simp only [found] at tail
      obtain ⟨⟨s₁, acc₁⟩, turn, tail'⟩ := bind_eq_ok.mp tail
      have here : s.named (((id, count) :: rest).map Prod.fst) r :=
        ⟨id, mem_cons_self .., found⟩
      have draft : (batch.scheduledSpecDecodeTokens.get? id).getD [] ≠ [] → scope.drafts := by
        intro nonempty
        cases drafted : batch.scheduledSpecDecodeTokens.get? id with
        | none => rw [drafted] at nonempty; exact absurd rfl nonempty
        | some tokens =>
          rw [drafted] at nonempty
          exact drafts ⟨id, tokens, drafted, nonempty⟩
      have turned : Moves cfg ⟨(· = r), fun _ => False, scope.fresh, scope.drafts, none, False⟩
          (s.view acc) (s₁.view acc₁) ∧ s₁.running = s.running :=
        updateRequest_moves inv found rfl (live r here) draft turn
      obtain ⟨steps, running⟩ := turned
      -- A request named by a later id is another object, untouched by this turn.
      have later : ∀ r', s₁.named (rest.map Prod.fst) r' →
          s.named (((id, count) :: rest).map Prod.fst) r' ∧ s₁.objs r' = s.objs r' := by
        rintro r' ⟨id', member, held⟩
        have before : s.requests.get? id' = some r' := steps.requests_sub held
        refine ⟨⟨id', mem_cons_of_mem _ member, before⟩, ?_⟩
        apply steps.objs_frame
        rintro rfl
        cases inv.get?_inj (s := s.view acc) before found
        exact nodup.1 member
      have wide : Moves cfg scope (s.view acc) (s₁.view acc₁) :=
        steps.widen (fun r' same => by cases same; exact touched r here) (fun _ => False.elim)
          (fun h => h) (fun h => h) (fun _ none => by cases none) False.elim
      obtain ⟨more, still⟩ := ih (inv.moves steps) nodup.2 (fun r' name => touched r' (later r' name).1)
        (fun r' name => (later r' name).2 ▸ live r' (later r' name).1) tail'
      exact ⟨wide.trans more, still.trans running⟩

/-- Reported transfers release finished requests. -/
theorem freeSent_moves [DecidableEq H] (inv : QueueInv s)
    (listed : ∀ r, s.named ids r → scope.sent r) (done : freeSent ids s = .ok s') :
    Moves cfg scope s s' := by
  induction ids generalizing s with
  | nil => cases done; exact .refl
  | cons id rest ih =>
    obtain ⟨r, found, tail⟩ := bind_eq_ok.mp done
    obtain ⟨s₁, freed, tail'⟩ := bind_eq_ok.mp tail
    obtain ⟨finished, _, rfl⟩ := freeBlocks_eq freed
    rw [orRaise_eq_ok] at found
    have ownId := inv.own id r found
    have first : Move cfg scope s (s.release r) :=
      .sent s r (listed r ⟨id, mem_cons_self .., found⟩) (by rw [ownId]; exact found) finished
    refine .head first (ih (inv.release r) ?_ tail')
    rintro r' ⟨id', member, held⟩
    exact listed r' ⟨id', mem_cons_of_mem _ member, erase_sub held⟩

/-- The ids whose blocks a model output reports as sent. -/
def sentIds (model : ModelRunnerOutput) : List RequestId :=
  (model.kvConnectorOutput.map (·.finishedSending)).getD []

/-- The part of `update_from_output` before the finished transfers are looked at. -/
def updateRequests [DecidableEq H] (cfg : Config H C M) (clock : Ref → PyFloat) (s : Scheduler H C)
    (batch : SchedulerOutput M) (model : ModelRunnerOutput) :
    Except Err (Scheduler H C × UpdateAcc) := do
  let (s, acc) ← updateLoop cfg clock batch model batch.numScheduledTokens.items s
    ⟨.empty, [], []⟩
  let waiting ← s.removeWaiting cfg acc.stoppedPreemptedReqs
  .ok ({ s with running := removeAll s.running acc.stoppedRunningReqs, waiting }, acc)

/-- The parts of `update_from_output`: the requests of the batch, then the finished transfers. -/
theorem updateFromOutput_parts [DecidableEq H]
    (done : s.updateFromOutput cfg clock batch model = .ok (outputs, s')) :
    ∃ s₁ acc s₂, s.updateRequests cfg clock batch model = .ok (s₁, acc) ∧
      s₁.updateFromConnectorOutput cfg model.kvConnectorOutput = .ok s₂ ∧
      s' = { s₂ with finishedReqIdsDict := .empty } := by
  obtain ⟨⟨s₁, acc⟩, looped, tail⟩ := bind_eq_ok.mp done
  obtain ⟨waiting, removed, tail'⟩ := bind_eq_ok.mp tail
  obtain ⟨s₂, reported, built⟩ := bind_eq_ok.mp tail'
  simp only [Except.ok.injEq, Prod.mk.injEq] at built
  exact ⟨_, acc, s₂, bind_eq_ok.mpr ⟨_, looped, bind_eq_ok.mpr ⟨waiting, removed, rfl⟩⟩, reported,
    built.2.symm⟩

/-- Before the finished transfers, a model output moves the requests of its batch. -/
theorem updateRequests_moves [DecidableEq H] (inv : QueueInv s)
    (live : ∀ r, s.named batch.numScheduledTokens.keys r → fresh → (s.objs r).isFinished = false)
    (drafted : (∃ id tokens, batch.scheduledSpecDecodeTokens.get? id = some tokens ∧ tokens ≠ []) →
      drafts)
    (done : s.updateRequests cfg clock batch model = .ok (s', acc)) :
    Moves cfg
      ⟨s.named batch.numScheduledTokens.keys, fun _ => False, fresh, drafts, none, False⟩ s s' := by
  obtain ⟨⟨s₁, acc₁⟩, looped, tail⟩ := bind_eq_ok.mp done
  obtain ⟨waiting, removed, built⟩ := bind_eq_ok.mp tail
  simp only [Except.ok.injEq, Prod.mk.injEq] at built
  obtain ⟨rfl, rfl⟩ := built
  set scope : Scope :=
    ⟨s.named batch.numScheduledTokens.keys, fun _ => False, fresh, drafts, none, False⟩
    with scope_def
  have start : s.view ⟨.empty, [], []⟩ = s := by simp [view, withQueues]
  have inv₀ : QueueInv (s.view ⟨.empty, [], []⟩) := by rw [start]; exact inv
  have moved : Moves cfg scope _ _ ∧ s₁.running = s.running := updateLoop_moves inv₀
    batch.numScheduledTokens.keys_nodup (fun _ name => name) live drafted looped
  obtain ⟨steps, sameRunning⟩ := moved
  rw [start] at steps
  -- Then the queues lose the stopped requests, as the view has them already.
  have waits : waiting.Perm (s₁.view acc₁).waiting := by
    unfold removeWaiting at removed
    split at removed
    · rename_i none
      cases removed
      simp [view, withQueues, List.isEmpty_iff.mp none]
    · exact (queueRemoveAll_sat s₁.objs cfg.policy s₁.waiting _).post_of_ok removed
  have runs : removeAll s₁.running acc₁.stoppedRunningReqs = (s₁.view acc₁).running :=
    removeAll_eq_filter (sameRunning ▸ inv.runningNodup) _
  have queues : Move cfg scope (s₁.view acc₁)
      { s₁ with running := removeAll s₁.running acc₁.stoppedRunningReqs, waiting } := by
    rw [runs]
    exact .reorder (s₁.view acc₁) waiting waits
  exact steps.tail queues

/-- The finished transfers of a model output: the connector is told, and sent requests are released. -/
theorem updateFromConnectorOutput_moves [DecidableEq H] (inv : QueueInv s)
    {reported : Option KVConnectorOutput}
    (listed : ∀ r, s.named ((reported.map (·.finishedSending)).getD []) r → scope.sent r)
    (done : s.updateFromConnectorOutput cfg reported = .ok s') : Moves cfg scope s s' := by
  unfold updateFromConnectorOutput at done
  split at done
  · rename_i out
    unfold updateFromKvXferFinished at done
    -- The connector is told before any request is released.
    let told : C → Bookkeeping C := fun connector => { s.bookkeeping with
      connector
      finishedRecvingKvReqIds := out.finishedRecving.foldl addId s.finishedRecvingKvReqIds }
    cases connected : cfg.connector with
    | none =>
      simp only [connected] at done
      exact .head (.book s (told s.connector) (.inr (.inl rfl)) rfl)
        (freeSent_moves (inv.book (told s.connector) []) listed done)
    | some ops =>
      simp only [connected] at done
      let connector := ops.updateConnectorOutput s.connector out
      exact .head (.book s (told connector) (.inr (.inr ⟨ops, out, connected, rfl⟩)) rfl)
        (freeSent_moves (inv.book (told connector) []) listed done)
  · cases done; exact .refl

/-- A model output moves the requests of its batch and releases those that were sent. -/
theorem updateFromOutput_moves [DecidableEq H] (inv : QueueInv s)
    (live : ∀ r, s.named batch.numScheduledTokens.keys r → fresh → (s.objs r).isFinished = false)
    (drafted : (∃ id tokens, batch.scheduledSpecDecodeTokens.get? id = some tokens ∧ tokens ≠ []) →
      drafts)
    (done : s.updateFromOutput cfg clock batch model = .ok (outputs, s')) :
    Moves cfg
      ⟨s.named batch.numScheduledTokens.keys, s.named (sentIds model), fresh, drafts, none, False⟩
      s s' := by
  obtain ⟨s₁, acc, s₂, requests, reported, rfl⟩ := updateFromOutput_parts done
  have first := updateRequests_moves inv live drafted requests
  set scope : Scope :=
    ⟨s.named batch.numScheduledTokens.keys, s.named (sentIds model), fresh, drafts, none, False⟩
    with scope_def
  have path : Moves cfg scope s s₁ := first.widen (fun _ h => h) (fun _ => False.elim) (fun h => h)
    (fun h => h) (fun _ h => h) fun h => h
  have sent : Moves cfg scope s₁ s₂ := by
    refine updateFromConnectorOutput_moves (inv.moves path) ?_ reported
    rintro r ⟨id, member, held⟩
    exact ⟨id, member, path.requests_sub held⟩
  exact (path.trans sent).tail
    (.book s₂ { s₂.bookkeeping with finishedReqIdsDict := .empty } (.inr (.inl rfl)) rfl)

end Scheduler

end Mimir
