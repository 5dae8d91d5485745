import Mimir.Sched.Changes
import Mimir.Sched.Engine

/-! The order of the waiting queue through a step of first come first served scheduling. -/

namespace Mimir

open Python Scheduler List

variable {H C M : Type} {cfg : Config H C M} {env : ScheduleEnv} {f f' : Frame H C}

section Outcomes

variable [DecidableEq H]

/-- What the checks of the waiting loop say about a request: it is put aside, it is started, or the loop ends. -/
inductive CheckOutcome where
  | skipped
  | scheduled
  | stopped
  deriving DecidableEq

/-- The last check, for slots; a request whose blocks are loaded asynchronously gets them and is put aside. -/
def checkSlots (cfg : Config H C M) (f : Frame H C) (r : Ref) (computed : Scheduler.Computed)
    (choice : EncoderChoice) : Except Err CheckOutcome := do
  let req := f.sched.objs r
  let encoderTokens ← numEncoderTokens cfg req
  let (newBlocks, _) ← f.sched.kvCacheManager.allocateSlots cfg.kv req
    (waitingAllocArgs cfg req computed choice.numNewTokens encoderTokens)
  .ok (if newBlocks.isNone then .stopped else if computed.loadKvAsync then .skipped else .scheduled)

/-- The checks on the request at the front: remote blocks, grammar, LoRAs, connector, tokens, slots. -/
def checkWaiting (cfg : Config H C M) (env : ScheduleEnv) (f : Frame H C) (r : Ref) :
    Except Err CheckOutcome := do
  let (ready, s) ← f.sched.readyToSchedule cfg env r
  if ready = false ∨ exceedsLoras cfg { f with sched := s } (s.objs r) then .ok .skipped
  else do
    let (computed, connector) ← s.computedTokens cfg r
    match computed with
    | none => .ok .skipped
    | some computed => do
      let (choice, f) ← waitingNewTokens cfg { f with sched := { s with connector } } r computed
      match choice with
      | .skip => .ok .skipped
      | .stop => .ok .stopped
      | .schedule choice => checkSlots cfg f r computed choice

/-- The outcomes of the checks on the waiting requests that the loop passes, each in the state those before it
leave. -/
def waitingOutcomes (cfg : Config H C M) (env : ScheduleEnv) :
    Nat → Frame H C → Except Err (List (Ref × CheckOutcome))
  | turns, f =>
    match f.sched.waiting with
    | [] => .ok []
    | r :: _ =>
      if f.plan.tokenBudget ≤ 0 ∨ f.sched.running.length = cfg.maxNumRunningReqs then .ok []
      else
        match turns with
        | 0 => .error ⟨.fuel, .loop⟩
        | turns + 1 => do
          let outcome ← checkWaiting cfg env f r
          let turn ← waitingTurn cfg env f r
          match turn with
          | .stop _ => .ok []
          | .next f => do
            let later ← waitingOutcomes cfg env turns f
            .ok ((r, outcome) :: later)

/-- The outcomes of the checks of a step, from the state before it. -/
def Scheduler.checkOutcomes (cfg : Config H C M) (env : ScheduleEnv) (s : Scheduler H C) :
    Except Err (List (Ref × CheckOutcome)) := do
  let s ← s.expirePins cfg env.now
  let f ← scheduleRunning cfg s.running.length ⟨s, initialPlan cfg⟩
  let f ← recordLoras cfg f
  if f.plan.preemptedReqs.isEmpty then waitingOutcomes cfg env f.sched.waiting.length f else .ok []

/-- The requests put aside, the last one first. -/
def skippedOf (outcomes : List (Ref × CheckOutcome)) : List Ref :=
  ((outcomes.filter fun o => o.2 = .skipped).map Prod.fst).reverse

/-- A turn over the request at the front, of which the checks have this outcome. -/
structure Scheduler.Turn.Follows (turn : Turn H C) (plan : Plan) (r : Ref) (rest : List Ref)
    (outcome : CheckOutcome) : Prop where
  skipped : turn.frame.plan.skippedWaitingRequests =
    skippedOf [(r, outcome)] ++ plan.skippedWaitingRequests
  preempted : turn.frame.plan.preemptedReqs = plan.preemptedReqs
  queue : match turn with
    | .next f' => f'.sched.waiting = rest
    | .stop f' => f'.sched.waiting = r :: rest ∧ outcome = .stopped

section Turns

variable (fifo : cfg.policy ≠ .priority) {r : Ref} {rest : List Ref} {turn : Turn H C}

include fifo

omit [DecidableEq H] in
/-- The request at the front is put aside in front of those put aside before. -/
theorem Frame.PutsAside.follows {r' : Ref} (aside : f.PutsAside cfg f' r')
    (front : f.sched.waiting = r :: rest) : (Turn.next f').Follows f.plan r rest .skipped := by
  obtain ⟨whole, skipped⟩ := aside.fifo fifo
  cases front.symm.trans whole
  exact ⟨skipped, (congrArg Plan.preemptedReqs aside.plan :), rfl⟩

omit [DecidableEq H] in
/-- Putting aside the request at the front. -/
theorem skipWaiting_follows (front : f.sched.waiting = r :: rest)
    (done : (do let f' ← skipWaiting cfg f; .ok (.next f') : Except Err (Turn H C)) = .ok turn) :
    turn.Follows f.plan r rest .skipped := by
  obtain ⟨f', popped, built⟩ := bind_eq_ok.mp done
  cases built
  obtain ⟨r', aside, _⟩ := (skipWaiting_sat f).post_of_ok popped
  exact aside.follows fifo front

/-- Allocating slots ends as the last check says. -/
theorem admitWaiting_follows {computed : Scheduler.Computed} {choice : EncoderChoice}
    (front : f.sched.waiting = r :: rest)
    (done : admitWaiting cfg f r computed choice = .ok turn) :
    ∃ outcome, checkSlots cfg f r computed choice = .ok outcome ∧ turn.Follows f.plan r rest outcome := by
  obtain ⟨encoderTokens, encoded, tail⟩ := bind_eq_ok.mp done
  obtain ⟨⟨newBlocks, kv⟩, allocated, tail⟩ := bind_eq_ok.mp tail
  refine ⟨_, bind_eq_ok.mpr ⟨_, encoded, bind_eq_ok.mpr ⟨_, allocated, rfl⟩⟩, ?_⟩
  cases newBlocks with
  | none =>
    cases tail
    exact ⟨rfl, rfl, front, rfl⟩
  | some newBlocks =>
    dsimp only at tail
    rw [informConnector_eq] at tail
    cases async : computed.loadKvAsync with
    | true =>
      rw [if_pos async] at tail
      obtain ⟨f₁, parked, built⟩ := bind_eq_ok.mp tail
      cases built
      obtain ⟨r', aside, _⟩ := (parkRequest_sat _).post_of_ok parked
      exact aside.follows fifo front
    | false =>
      rw [if_neg (by rw [async]; decide)] at tail
      obtain ⟨⟨r₁, f₁⟩, started, tail⟩ := bind_eq_ok.mp tail
      obtain ⟨f₂, committed, built⟩ := bind_eq_ok.mp tail
      cases built
      have begun := (startRequest_sat _ computed choice.numNewTokens).post_of_ok started
      cases front.symm.trans (begun.fifo fifo)
      -- The encoder inputs of the request concern no queue.
      have same : f₂.sched.waiting = f₁.sched.waiting ∧
          f₂.plan.skippedWaitingRequests = f₁.plan.skippedWaitingRequests ∧
          f₂.plan.preemptedReqs = f₁.plan.preemptedReqs := by
        unfold commitEncoderInputs at committed
        split at committed
        · cases committed
          exact ⟨rfl, rfl, rfl⟩
        · obtain ⟨_, _, built⟩ := bind_eq_ok.mp committed
          cases built
          exact ⟨rfl, rfl, rfl⟩
      exact ⟨same.2.1.trans begun.skipped, same.2.2.trans begun.preempted, same.1⟩

/-- A turn of the loop does what the checks say. -/
theorem waitingTurn_follows (front : f.sched.waiting = r :: rest)
    (done : waitingTurn cfg env f r = .ok turn) :
    ∃ outcome, checkWaiting cfg env f r = .ok outcome ∧ turn.Follows f.plan r rest outcome := by
  obtain ⟨⟨ready, s⟩, checked, tail⟩ := bind_eq_ok.mp done
  have waits : s.waiting = r :: rest := (readyToSchedule_queues checked).1.trans front
  dsimp only at tail
  split at tail
  · rename_i unready
    exact ⟨.skipped, bind_eq_ok.mpr ⟨_, checked, if_pos unready⟩,
      skipWaiting_follows (f := ⟨s, f.plan⟩) fifo waits tail⟩
  rename_i ready
  obtain ⟨⟨computed, connector⟩, asked, tail⟩ := bind_eq_ok.mp tail
  cases computed with
  | none =>
    exact ⟨.skipped, bind_eq_ok.mpr ⟨_, checked, (if_neg ready).trans (bind_eq_ok.mpr ⟨_, asked, rfl⟩)⟩,
      skipWaiting_follows (f := ⟨{ s with connector }, f.plan⟩) fifo waits tail⟩
  | some computed =>
    obtain ⟨⟨choice, f₁⟩, chosen, tail⟩ := bind_eq_ok.mp tail
    obtain ⟨⟨cache, eq⟩, -⟩ := (waitingNewTokens_sat _ r computed).post_of_ok chosen
    have checks : ∀ {outcome}, (match choice with
        | .skip => .ok .skipped
        | .stop => .ok .stopped
        | .schedule choice => checkSlots cfg f₁ r computed choice : Except Err CheckOutcome) =
          .ok outcome → checkWaiting cfg env f r = .ok outcome := fun eq => bind_eq_ok.mpr ⟨_, checked,
      (if_neg ready).trans (bind_eq_ok.mpr ⟨_, asked, bind_eq_ok.mpr ⟨_, chosen, eq⟩⟩)⟩
    dsimp only at eq
    subst eq
    cases choice with
    | skip => exact ⟨.skipped, checks rfl, skipWaiting_follows (f :=
        ⟨{ s with connector, encoderCacheManager := cache }, f.plan⟩) fifo waits tail⟩
    | stop =>
      cases tail
      exact ⟨.stopped, checks rfl, rfl, rfl, waits, rfl⟩
    | schedule choice =>
      obtain ⟨outcome, slots, follows⟩ := admitWaiting_follows fifo waits tail
      exact ⟨outcome, checks slots, follows⟩

/-- The whole loop passes the requests that are checked, and puts aside those whose checks say so. -/
theorem scheduleWaiting_follows {turns : Nat} (done : scheduleWaiting cfg env turns f = .ok f') :
    ∃ outcomes, waitingOutcomes cfg env turns f = .ok outcomes ∧
      f.sched.waiting = outcomes.map Prod.fst ++ f'.sched.waiting ∧
      f'.plan.skippedWaitingRequests = skippedOf outcomes ++ f.plan.skippedWaitingRequests ∧
      f'.plan.preemptedReqs = f.plan.preemptedReqs := by
  induction turns generalizing f with
  | zero =>
    unfold scheduleWaiting at done
    unfold waitingOutcomes
    cases front : f.sched.waiting with
    | nil =>
      rw [front] at done
      cases done
      exact ⟨[], rfl, front.symm, rfl, rfl⟩
    | cons r rest =>
      rw [front] at done
      dsimp only at done
      split at done
      · rename_i full
        cases done
        exact ⟨[], if_pos full, front.symm, rfl, rfl⟩
      · cases done
  | succ turns ih =>
    unfold scheduleWaiting at done
    unfold waitingOutcomes
    cases front : f.sched.waiting with
    | nil =>
      rw [front] at done
      cases done
      exact ⟨[], rfl, front.symm, rfl, rfl⟩
    | cons r rest =>
      rw [front] at done
      dsimp only at done ⊢
      split at done
      · rename_i full
        cases done
        exact ⟨[], if_pos full, front.symm, rfl, rfl⟩
      · rename_i room
        rw [if_neg room]
        obtain ⟨turn, taken, tail⟩ := bind_eq_ok.mp done
        obtain ⟨outcome, checked, follows⟩ := waitingTurn_follows fifo front taken
        cases turn with
        | stop =>
          cases tail
          obtain ⟨stays, rfl⟩ := follows.queue
          exact ⟨[], bind_eq_ok.mpr ⟨_, checked, bind_eq_ok.mpr ⟨_, taken, rfl⟩⟩, stays.symm,
            follows.skipped, follows.preempted⟩
        | next f₁ =>
          obtain ⟨later, outcomes, whole, skipped, preempted⟩ := ih tail
          refine ⟨(r, outcome) :: later, bind_eq_ok.mpr ⟨_, checked, bind_eq_ok.mpr ⟨_, taken,
            bind_eq_ok.mpr ⟨_, outcomes, rfl⟩⟩⟩, ?_, ?_, preempted.trans follows.preempted⟩
          · rw [show rest = _ from follows.queue.symm, whole]
            rfl
          · rw [skipped, show f₁.plan.skippedWaitingRequests = _ from follows.skipped, ← append_assoc]
            unfold skippedOf
            rw [← reverse_append, ← map_append, ← filter_append]
            rfl

end Turns

end Outcomes

section Victims

variable [DecidableEq H]

/-- As long as no waiting request was started or skipped, victims have gone one by one from the end of the
running list to the front of the waiting list. -/
def Plundered (waiting running : List Ref) (f : Frame H C) : Prop :=
  f.plan.Early → f.plan.skippedWaitingRequests = [] →
    f.sched.waiting = f.plan.preemptedReqs.reverse ++ waiting ∧
    f.sched.running ++ f.plan.preemptedReqs.reverse = running

variable {waiting running : List Ref}

/-- Every step of the loops moves victims in this way. -/
theorem Plundered.step (fifo : cfg.policy ≠ .priority) (before : Plundered waiting running f)
    (step : LoopStep cfg env f f') : Plundered waiting running f' := by
  cases step with
  | minor => exact before
  | consult => exact before
  | allocFail => exact before
  | preempt f' victim early within what unskipped =>
    intro _ _
    obtain ⟨waits, runs⟩ := before early unskipped
    obtain ⟨last, first⟩ := what.fifo fifo
    have preempted : f'.plan.preemptedReqs = f.plan.preemptedReqs ++ [victim] := by rw [what.plan]
    rw [first, preempted, reverse_append, reverse_singleton, waits]
    refine ⟨rfl, ?_⟩
    rw [last] at runs
    rw [← append_assoc]
    exact runs
  | run => exact before
  | ready r answer s front done =>
    obtain ⟨waits, runs⟩ := readyToSchedule_queues done
    unfold Plundered
    dsimp only
    rw [waits, runs]
    exact before
  | skip f' r aside =>
    rw [Plundered, (aside.fifo fifo).2]
    exact fun _ no => by cases no
  | start f' r computed connector n encoderTokens newBlocks kv calm starts started =>
    -- The request is planned as new or resumed.
    rintro ⟨new, resumed⟩
    rcases started.noted with ⟨_, more, _⟩ | ⟨_, _, more⟩
    · exact absurd (more.symm.trans new) (append_ne_nil_of_right_ne_nil _ (by simp))
    · exact absurd (more.symm.trans resumed) (append_ne_nil_of_right_ne_nil _ (by simp))
  | park f' r computed connector encoderTokens newBlocks kv parks aside =>
    rw [Plundered, (aside.fifo fifo).2]
    exact fun _ no => by cases no

/-- A whole run of the loops moves victims in this way. -/
theorem Plundered.steps (fifo : cfg.policy ≠ .priority) (steps : LoopSteps cfg env f f')
    (before : Plundered waiting running f) : Plundered waiting running f' := by
  induction steps with
  | refl => exact before
  | tail _ last ih => exact ih.step fifo last

end Victims

section Lists

variable {α : Type}

/-- A list without repetitions that reads the same backwards has at most one element. -/
theorem reverse_eq_iff {xs : List α} (nodup : xs.Nodup) : xs.reverse = xs ↔ xs.length ≤ 1 := by
  constructor
  · intro same
    by_contra long
    -- The first and the last element would be one.
    have first : xs[0]? = xs[xs.length - 1]? := by
      conv_lhs => rw [← same]
      rw [getElem?_reverse (by omega)]
      rfl
    have apart := (nodup_iff_getElem?_ne_getElem?.mp nodup) 0 (xs.length - 1) (by omega) (by omega)
    exact apart first
  · intro short
    match xs, short with
    | [], _ => rfl
    | [x], _ => rfl

/-- Selecting the members of a sublist from a list without repetitions gives the sublist. -/
theorem filter_mem_sublist [DecidableEq α] {part whole : List α} (sub : part.Sublist whole)
    (nodup : whole.Nodup) : whole.filter (fun x => decide (x ∈ part)) = part := by
  induction sub with
  | slnil => rfl
  | @cons part whole a sub ih =>
    rw [nodup_cons] at nodup
    rw [filter_cons_of_neg (by simpa using fun member => nodup.1 (sub.mem member))]
    exact ih nodup.2
  | @cons_cons part whole a sub ih =>
    rw [nodup_cons] at nodup
    rw [filter_cons_of_pos (by simp)]
    congr 1
    rw [← ih nodup.2]
    apply filter_congr
    intro x member
    have other : x ≠ a := fun eq => nodup.1 (eq ▸ member)
    rw [ih nodup.2]
    simp [other]

/-- Elements taken from the front of a list and put back reversed are in order when there is at most one. -/
theorem reversed_in_order_iff [DecidableEq α] {before rest taken : List α}
    (nodup : (before ++ rest).Nodup) (sub : taken.reverse.Sublist before) :
    taken ++ rest = (before ++ rest).filter (fun x => decide (x ∈ taken ++ rest)) ↔
      taken.length ≤ 1 := by
  obtain ⟨firsts, -, apart⟩ := nodup_append'.mp nodup
  have first : before.filter (fun x => decide (x ∈ taken ++ rest)) = taken.reverse := by
    refine Eq.trans (filter_congr fun x member => ?_) (filter_mem_sublist sub firsts)
    have outside : x ∉ rest := apart member
    simp [outside]
  have last : rest.filter (fun x => decide (x ∈ taken ++ rest)) = rest := by
    apply filter_eq_self.mpr
    intro x member
    simp [member]
  rw [filter_append, first, last, append_left_inj, eq_comm]
  exact reverse_eq_iff (nodup_reverse.mp (firsts.sublist sub))

/-- Elements put in front of a list leave its order alone. -/
theorem prepended_in_order [DecidableEq α] (front list : List α) :
    front ++ list = front ++ list.filter (fun x => decide (x ∈ front ++ list)) := by
  rw [append_right_inj, eq_comm]
  apply filter_eq_self.mpr
  intro x member
  simp [member]

end Lists

section Ends

variable [DecidableEq H] {s s' : Scheduler H C}

omit [DecidableEq H] in
/-- At the end of a step the skipped requests stand in front of the queue, as they were collected. -/
theorem finishSchedule_waiting (fifo : cfg.policy ≠ .priority)
    {out : SchedulerOutput M} (done : finishSchedule cfg f = .ok (out, s')) :
    s'.waiting = f.plan.skippedWaitingRequests ++ f.sched.waiting := by
  obtain ⟨waiting, out₀, s₁, s₂, _, order, _, _, attached, advanced, rfl⟩ := finishSchedule_parts done
  obtain ⟨connector, metadata, rfl, rfl⟩ := attachConnectorMeta_eq attached
  exact (updateAfterSchedule_untouched advanced).waiting.trans (order fifo)

/-- The queues after the loops of a step: the victims in front of the whole waiting queue, or the requests put
aside in front of what was not looked at, the last one first. -/
theorem scheduleLoops_follows (fifo : cfg.policy ≠ .priority)
    (loops : s.scheduleLoops cfg env = .ok f) :
    ∃ outcomes rest, s.checkOutcomes cfg env = .ok outcomes ∧
      s.waiting = outcomes.map Prod.fst ++ rest ∧ f.plan.skippedWaitingRequests = skippedOf outcomes ∧
      f.sched.waiting = f.plan.preemptedReqs.reverse ++ rest ∧
      f.plan.preemptedReqs.reverse <:+ s.running ∧ (f.plan.preemptedReqs = [] ∨ outcomes = []) := by
  obtain ⟨s₁, expired, tail⟩ := bind_eq_ok.mp loops
  obtain ⟨f₁, runs, tail⟩ := bind_eq_ok.mp tail
  obtain ⟨f₂, recorded, tail⟩ := bind_eq_ok.mp tail
  obtain ⟨steps, early, unskipped⟩ : LoopSteps cfg env _ f₁ ∧ _ :=
    (scheduleRunning_sat s₁.running.length _ ⟨rfl, rfl⟩ rfl).post_of_ok runs
  have same : f₂.plan.skippedWaitingRequests = [] ∧ f₂.plan.preemptedReqs = f₁.plan.preemptedReqs ∧
      f₂.sched = f₁.sched := by
    unfold recordLoras at recorded
    split at recorded
    · cases recorded
      exact ⟨unskipped, rfl, rfl⟩
    · obtain ⟨_, _, built⟩ := bind_eq_ok.mp recorded
      cases built
      exact ⟨unskipped, rfl, rfl⟩
  -- Up to here only victims were moved.
  have start : Plundered s.waiting s.running (⟨s₁, initialPlan cfg⟩ : Frame H C) := fun _ _ => by
    obtain ⟨_, waits, runs⟩ := expirePins_untouched expired
    exact ⟨waits, (append_nil _).trans runs⟩
  obtain ⟨waits, victims⟩ := start.steps fifo steps early unskipped
  rw [← same.2.1, ← same.2.2] at waits victims
  have checks : ∀ {outcomes}, (if f₂.plan.preemptedReqs.isEmpty then
      waitingOutcomes cfg env f₂.sched.waiting.length f₂ else .ok []) = .ok outcomes →
      s.checkOutcomes cfg env = .ok outcomes := fun eq => bind_eq_ok.mpr ⟨_, expired,
    bind_eq_ok.mpr ⟨_, runs, bind_eq_ok.mpr ⟨_, recorded, eq⟩⟩⟩
  split at tail
  · rename_i calm
    obtain ⟨outcomes, made, whole, skipped, preempted⟩ := scheduleWaiting_follows fifo tail
    rw [List.isEmpty_iff.mp calm] at preempted waits
    refine ⟨outcomes, f.sched.waiting, checks ((if_pos calm).trans made), waits.symm.trans whole, ?_, ?_, ?_,
      .inl preempted⟩
    · rw [skipped, same.1, append_nil]
    · rw [preempted]
      rfl
    · rw [preempted]
      exact nil_suffix
  · rename_i preempted
    cases tail
    exact ⟨[], s.waiting, checks (if_neg preempted), rfl, same.1, waits, ⟨_, victims⟩, .inr rfl⟩

/-- Under FCFS and MIMIR a step keeps the order of the waiting queue, with the requests it preempted in
front in their running order, exactly when its checks put aside at most one waiting request. The outcomes of
the checks are computed from the state before the step, for a front part of the waiting queue. -/
theorem schedule_in_order_iff (fifo : cfg.policy ≠ .priority) {env : ScheduleEnv}
    {out : SchedulerOutput M} (distinct : (s.waiting ++ s.running).Nodup)
    (scheduled : s.schedule cfg env = .ok (out, s')) :
    ∃ outcomes f, s.checkOutcomes cfg env = .ok outcomes ∧ outcomes.map Prod.fst <+: s.waiting ∧
      s.scheduleLoops cfg env = .ok f ∧
      (s'.waiting = s.running.filter (fun r => decide (r ∈ f.plan.preemptedReqs)) ++
          s.waiting.filter (fun r => decide (r ∈ s'.waiting)) ↔
        outcomes.countP (fun o => o.2 = .skipped) ≤ 1) := by
  obtain ⟨f, loops, finished⟩ := bind_eq_ok.mp scheduled
  obtain ⟨outcomes, rest, checks, whole, skipped, queue, suffix, either⟩ := scheduleLoops_follows fifo loops
  obtain ⟨waits, runs, -⟩ := nodup_append'.mp distinct
  refine ⟨outcomes, f, checks, ⟨rest, whole.symm⟩, loops, ?_⟩
  -- The victims are the end of the running list, in its order.
  have victims : s.running.filter (fun r => decide (r ∈ f.plan.preemptedReqs)) =
      f.plan.preemptedReqs.reverse := by
    simpa using filter_mem_sublist suffix.sublist runs
  have count : outcomes.countP (fun o => o.2 = .skipped) = (skippedOf outcomes).length := by
    rw [skippedOf, length_reverse, length_map, countP_eq_length_filter]
  rw [finishSchedule_waiting fifo finished, victims, skipped, queue, count]
  rcases either with calm | none
  · have sub : (skippedOf outcomes).reverse.Sublist (outcomes.map Prod.fst) := by
      rw [skippedOf, reverse_reverse]
      exact filter_sublist.map _
    rw [calm, reverse_nil, nil_append, nil_append, whole]
    exact reversed_in_order_iff (whole ▸ waits) sub
  · subst none
    rw [whole]
    exact iff_of_true (prepended_in_order f.plan.preemptedReqs.reverse rest) (Nat.zero_le 1)

end Ends

section Skipped

/-- A request with guided decoding. -/
def guidedRequest (id : RequestId) (prompt : List TokenId) : EngineCoreRequest where
  requestId := id
  promptTokenIds := prompt
  samplingParams := some { maxTokens := 4, guidedDecoding := true }

/-- The clock of `schedule`, with no grammar compiled yet. -/
def uncompiled : ScheduleEnv := ⟨.fin 0, fun _ => false⟩

/-- Waiting requests of a small engine, added in this order. -/
def waitingFor (requests : List EngineCoreRequest) : Except Err (Engine FreeHash Unit Unit) :=
  (Engine.init smallConfig ()).run smallConfig (fun _ _ => True) (requests.map .addRequest)

/-- One skipped request stays in front of a request that is scheduled behind it. -/
theorem schedule_in_order_oneSkipped :
    ∃ (s s' : Scheduler FreeHash Unit) (out : SchedulerOutput Unit),
      s.schedule smallConfig uncompiled = .ok (out, s') ∧
      s.checkOutcomes smallConfig uncompiled = .ok [(0, .skipped), (1, .scheduled)] ∧
      ∃ f, s.scheduleLoops smallConfig uncompiled = .ok f ∧
        s'.waiting = s.running.filter (fun r => decide (r ∈ f.plan.preemptedReqs)) ++
          s.waiting.filter (fun r => decide (r ∈ s'.waiting)) := by
  obtain ⟨e, _, out, s', scheduled, checks, distinct⟩ : ∃ e,
      waitingFor [guidedRequest 0 [1, 2, 3], plainRequest 1 [4, 5] 4] = .ok e ∧
      ∃ out s', e.sched.schedule smallConfig uncompiled = .ok (out, s') ∧
        e.sched.checkOutcomes smallConfig uncompiled = .ok [(0, .skipped), (1, .scheduled)] ∧
        (e.sched.waiting ++ e.sched.running).Nodup := by
    decide +kernel
  obtain ⟨outcomes, f, made, _, loops, order⟩ :=
    schedule_in_order_iff (by decide : smallConfig.policy ≠ .priority) distinct scheduled
  cases checks.symm.trans made
  exact ⟨e.sched, s', out, scheduled, checks, f, loops, order.mpr (by decide)⟩

/-- Two requests that wait for their grammars change places in every step. -/
theorem twoSkipped_reversed :
    ∃ (e : Engine FreeHash Unit Unit) (s' : Scheduler FreeHash Unit) (out : SchedulerOutput Unit),
      Engine.Reachable smallConfig () (fun _ _ => True) e ∧
      e.sched.schedule smallConfig uncompiled = .ok (out, s') ∧
      e.sched.waiting = [0, 1] ∧ s'.waiting = [1, 0] := by
  obtain ⟨e, before, out, s', facts⟩ : ∃ e,
      waitingFor [guidedRequest 0 [1, 2, 3], guidedRequest 1 [4, 5]] = .ok e ∧
      ∃ out s', e.sched.schedule smallConfig uncompiled = .ok (out, s') ∧
        e.sched.waiting = [0, 1] ∧ s'.waiting = [1, 0] := by
    decide +kernel
  exact ⟨e, s', out, Engine.steps_of_run before, facts⟩

end Skipped

end Mimir
