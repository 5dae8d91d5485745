import Mimir.Sched.Runs

/-! The pin decision for a finished request, over the tool durations recorded for its job. -/

namespace Mimir

open Python Scheduler List

variable {H C M : Type} {cfg : Config H C M} {s s' : Scheduler H C} {r : Ref} {x y now : PyFloat}
  {params : Option KVTransferParams} {job : XArg}

namespace Python.PyFloat

/-- `sum(xs) / len(xs) if xs else 0.0`. -/
def mean (compensated : Bool) (xs : List PyFloat) : PyFloat :=
  if xs.isEmpty then .fin 0 else (sum compensated xs).divNat xs.length

/-- Between numbers, at most is not more. -/
theorem le_eq_not_lt (first : x ≠ .nan) (second : y ≠ .nan) : x.le y = !y.lt x := by
  -- Only two finite numbers are compared by their values.
  cases x <;> cases y <;> simp_all [lt, le]
  rw [← decide_not, decide_eq_decide, not_lt]

/-- The two infinities, whose sum is not a number. -/
def Opposite (x y : PyFloat) : Prop := (x = .posInf ∧ y = .negInf) ∨ (x = .negInf ∧ y = .posInf)

/-- While numbers are added up, an infinite sum meets the opposite infinity. -/
def Clashes : PyFloat → List PyFloat → Prop
  | _, [] => False
  | total, x :: xs => Opposite total x ∨ Clashes (total.add x) xs

/-- Rounding gives a number. -/
theorem round_ne_nan (q : ℚ) : round q ≠ .nan := by
  unfold round
  dsimp only
  split
  · exact PyFloat.noConfusion
  · split <;> exact PyFloat.noConfusion

/-- A sum is not a number only through a `nan` or opposite infinities. -/
theorem add_eq_nan_iff : x.add y = .nan ↔ x = .nan ∨ y = .nan ∨ Opposite x y := by
  cases x <;> cases y <;> simp [add, Opposite, round_ne_nan]

/-- Adding up gives no number only through a `nan` or a clash on the way. -/
theorem foldl_add_eq_nan_iff (xs : List PyFloat) (start : PyFloat) :
    xs.foldl add start = .nan ↔ start = .nan ∨ .nan ∈ xs ∨ Clashes start xs := by
  -- The sum so far and the next term are replaced by their sum.
  induction xs generalizing start with
  | nil => simp [Clashes]
  | cons x rest ih =>
    rw [foldl_cons, ih, add_eq_nan_iff, mem_cons, Clashes, eq_comm (a := PyFloat.nan)]
    tauto

/-- The compensation runs beside the sum. -/
theorem foldl_sumStep_fst (xs : List PyFloat) (acc : PyFloat × PyFloat) :
    (xs.foldl sumStep acc).1 = xs.foldl add acc.1 := by
  induction xs generalizing acc with
  | nil => rfl
  | cons x rest ih => exact ih _

/-- A mean is not a number only through a `nan` or a clash while the numbers are added up. -/
theorem mean_eq_nan_iff (compensated : Bool) (xs : List PyFloat) :
    mean compensated xs = .nan ↔ .nan ∈ xs ∨ Clashes (.fin 0) xs := by
  cases xs with
  | nil => simp [mean, Clashes]
  | cons x rest =>
    have divided : mean compensated (x :: rest) = .nan ↔ sum compensated (x :: rest) = .nan := by
      show (sum compensated (x :: rest)).divNat (x :: rest).length = .nan ↔ _
      cases sum compensated (x :: rest) <;> simp [divNat, round_ne_nan]
    -- A finite compensation makes no number a `nan`.
    have plain : sum compensated (x :: rest) = .nan ↔ (x :: rest).foldl add (.fin 0) = .nan := by
      rw [foldl_cons, ← foldl_sumStep_fst rest (_, .fin 0)]
      unfold sum
      dsimp only
      split
      · split
        · rfl
        · simp [add_eq_nan_iff, Opposite]
      · rfl
    rw [divided, plain, foldl_add_eq_nan_iff]
    simp

/-- Just above two on the average, but not in double precision. -/
example : mean false [.fin 2, .fin (2 + 1 / 2 ^ 51)] = .fin 2 := by decide +kernel

end Python.PyFloat

/-- The tool durations recorded so far, with their requests, newest first. -/
def Scheduler.durations {H C : Type} (s : Scheduler H C) : List (Ref × PyFloat) :=
  s.history.filterMap Effect.duration?

/-- The tool durations recorded for the requests of one job, oldest first. -/
def Scheduler.durationsOf {H C : Type} (s : Scheduler H C) (key : JobKey) : List PyFloat :=
  s.durations.reverse.filterMap fun p =>
    if (s.objs p.1).jobId.map (XArg.dictKey p.1) = some key then some p.2 else none

/-- The tool histories are the durations recorded for the requests of each job. -/
structure DurationsKept {H C : Type} (s : Scheduler H C) : Prop where
  old : ∀ p ∈ s.durations, p.1 < s.nextRef
  kept : ∀ key, (s.jobToolHistory.get? key).getD [] = s.durationsOf key

/-- How a change records: not at all, or one duration of a request with a job. -/
inductive Records {H C : Type} (s s' : Scheduler H C) : Prop
  | nothing (durations : s'.durations = s.durations)
      (history : s'.jobToolHistory = s.jobToolHistory)
  | one (r : Ref) (job : XArg) (duration : PyFloat) (old : r < s.nextRef)
      (owner : (s.objs r).jobId = some job)
      (durations : s'.durations = (r, duration) :: s.durations)
      (history : s'.jobToolHistory = s.jobToolHistory.set (job.dictKey r)
        ((s.jobToolHistory.get? (job.dictKey r)).getD [] ++ [duration]))

section Ends

theorem Scheduler.book_durations (s : Scheduler H C) (b : Bookkeeping C) (notes : List Effect) :
    (s.book b notes).durations = notes.filterMap Effect.duration? ++ s.durations :=
  filterMap_append ..

/-- Settling the blocks of a request records nothing. -/
theorem Scheduler.settle_durations (s : Scheduler H C) (r : Ref) (outcome : Outcome) :
    (s.settle r outcome).durations = s.durations ∧
      (s.settle r outcome).jobToolHistory = s.jobToolHistory := by
  cases outcome <;> exact ⟨rfl, rfl⟩

/-- The notes of a request's end say what it records. -/
theorem Recorded.records {tools : PyDict JobKey (List PyFloat)} {notes : List Effect}
    (recorded : Recorded s.jobToolHistory r (s.objs r).jobId tools notes) (old : r < s.nextRef)
    (durations : s'.durations = notes.filterMap Effect.duration? ++ s.durations)
    (history : s'.jobToolHistory = tools) : Records s s' := by
  cases recorded with
  | none _ silent => exact .nothing (by rw [durations, silent]; rfl) history
  | tool job duration _ owner told =>
    exact .one r job duration old owner (by rw [durations, told]; rfl) history

end Ends

section Changes

variable [DecidableEq H] {scope : Scope}

/-- Only the end of a request records a duration. -/
theorem Move.records (inv : QueueInv s) (move : Move cfg scope s s') : Records s s' := by
  cases move with
  | book b told unrecorded => exact .nothing rfl unrecorded
  | adjust r req notes touched adjusted => cases adjusted <;> exact .nothing rfl rfl
  | retire r req b notes outcome ends =>
    obtain ⟨durations, history⟩ := settle_durations ((s.withdraw r req).book b notes) r outcome
    refine ends.recorded.records (inv.known _ _ ends.known) ?_ history
    rw [Scheduler.retire, durations, book_durations]
    rfl
  | _ => exact .nothing rfl rfl

theorem Change.records (inv : QueueInv s) (step : Change cfg scope s s') : Records s s' := by
  cases step with
  | move step => exact step.records inv
  | loop step => cases step <;> exact .nothing rfl rfl
  | advance scheduled reserved known eq => rw [eq]; exact .nothing rfl rfl

end Changes

namespace DurationsKept

/-- The durations of a job are read through the jobs of the requests they came from. -/
theorem durationsOf_congr (old : ∀ p ∈ s.durations, (s'.objs p.1).jobId = (s.objs p.1).jobId)
    (durations : s'.durations = s.durations) (key : JobKey) :
    s'.durationsOf key = s.durationsOf key := by
  unfold durationsOf
  rw [durations]
  apply filterMap_congr
  intro p member
  rw [old p (mem_reverse.mp member)]

/-- Whatever records at most one duration as the program does keeps the histories. -/
theorem record (kept : DurationsKept s) (nextRef : s.nextRef ≤ s'.nextRef)
    (jobs : ∀ r < s.nextRef, (s'.objs r).jobId = (s.objs r).jobId) (step : Records s s') :
    DurationsKept s' := by
  have same : ∀ p ∈ s.durations, (s'.objs p.1).jobId = (s.objs p.1).jobId :=
    fun p member => jobs p.1 (kept.old p member)
  cases step with
  | nothing durations history =>
    refine ⟨fun p member => ?_, fun key => ?_⟩
    · rw [durations] at member
      exact (kept.old p member).trans_le nextRef
    · rw [history, durationsOf_congr same durations]
      exact kept.kept key
  | one r job duration old owner durations history =>
    have here : (s'.objs r).jobId = some job := (jobs r old).trans owner
    refine ⟨fun p member => ?_, fun key => ?_⟩
    · rw [durations] at member
      rcases mem_cons.mp member with rfl | before
      · exact old.trans_le nextRef
      · exact (kept.old p before).trans_le nextRef
    · -- The new duration comes last for its own job and is not seen by the others.
      have before : (s.durations.reverse.filterMap fun p =>
          if (s'.objs p.1).jobId.map (XArg.dictKey p.1) = some key then some p.2 else none) =
          s.durationsOf key := by
        apply filterMap_congr
        intro p member
        rw [same p (mem_reverse.mp member)]
      have split : s'.durationsOf key = s.durationsOf key ++
          (if job.dictKey r = key then [duration] else []) := by
        unfold durationsOf at before ⊢
        rw [durations, reverse_cons, filterMap_append, before]
        congr 1
        rw [filterMap_cons, here, Option.map_some, filterMap_nil]
        by_cases own : job.dictKey r = key <;> simp [own]
      rw [split, history, PyDict.get?_set, ← kept.kept key]
      by_cases own : job.dictKey r = key
      · subst own
        simp
      · have apart : key ≠ job.dictKey r := fun eq => own eq.symm
        simp [own, apart]

/-- Other data of the requests, and all other state, may change freely between two ends. -/
theorem same (kept : DurationsKept s) (nextRef : s.nextRef ≤ s'.nextRef)
    (jobs : ∀ r < s.nextRef, (s'.objs r).jobId = (s.objs r).jobId) (history : s'.history = s.history)
    (tools : s'.jobToolHistory = s.jobToolHistory) : DurationsKept s' :=
  kept.record nextRef jobs (.nothing (by unfold durations; rw [history]) tools)

/-- The end of a request keeps the histories. -/
theorem freeRequest (kept : DurationsKept s) (old : r < s.nextRef)
    (done : s.freeRequest cfg now r = .ok (params, s')) : DurationsKept s' := by
  obtain ⟨b, notes, outcome, rfl, _, _, _, _, recorded⟩ := freeRequest_spec done
  obtain ⟨durations, history⟩ := settle_durations (s.book b notes) r outcome
  have nextRef : s.nextRef ≤ ((s.book b notes).settle r outcome).nextRef := by
    cases outcome <;> exact le_rfl
  have jobs : ∀ x < s.nextRef,
      (((s.book b notes).settle r outcome).objs x).jobId = (s.objs x).jobId := by
    intro x _
    cases outcome <;> rfl
  refine kept.record nextRef jobs (recorded.records old ?_ history)
  rw [durations, book_durations]

end DurationsKept

/-- The tool histories are the recorded durations in every state a run passes through. -/
theorem Engine.Visited.durationsKept [DecidableEq H] {connector : C}
    {allowed : Engine H C M → Op → Prop}
    (visited : Visited cfg connector allowed s) : DurationsKept s := by
  induction visited with
  | start => exact ⟨fun p member => (not_mem_nil member).elim, fun key => rfl⟩
  | @add a req s' _ _ done ih =>
    obtain ⟨_, _, _, _, rfl⟩ := addRequest_spec done
    refine ih.same (Nat.le_succ _) (fun r below => ?_) rfl rfl
    simp only [Function.update_of_ne (Nat.ne_of_lt below)]
  | reset _ _ ih => exact ih.same le_rfl (fun _ _ => rfl) rfl rfl
  | @change _ _ before after visited _ step ih =>
    have next : after.nextRef = before.nextRef := Changes.nextRef (.single step)
    refine ih.record next.ge (fun r _ => ?_) (step.records visited.queueInv)
    exact congrArg (·.2.1) (step.fixed r)

namespace Scheduler

variable {s₁ : Scheduler H C}

/-- The tool duration of a request can be read as a float, when it has one. -/
def ConvertsDuration (cfg : Config H C M) (req : Request H) : Prop :=
  ∀ duration, req.toolDuration = some duration → ∃ x, duration.toFloat cfg.floatOfString = .ok x

/-- A pin is set up exactly when there is no tool call or its duration can be read. -/
theorem setUpPin_ok_iff (cfg : Config H C M) (s : Scheduler H C) (r : Ref) (job : XArg) :
    (∃ result, s.setUpPin cfg r job = .ok result) ↔
      ((s.objs r).hasToolCall.getD false = true → ConvertsDuration cfg (s.objs r)) := by
  unfold setUpPin recordDuration ConvertsDuration
  cases called : (s.objs r).hasToolCall.getD false with
  | false => exact iff_of_true ⟨_, rfl⟩ (fun no => absurd no Bool.false_ne_true)
  | true =>
    cases given : (s.objs r).toolDuration with
    | none => exact iff_of_true ⟨_, rfl⟩ (fun _ _ no => by cases no)
    | some duration =>
      dsimp only
      cases read : duration.toFloat cfg.floatOfString with
      | error =>
        refine iff_of_false ?_ ?_
        · rintro ⟨result, done⟩
          cases done
        · intro converts
          obtain ⟨x, eq⟩ := converts rfl duration rfl
          rw [read] at eq
          cases eq
      | ok x =>
        refine iff_of_true ⟨_, rfl⟩ fun _ other same => ?_
        cases same
        exact ⟨x, read⟩

/-- A finished request that is known is freed unless its pin cannot be set up. -/
theorem freeRequest_ok_iff {delay : Bool}
    (finished : (s.objs r).isFinished = true) (known : (s.objs r).requestId ∈ s.requests.keys)
    (asked : s.connectorFinished cfg r = .ok ((delay, params), s₁)) :
    (∃ result, s.freeRequest cfg now r = .ok result) ↔
      ∀ job, pinJob cfg (s.objs r) delay = some job →
        (s.objs r).hasToolCall.getD false = true → ConvertsDuration cfg (s.objs r) := by
  obtain ⟨c, rfl, _, _⟩ := connectorFinished_spec asked
  -- What was reported or recorded before does not matter to the rest.
  set s₂ := (s.book { s.bookkeeping with connector := c } []).reportFinished cfg r with s₂_def
  have objs : s₂.objs = s.objs := rfl
  have requests : s₂.requests = s.requests := rfl
  have ends : ∀ ttl s₃, s₃.objs = s.objs → s₃.requests = s.requests →
      s₂.pinTtl cfg r delay = .ok (ttl, s₃) → ∃ result, s.freeRequest cfg now r = .ok result := by
    intro ttl s₃ sameObjs sameRequests timed
    have freed : s₃.freeBlocks r = .ok (s₃.release r) :=
      freeBlocks_ok (by rw [sameObjs]; exact finished) (by rw [sameObjs, sameRequests]; exact known)
    -- Whatever the time to pin, the rest does not raise.
    have rest : ∃ result, (if PyFloat.lt (.fin 0) ttl then .ok (params, s₃.pinRequest r now ttl)
        else if delay then .ok (params, s₃)
        else do
          let s ← s₃.freeBlocks r
          .ok (params, s) : Except Err _) = .ok result := by
      rw [freed]
      split
      · exact ⟨_, rfl⟩
      · split
        · exact ⟨_, rfl⟩
        · exact ⟨_, rfl⟩
    obtain ⟨result, done⟩ := rest
    exact ⟨result, bind_eq_ok.mpr ⟨(), require_eq_ok.mpr finished,
      bind_eq_ok.mpr ⟨_, asked, bind_eq_ok.mpr ⟨_, timed, done⟩⟩⟩⟩
  cases chosen : pinJob cfg (s.objs r) delay with
  | none =>
    refine iff_of_true (ends (.fin 0) s₂ rfl rfl ?_) (fun _ no => by cases no)
    unfold pinTtl
    rw [objs, chosen]
  | some job =>
    have pins : s₂.pinTtl cfg r delay = s₂.setUpPin cfg r job := by
      unfold pinTtl
      rw [objs, chosen]
    have decided := setUpPin_ok_iff cfg s₂ r job
    rw [objs] at decided
    constructor
    · rintro ⟨result, done⟩ _ same
      cases same
      obtain ⟨_, _, tail⟩ := bind_eq_ok.mp done
      obtain ⟨_, again, tail⟩ := bind_eq_ok.mp tail
      rw [asked] at again
      cases again
      obtain ⟨pinned, timed, _⟩ := bind_eq_ok.mp tail
      exact decided.mp ⟨pinned, pins ▸ timed⟩
    · intro converts
      obtain ⟨⟨ttl, s₃⟩, done⟩ := decided.mpr (converts job rfl)
      obtain ⟨b, notes, rfl, _⟩ := setUpPin_spec done
      exact ends ttl (s₂.book b notes) rfl rfl (pins.trans done)

variable {ttl : PyFloat}

/-- The answer of `_set_up_pin`, from the history it leaves behind. -/
theorem setUpPin_ttl (done : s.setUpPin cfg r job = .ok (ttl, s')) :
    ttl = if (s.objs r).hasToolCall.getD false = true ∧
        cfg.mimirPinTtl.lt (PyFloat.mean cfg.compensatedSum (s'.toolHistory r job)) = false
      then cfg.mimirPinTtl else .fin 0 := by
  unfold setUpPin at done
  split at done
  · rename_i called
    obtain ⟨mid, _, built⟩ := bind_eq_ok.mp done
    simp only [Except.ok.injEq, Prod.mk.injEq] at built
    obtain ⟨rfl, rfl⟩ := built
    show (if cfg.mimirPinTtl.lt (PyFloat.mean cfg.compensatedSum (mid.toolHistory r job)) = true then .fin 0
      else cfg.mimirPinTtl) = _
    cases slow : cfg.mimirPinTtl.lt (PyFloat.mean cfg.compensatedSum (mid.toolHistory r job)) with
    | true => simp
    | false => simp [called]
  · rename_i uncalled
    cases done
    simp [uncalled]

/-- Setting up a pin keeps the histories, and reads the one of the request's job. -/
theorem setUpPin_kept (kept : DurationsKept s) (old : r < s.nextRef)
    (owner : (s.objs r).jobId = some job) (done : s.setUpPin cfg r job = .ok (ttl, s')) :
    s'.toolHistory r job = s'.durationsOf (job.dictKey r) := by
  obtain ⟨b, notes, rfl, _, _, recorded⟩ := setUpPin_spec done
  rw [← owner] at recorded
  have step : Records s (s.book b notes) := recorded.records old (s.book_durations b notes) rfl
  have after : DurationsKept (s.book b notes) := kept.record (le_refl s.nextRef) (fun _ _ => rfl) step
  exact after.kept _

end Scheduler

section Decision

/-- The decision the durations of a job call for: pin for the configured time after a tool call when
the mean of the durations is at most that time. -/
def wantedTtl (cfg : Config H C M) (toolCall : Bool) (durations : List PyFloat) : PyFloat :=
  if toolCall = true ∧ (PyFloat.mean cfg.compensatedSum durations).le cfg.mimirPinTtl = true then
    cfg.mimirPinTtl
  else .fin 0

/-- Durations whose mean is a number, compared with a time that is one. -/
def Comparables (cfg : Config H C M) (durations : List PyFloat) : Prop :=
  .nan ∉ durations ∧ ¬ PyFloat.Clashes (.fin 0) durations ∧ cfg.mimirPinTtl ≠ .nan

/-- The comparison the program makes is the wanted one exactly between numbers, or when no time is
configured. -/
theorem ttl_eq_wanted_iff (toolCall : Bool) (durations : List PyFloat) :
    (if toolCall = true ∧ cfg.mimirPinTtl.lt (PyFloat.mean cfg.compensatedSum durations) = false then
      cfg.mimirPinTtl else .fin 0) = wantedTtl cfg toolCall durations ↔
    (toolCall = true → Comparables cfg durations ∨ cfg.mimirPinTtl = .fin 0) := by
  unfold wantedTtl Comparables
  have number := PyFloat.mean_eq_nan_iff cfg.compensatedSum durations
  generalize PyFloat.mean cfg.compensatedSum durations = mean at number
  generalize cfg.mimirPinTtl = ttl
  cases toolCall with
  | false => simp
  | true =>
    by_cases unordered : mean = .nan ∨ ttl = .nan
    · -- With a `nan` neither comparison holds, so the program pins and the mean is not small.
      have less : ttl.lt mean = false := by
        rcases unordered with rfl | rfl
        · cases ttl <;> rfl
        · rfl
      have small : mean.le ttl = false := by
        rcases unordered with rfl | rfl
        · rfl
        · cases mean <;> rfl
      have apart : ¬ (.nan ∉ durations ∧ ¬ PyFloat.Clashes (.fin 0) durations ∧ ttl ≠ .nan) := by
        rintro ⟨first, second, third⟩
        rcases unordered with eq | eq
        · rcases number.mp eq with found | clash
          · exact first found
          · exact second clash
        · exact third eq
      rw [less, small, or_iff_right apart]
      simp
    · obtain ⟨first, second⟩ := not_or.mp unordered
      have usual := PyFloat.le_eq_not_lt first second
      have plain : .nan ∉ durations ∧ ¬ PyFloat.Clashes (.fin 0) durations ∧ ttl ≠ .nan := by
        have fine := fun found => first (number.mpr found)
        exact ⟨fun found => fine (.inl found), fun clash => fine (.inr clash), second⟩
      refine iff_of_true ?_ (fun _ => .inl plain)
      rw [usual]
      cases ttl.lt mean <;> simp

variable [DecidableEq H]

/-- Finishing a request under MIMIR. A known finished request is freed exactly when the tool duration
of a step that may be pinned can be read; `_set_up_pin` decides by the mean of the durations recorded
for the job exactly when these have a mean; and the recorded durations are the job's in every
reachable state, through every end of a request and every other change. -/
theorem finish_decided_by_mean (mimir : cfg.policy = .mimir) :
    (∀ (s s₁ : Scheduler H C) r now delay params,
      (s.objs r).isFinished = true → (s.objs r).requestId ∈ s.requests.keys →
      s.connectorFinished cfg r = .ok ((delay, params), s₁) →
      ((∃ result, s.freeRequest cfg now r = .ok result) ↔
        ((s.objs r).jobId ≠ none → (s.objs r).isLastStep.getD false = false → delay = false →
          (s.objs r).hasToolCall.getD false = true → Scheduler.ConvertsDuration cfg (s.objs r)))) ∧
    (∀ (s s' : Scheduler H C) r job ttl, DurationsKept s → r < s.nextRef →
      (s.objs r).jobId = some job → s.setUpPin cfg r job = .ok (ttl, s') →
      (ttl = wantedTtl cfg ((s.objs r).hasToolCall.getD false) (s'.durationsOf (job.dictKey r)) ↔
        ((s.objs r).hasToolCall.getD false = true →
          Comparables cfg (s'.durationsOf (job.dictKey r)) ∨ cfg.mimirPinTtl = .fin 0))) ∧
    (∀ (connector : C) (allowed : Engine H C M → Op → Prop) (e : Engine H C M),
      Engine.Reachable cfg connector allowed e → DurationsKept e.sched) ∧
    (∀ (s s' : Scheduler H C) r now params, DurationsKept s → r < s.nextRef →
      s.freeRequest cfg now r = .ok (params, s') → DurationsKept s') ∧
    (∀ (s s' : Scheduler H C), DurationsKept s → s.nextRef ≤ s'.nextRef →
      (∀ r < s.nextRef, (s'.objs r).jobId = (s.objs r).jobId) → s'.durations = s.durations →
      s'.jobToolHistory = s.jobToolHistory → DurationsKept s') := by
  refine ⟨?_, ?_, ?_, ?_, ?_⟩
  · intro s s₁ r now delay params finished known asked
    rw [freeRequest_ok_iff finished known asked]
    unfold pinJob
    constructor
    · intro each owned unended prompt
      obtain ⟨job, owner⟩ := Option.ne_none_iff_exists'.mp owned
      exact each job (by rw [if_pos ⟨mimir, unended, prompt⟩, owner])
    · intro converts job chosen
      split at chosen
      · rename_i eligible
        exact converts (by rw [chosen]; exact Option.some_ne_none job) eligible.2.1 eligible.2.2
      · cases chosen
  · intro s s' r job ttl kept old owner done
    rw [setUpPin_ttl done, setUpPin_kept kept old owner done]
    exact ttl_eq_wanted_iff _ _
  · intro connector allowed e reached
    exact reached.visited.durationsKept
  · intro s s' r now params kept old done
    exact kept.freeRequest old done
  · intro s s' kept nextRef jobs durations history
    exact kept.record nextRef jobs (.nothing durations history)

/-- One turn of an agent program with a tool of this duration. -/
def toolRequest (id : RequestId) (prompt : List TokenId) (duration : XArg) : EngineCoreRequest where
  requestId := id
  promptTokenIds := prompt
  samplingParams := some {
    maxTokens := 1
    extraArgs := some {
      jobId := some (.int 1)
      hasToolCall := some (.int 1)
      toolDuration := some duration } }

/-- The turn is sampled, up to the output that finishes it. -/
def toolTurn (duration : XArg) : List Op :=
  [.addRequest (toolRequest 0 [1, 2, 3] duration), .schedule (atTime 0), .execute]

/-- The output that finishes the turn. -/
def turnOutput : Op := .updateFromOutput (fun _ => .fin 0) (sampledOutput [(0, [7])])

/-- A turn with a tool of one second is recorded and pinned. -/
theorem finish_decided_by_mean_oneSecond :
    smallConfig.policy = .mimir ∧
    ∃ e : Engine FreeHash Unit Unit, Engine.Reachable smallConfig () (fun _ _ => True) e ∧
      DurationsKept e.sched ∧ e.sched.durationsOf ⟨.int 1, none⟩ = [.fin 1] ∧
      e.sched.pinnedRequests = [(0, .fin 2)] := by
  obtain ⟨e, before, facts⟩ : ∃ e, (Engine.init smallConfig ()).run smallConfig (fun _ _ => True)
      (toolTurn (.int 1) ++ [turnOutput]) = .ok e ∧ e.sched.durationsOf ⟨.int 1, none⟩ = [.fin 1] ∧
      e.sched.pinnedRequests = [(0, .fin 2)] := by
    decide +kernel
  have reached : Engine.Reachable smallConfig () (fun _ _ => True) e := Engine.steps_of_run before
  obtain ⟨_, _, kept, _, _⟩ :=
    @finish_decided_by_mean FreeHash Unit Unit smallConfig _ rfl
  exact ⟨rfl, e, reached, kept () _ e reached, facts⟩

/-- A duration that is no number stops the engine inside `update_from_output`, and one that is `nan`
pins although the mean is not at most the time to pin. -/
theorem toolTurn_malformed :
    smallConfig.policy = .mimir ∧
    (∃ e : Engine FreeHash Unit Unit, Engine.Reachable smallConfig () (fun _ _ => True) e ∧
      ∃ err, e.exec smallConfig turnOutput = .error err ∧ err.kind = .value ∧
        err.site = .floatConversion) ∧
    ∃ e : Engine FreeHash Unit Unit, Engine.Reachable smallConfig () (fun _ _ => True) e ∧
      e.sched.durationsOf ⟨.int 1, none⟩ = [.nan] ∧ e.sched.pinnedRequests = [(0, .fin 2)] ∧
      wantedTtl smallConfig true [.nan] = .fin 0 :=
  ⟨rfl, Engine.exists_reachable (toolTurn (.str "soon")) (by decide +kernel),
    Engine.exists_reachable (toolTurn (.float .nan) ++ [turnOutput]) (by decide +kernel)⟩

end Decision

end Mimir
