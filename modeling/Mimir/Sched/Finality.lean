import Mimir.Sched.Runs

/-! What happens to a request after it has finished. -/

namespace Mimir

open Python

variable {H C M : Type} {cfg : Config H C M} {r : Ref}

/-- A request is served no further: its status, its tokens and the effects of serving it stay. -/
structure Final {H C : Type} (r : Ref) (s s' : Scheduler H C) : Prop where
  status : (s'.objs r).status = (s.objs r).status
  output : (s'.objs r).outputTokenIds = (s.objs r).outputTokenIds
  effects : s'.history.filter (Effect.serves r) = s.history.filter (Effect.serves r)

namespace Final

variable {s s' s'' : Scheduler H C}

/-- Nothing is served by doing nothing. -/
theorem refl (r : Ref) (s : Scheduler H C) : Final r s s := ⟨rfl, rfl, rfl⟩

/-- Not being served is transitive. -/
theorem trans (first : Final r s s') (second : Final r s' s'') : Final r s s'' :=
  ⟨second.status.trans first.status, second.output.trans first.output,
    second.effects.trans first.effects⟩

/-- A finished request stays finished. -/
theorem finished (final : Final r s s') (done : (s.objs r).isFinished = true) :
    (s'.objs r).isFinished = true := by
  unfold Request.isFinished at done ⊢
  rw [final.status]
  exact done

/-- Effects about other requests do not serve this one. -/
theorem of_notes (objs : (s'.objs r).status = (s.objs r).status ∧
      (s'.objs r).outputTokenIds = (s.objs r).outputTokenIds)
    (notes : List Effect) (history : s'.history = notes ++ s.history)
    (apart : ∀ e ∈ notes, e.serves r = false) : Final r s s' := by
  refine ⟨objs.1, objs.2, ?_⟩
  have none : notes.filter (Effect.serves r) = [] := by
    rw [List.filter_eq_nil_iff]
    intro e member
    rw [apart e member]
    exact Bool.false_ne_true
  rw [history, List.filter_append, none, List.nil_append]

variable [DecidableEq H] {scope : Scope}

/-- A move that does not touch a request does not serve it. -/
theorem move (step : Move cfg scope s s') (apart : ¬ scope.touch r) : Final r s s' := by
  -- The object is untouched, so only the new effects matter, and they name touched requests.
  obtain ⟨notes, history, noted⟩ := step.history
  refine of_notes (by rw [step.objs_frame apart]; exact ⟨rfl, rfl⟩) notes history fun e member => ?_
  rcases noted e member with ⟨r', touched, serves⟩ | ⟨r', rfl⟩
  · exact Bool.eq_false_iff.mpr fun mine => apart (Effect.serves_unique serves mine ▸ touched)
  · rfl

/-- The scheduling loops serve no finished request. -/
theorem loopMove (inv : QueueInv s) (step : LoopMove cfg s s') (done : (s.objs r).isFinished = true) :
    Final r s s' := by
  obtain ⟨notes, history, noted⟩ := step.history
  have same := step.frame.outside r (inv.finished_not_queued done)
  refine of_notes (by rw [same]; exact ⟨rfl, rfl⟩) notes history fun e member => ?_
  rcases noted e member with ⟨_, _, rfl⟩ | ⟨_, _, rfl⟩ | ⟨_, _, _, rfl⟩ <;> rfl

/-- A finished request outside the scope of some changes is not served by them. -/
theorem changes (inv : QueueInv s) (steps : Changes cfg scope s s')
    (done : (s.objs r).isFinished = true) (apart : ¬ scope.touch r) : Final r s s' := by
  induction steps with
  | refl => exact .refl r s
  | tail before last ih =>
    refine ih.trans ?_
    cases last with
    | move step => exact move step apart
    | loop step => exact loopMove (inv.changes before) step (ih.finished done)
    | advance scheduled reserved known eq => rw [eq]; exact of_notes ⟨rfl, rfl⟩ [] rfl (by simp)

end Final

namespace Engine

/-- The operation is not about a finished request that the scheduler still keeps. -/
def NamesUnfinished (e : Engine H C M) : Op → Prop
  | .updateFromOutput _ _ =>
    ∀ batch ∈ e.executed.head?, Unfinished e.sched batch.numScheduledTokens.keys
  | .finishRequests _ ids _ => Unfinished e.sched ids
  | _ => True

instance (e : Engine H C M) (op : Op) : Decidable (e.NamesUnfinished op) :=
  match op with
  | .updateFromOutput _ _ => inferInstanceAs (Decidable (∀ batch ∈ e.executed.head?, _))
  | .finishRequests _ ids _ => inferInstanceAs (Decidable (Unfinished e.sched ids))
  | .addRequest _ | .schedule _ | .execute | .updateDraftTokenIds _ | .resetPrefixCache =>
    inferInstanceAs (Decidable True)

variable {e e' : Engine H C M} {op : Op}

/-- In such an operation, the requests that end were unfinished before. -/
theorem NamesUnfinished.fresh (names : e.NamesUnfinished op) : (e.scope op).fresh := by
  cases op with
  | updateFromOutput =>
    cases executed : e.executed with
    | nil => simp [scope, executed, quietScope]
    | cons batch =>
      simp only [scope, executed]
      exact names batch (by rw [executed]; rfl)
  | finishRequests => exact names
  | addRequest => trivial
  | schedule => trivial
  | execute => trivial
  | updateDraftTokenIds => trivial
  | resetPrefixCache => trivial

/-- In such an operation, no finished request is touched. -/
theorem NamesUnfinished.apart (names : e.NamesUnfinished op)
    (done : (e.sched.objs r).isFinished = true) : ¬ (e.scope op).touch r := by
  intro touched
  have live : (e.sched.objs r).isFinished = false := by
    cases op with
    | updateFromOutput =>
      cases executed : e.executed with
      | nil => simp [scope, executed, quietScope] at touched
      | cons batch =>
        simp only [scope, executed] at touched
        exact (names batch (by rw [executed]; rfl)).named touched
    | finishRequests => exact names.named touched
    | updateDraftTokenIds => exact touched.2
    | addRequest => exact touched.elim
    | schedule => exact touched.elim
    | execute => exact touched.elim
    | resetPrefixCache => exact touched.elim
  rw [live] at done
  cases done

variable [DecidableEq H]

/-- An operation that names no finished request serves no finished request. -/
theorem exec_final (inv : QueueInv e.sched)
    (names : e.NamesUnfinished op) (known : r < e.sched.nextRef)
    (done : (e.sched.objs r).isFinished = true) (executed : e.exec cfg op = .ok e') :
    Final r e.sched e'.sched := by
  cases exec_effectual inv executed with
  | add req isAdd added =>
    obtain ⟨_, _, _, _, eq⟩ := Scheduler.addRequest_spec added
    have other : r ≠ e.sched.nextRef := Nat.ne_of_lt known
    rw [eq]
    exact Final.of_notes (by simp [other]) [] rfl (by simp)
  | reset isReset eq => rw [eq]; exact Final.of_notes ⟨rfl, rfl⟩ [] rfl (by simp)
  | changes steps => exact Final.changes inv steps done (names.apart done)

/-- Operations never take back a request object. -/
theorem exec_nextRef (inv : QueueInv e.sched)
    (executed : e.exec cfg op = .ok e') : e.sched.nextRef ≤ e'.sched.nextRef := by
  cases exec_effectual inv executed with
  | add req isAdd added =>
    obtain ⟨_, _, _, _, eq⟩ := Scheduler.addRequest_spec added
    rw [eq]
    exact Nat.le_succ _
  | reset isReset eq => rw [eq]; exact Nat.le_refl _
  | changes steps => exact le_of_eq steps.nextRef.symm

/-- A finished request is served no further in any run whose operations name no finished request. -/
theorem finished_final {connector : C} {e e' : Engine H C M}
    (reached : Reachable cfg connector (fun _ _ => True) e)
    (later : Steps cfg NamesUnfinished e e') (r : Ref) (known : r < e.sched.nextRef)
    (done : (e.sched.objs r).isFinished = true) : Final r e.sched e'.sched := by
  -- The run keeps the queues in order, the object, and its finality so far.
  have run : QueueInv e'.sched ∧ r < e'.sched.nextRef ∧ Final r e.sched e'.sched := by
    refine Steps.invariant
      (I := fun x => QueueInv x.sched ∧ r < x.sched.nextRef ∧ Final r e.sched x.sched) later
      ⟨reached.queueInv, known, .refl r e.sched⟩ ?_
    rintro a b op ⟨queues, below, final⟩ names executed
    exact ⟨exec_queueInv queues executed, below.trans_le (exec_nextRef queues executed),
      final.trans (exec_final queues names below (final.finished done) executed)⟩
  exact run.2.2

/-- A request that has just been scheduled and is then aborted while its batch is in flight. -/
def abortInFlight : List Op :=
  [.addRequest (agentRequest 0 [1, 2, 3] 1), .schedule (atTime 0), .execute,
    .finishRequests (fun _ => .fin 0) [0] .finishedAborted]

/-- The output of the batch arrives after the abort. -/
def lateOutput : List Op := [.updateFromOutput (fun _ => .fin 1) (sampledOutput [(0, [7])])]

/-- The aborted request stays as it is when other operations follow. -/
theorem finished_final_abortInFlight :
    ∃ e e' : Engine FreeHash Unit Unit, Reachable smallConfig () (fun _ _ => True) e ∧
      Steps smallConfig NamesUnfinished e e' ∧ 0 < e.sched.nextRef ∧
      (e.sched.objs 0).isFinished = true ∧ Final 0 e.sched e'.sched := by
  obtain ⟨e, before, e', after, known, done⟩ : ∃ e,
      (init smallConfig ()).run smallConfig (fun _ _ => True) abortInFlight = .ok e ∧
      ∃ e', e.run smallConfig NamesUnfinished [.schedule (atTime 1), .resetPrefixCache] = .ok e' ∧
        0 < e.sched.nextRef ∧ (e.sched.objs 0).isFinished = true := by
    decide +kernel
  have reached : Reachable smallConfig () (fun _ _ => True) e := steps_of_run before
  have later := steps_of_run after
  exact ⟨e, e', reached, later, known, done, finished_final reached later 0 known done⟩

/-- An aborted request that is pinned gets a new status, a token, a second report and an output. -/
theorem abortInFlight_not_final :
    ∃ e e' : Engine FreeHash Unit Unit, Reachable smallConfig () (fun _ _ => True) e ∧
      Steps smallConfig (fun _ _ => True) e e' ∧ 0 < e.sched.nextRef ∧
      (e.sched.objs 0).isFinished = true ∧ (e'.sched.objs 0).status ≠ (e.sched.objs 0).status ∧
      (e'.sched.objs 0).outputTokenIds ≠ (e.sched.objs 0).outputTokenIds ∧
      e'.sched.history.countP (Effect.serves 0) = e.sched.history.countP (Effect.serves 0) + 3 := by
  obtain ⟨e, before, e', after, facts⟩ : ∃ e,
      (init smallConfig ()).run smallConfig (fun _ _ => True) abortInFlight = .ok e ∧
      ∃ e', e.run smallConfig (fun _ _ => True) lateOutput = .ok e' ∧ 0 < e.sched.nextRef ∧
        (e.sched.objs 0).isFinished = true ∧ (e'.sched.objs 0).status ≠ (e.sched.objs 0).status ∧
        (e'.sched.objs 0).outputTokenIds ≠ (e.sched.objs 0).outputTokenIds ∧
        e'.sched.history.countP (Effect.serves 0) =
          e.sched.history.countP (Effect.serves 0) + 3 := by
    decide +kernel
  exact ⟨e, e', steps_of_run before, steps_of_run after, facts⟩

end Engine

end Mimir
