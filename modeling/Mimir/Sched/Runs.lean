import Mimir.Sched.Changes

/-! Runs of the engine, operation by operation and change by change. -/

namespace Mimir

open Python

namespace Engine

variable {H C M : Type}

/-- A scope in which nothing happens to any request. -/
def quietScope : Scope := ⟨fun _ => False, fun _ => False, True, False, none, False⟩

/-- Whether a batch carries draft tokens. -/
def drafted (batch : SchedulerOutput M) : Prop :=
  ∃ id tokens, batch.scheduledSpecDecodeTokens.get? id = some tokens ∧ tokens ≠ []

/-- All requests that a list of ids leads to are unfinished. -/
def Unfinished (s : Scheduler H C) (ids : List RequestId) : Prop :=
  ∀ id ∈ ids, ∀ r ∈ s.requests.get? id, (s.objs r).isFinished = false

instance (s : Scheduler H C) (ids : List RequestId) : Decidable (Unfinished s ids) :=
  inferInstanceAs (Decidable (∀ id ∈ ids, ∀ r ∈ s.requests.get? id, (s.objs r).isFinished = false))

/-- The requests named by a list of ids are unfinished. -/
theorem Unfinished.named {s : Scheduler H C} {ids : List RequestId} (all : Unfinished s ids) {r : Ref}
    (name : s.named ids r) : (s.objs r).isFinished = false := by
  obtain ⟨id, member, found⟩ := name
  exact all id member r found

/-- What an operation may do, read off its arguments and the state it starts from. -/
def scope (e : Engine H C M) : Op → Scope
  | .addRequest _ => quietScope
  | .schedule env => Scheduler.expiryScope env.now
  | .execute => { quietScope with step := True }
  | .updateFromOutput _ model =>
    match e.executed with
    | [] => quietScope
    | batch :: _ =>
      ⟨e.sched.named batch.numScheduledTokens.keys, e.sched.named (Scheduler.sentIds model),
        Unfinished e.sched batch.numScheduledTokens.keys, drafted batch, none, False⟩
  | .finishRequests _ ids _ =>
    ⟨e.sched.named ids, fun _ => False, Unfinished e.sched ids, False, none, False⟩
  | .updateDraftTokenIds drafts =>
    ⟨fun r => e.sched.named (drafts.map Prod.fst) r ∧ (e.sched.objs r).isFinished = false,
      fun _ => False, True, True, none, False⟩
  | .resetPrefixCache => quietScope

variable [DecidableEq H] {cfg : Config H C M} {e e' : Engine H C M} {op : Op}

/-- How an operation changes the scheduler. -/
inductive Effectual (cfg : Config H C M) (e : Engine H C M) (op : Op) (s' : Scheduler H C) : Prop
  | add (req : EngineCoreRequest) (isAdd : op = .addRequest req)
      (done : e.sched.addRequest cfg req = .ok s')
  | reset (isReset : op = .resetPrefixCache) (done : s' = e.sched.resetPrefixCache.2)
  | changes (steps : Changes cfg (e.scope op) e.sched s')

/-- Every operation adds a request, resets the cache, or is a sequence of changes in its scope. -/
theorem exec_effectual (inv : QueueInv e.sched) (done : e.exec cfg op = .ok e') :
    Effectual cfg e op e'.sched := by
  cases op with
  | addRequest req =>
    obtain ⟨s', added, built⟩ := bind_eq_ok.mp done
    cases built
    exact .add req rfl added
  | schedule =>
    obtain ⟨⟨out, s'⟩, scheduled, built⟩ := bind_eq_ok.mp done
    cases built
    exact .changes (schedule_changes inv scheduled)
  | execute =>
    cases waiting : e.scheduled with
    | nil => simp [exec, waiting] at done
    | cons batch =>
      simp only [exec, waiting, Except.ok.injEq] at done
      subst done
      refine .changes ?_
      show Changes cfg { quietScope with step := True } e.sched (executeBatch cfg e.sched batch)
      unfold executeBatch
      split
      · exact .single (.book e.sched { e.sched.bookkeeping with connector := _ } (.inl trivial) rfl)
      · exact .refl
  | updateFromOutput =>
    cases executed : e.executed with
    | nil => simp [exec, executed] at done
    | cons batch =>
      simp only [exec, executed] at done
      obtain ⟨⟨outputs, s'⟩, updated, built⟩ := bind_eq_ok.mp done
      cases built
      refine .changes ?_
      have moves := Scheduler.updateFromOutput_moves inv
        (fun r name (fresh : Unfinished e.sched batch.numScheduledTokens.keys) => fresh.named name)
        (fun (h : drafted batch) => h) updated
      simp only [scope, executed]
      exact moves.changes
  | finishRequests clock ids =>
    obtain ⟨s', finished, built⟩ := bind_eq_ok.mp done
    cases built
    exact .changes (Scheduler.finishRequests_moves inv
      (fun r name (fresh : Unfinished e.sched ids) => fresh.named name) finished).changes
  | updateDraftTokenIds drafts =>
    cases done
    have moves : Moves cfg (e.scope (.updateDraftTokenIds drafts)) e.sched _ :=
      updateDraftTokenIds_moves (fun r name live => ⟨name, live⟩) trivial
    exact .changes moves.changes
  | resetPrefixCache =>
    cases done
    exact .reset rfl rfl

/-- Every operation keeps the queues in order. -/
theorem exec_queueInv (inv : QueueInv e.sched) (done : e.exec cfg op = .ok e') :
    QueueInv e'.sched := by
  cases exec_effectual inv done with
  | add req isAdd added => exact inv.addRequest added
  | reset isReset eq => rw [eq]; exact inv.resetPrefixCache
  | changes steps => exact inv.changes steps

/-- The scheduler states that runs pass through, also in the middle of an operation. -/
inductive Visited (cfg : Config H C M) (connector : C) (allowed : Engine H C M → Op → Prop) :
    Scheduler H C → Prop
  | start : Visited cfg connector allowed (Scheduler.init cfg connector)
  | add {a : Engine H C M} {req : EngineCoreRequest} {s' : Scheduler H C}
      (before : Visited cfg connector allowed a.sched) (permitted : allowed a (.addRequest req))
      (done : a.sched.addRequest cfg req = .ok s') : Visited cfg connector allowed s'
  | reset {a : Engine H C M} (before : Visited cfg connector allowed a.sched)
      (permitted : allowed a .resetPrefixCache) :
      Visited cfg connector allowed a.sched.resetPrefixCache.2
  | change {a : Engine H C M} {op : Op} {s s' : Scheduler H C}
      (before : Visited cfg connector allowed s) (permitted : allowed a op)
      (step : Change cfg (a.scope op) s s') : Visited cfg connector allowed s'

variable {connector : C} {allowed : Engine H C M → Op → Prop}

namespace Visited

variable {s s' : Scheduler H C}

/-- The queues are in order in every state a run passes through. -/
theorem queueInv (visited : Visited cfg connector allowed s) : QueueInv s := by
  induction visited with
  | start => exact QueueInv.init cfg connector
  | add _ _ done ih => exact ih.addRequest done
  | reset _ _ ih => exact ih.resetPrefixCache
  | change _ _ step ih => exact ih.change step

/-- Runs pass through every state between the changes of an operation. -/
theorem changes (visited : Visited cfg connector allowed s) {a : Engine H C M} {op : Op}
    (permitted : allowed a op) (steps : Changes cfg (a.scope op) s s') :
    Visited cfg connector allowed s' := by
  induction steps with
  | refl => exact visited
  | tail _ last ih => exact ih.change permitted last

/-- Runs pass through the states between their operations. -/
theorem exec {a b : Engine H C M} {op : Op} (visited : Visited cfg connector allowed a.sched)
    (permitted : allowed a op) (done : a.exec cfg op = .ok b) :
    Visited cfg connector allowed b.sched := by
  cases exec_effectual visited.queueInv done with
  | add req isAdd added =>
    subst isAdd
    exact visited.add permitted added
  | reset isReset eq =>
    subst isReset
    rw [eq]
    exact visited.reset permitted
  | changes steps => exact visited.changes permitted steps

end Visited

/-- Reachable states are passed through. -/
theorem Reachable.visited (reached : Reachable cfg connector allowed e) :
    Visited cfg connector allowed e.sched :=
  Steps.invariant (I := fun x => Visited cfg connector allowed x.sched) reached .start
    fun _ _ _ visited permitted done => visited.exec permitted done

/-- The queues are in order in every reachable state, whatever operations are called. -/
theorem Reachable.queueInv (reached : Reachable cfg connector allowed e) : QueueInv e.sched :=
  reached.visited.queueInv

end Engine

end Mimir
