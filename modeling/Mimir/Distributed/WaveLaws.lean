import Mimir.Distributed.Waves

/-! All engines take part in the next forward pass or none does, once no message is in flight. -/

namespace Mimir

open List
open Function (update_self update_of_ne update_eq_self)

section Queues

variable {ι κ α : Type} [DecidableEq ι] [DecidableEq κ] {queues : ι → List α}
  {grid : ι → κ → List α} {i i' : ι} {k k' : κ} {a x : α} {rest : List α}

/-- What is in the queues after an element was sent. -/
theorem mem_update_push (member : x ∈ Function.update queues i (queues i ++ [a]) i') :
    x ∈ queues i' ∨ (i' = i ∧ x = a) := by
  by_cases mine : i' = i
  · subst mine
    rw [update_self, mem_append, mem_singleton] at member
    exact member.imp_right fun same => ⟨rfl, same⟩
  · rw [update_of_ne mine] at member
    exact .inl member

/-- What was sent before is still there. -/
theorem mem_update_append (sent : List α) (member : x ∈ queues i') :
    x ∈ Function.update queues i (queues i ++ sent) i' := by
  by_cases mine : i' = i
  · subst mine
    rw [update_self]
    exact mem_append_left _ member
  · rwa [update_of_ne mine]

/-- Taking an element leaves elements that were there. -/
theorem mem_of_update_pop (head : queues i = a :: rest)
    (member : x ∈ Function.update queues i rest i') : x ∈ queues i' := by
  by_cases mine : i' = i
  · subst mine
    rw [update_self] at member
    rw [head]
    exact mem_cons_of_mem _ member
  · rwa [update_of_ne mine] at member

/-- Taking an element leaves all others. -/
theorem mem_update_pop (head : queues i = a :: rest) (member : x ∈ queues i') :
    x ∈ Function.update queues i rest i' ∨ (i' = i ∧ x = a) := by
  by_cases mine : i' = i
  · subst mine
    rw [head, mem_cons] at member
    rw [update_self]
    exact member.symm.imp_right fun same => ⟨rfl, same⟩
  · rw [update_of_ne mine]
    exact .inl member

/-- The same for queues with two ends. -/
theorem mem_update_push₂
    (member : x ∈ Function.update grid i (Function.update (grid i) k (grid i k ++ [a])) i' k') :
    x ∈ grid i' k' ∨ (i' = i ∧ x = a) := by
  by_cases mine : i' = i
  · subst mine
    rw [update_self] at member
    exact (mem_update_push member).imp_right fun same => ⟨rfl, same.2⟩
  · rw [update_of_ne mine] at member
    exact .inl member

/-- The same for queues with two ends. -/
theorem mem_of_update_pop₂ (head : grid i k = a :: rest)
    (member : x ∈ Function.update grid i (Function.update (grid i) k rest) i' k') :
    x ∈ grid i' k' := by
  by_cases mine : i' = i
  · subst mine
    rw [update_self] at member
    exact mem_of_update_pop head member
  · rwa [update_of_ne mine] at member

end Queues

variable {engine : DPEngine}

/-- A request that is not ahead of the engine is reported, or belongs to a wave that runs or is current. -/
theorem DPEngine.addRequest_cases (id : RequestId) {v : Nat} (old : v ≤ engine.currentWave) :
    (v < engine.currentWave ∧ engine.enginesRunning = false ∧ engine.addRequest id v =
      ({ engine with unfinished := engine.unfinished ++ [id], announced := true },
        [.startWave engine.currentWave])) ∨
    ((v = engine.currentWave ∨ engine.enginesRunning = true) ∧ engine.addRequest id v =
      ({ engine with unfinished := engine.unfinished ++ [id] }, [])) := by
  have ahead : ¬ engine.currentWave < v := by omega
  by_cases stale : v < engine.currentWave ∧ engine.enginesRunning = false
  · exact .inl ⟨stale.1, stale.2, by simp only [addRequest, if_neg ahead, if_pos stale]⟩
  · refine .inr ⟨?_, by simp only [addRequest, if_neg ahead, if_neg stale]⟩
    rw [not_and, Bool.not_eq_false] at stale
    rcases Nat.lt_or_ge v engine.currentWave with below | above
    · exact .inr (stale below)
    · exact .inl (by omega)

/-- A pass changes neither the wave nor what was announced. -/
theorem DPEngine.afterPass_keeps (engine : DPEngine) (finished : List RequestId) :
    (engine.afterPass finished).currentWave = engine.currentWave ∧
      (engine.afterPass finished).announced = engine.announced := by
  simp only [afterPass]
  split <;> exact ⟨rfl, rfl⟩

/-- An engine runs after a pass; the first pass of a wave does not synchronise. -/
theorem DPEngine.afterPass_runs (finished : List RequestId)
    (stepped : engine.stepCounter ≠ 0 → engine.enginesRunning = true) :
    (engine.afterPass finished).enginesRunning = true := by
  simp only [afterPass]
  split
  · rfl
  · next sync => exact stepped fun first => sync (by simp [first])

/-- A request never lowers the wave of an engine. -/
theorem DPEngine.addRequest_wave (engine : DPEngine) (id : RequestId) (v : Nat) :
    engine.currentWave ≤ (engine.addRequest id v).1.currentWave := by
  rcases Nat.lt_or_ge engine.currentWave v with ahead | old
  · simpa only [addRequest, if_pos ahead] using Nat.le_of_lt ahead
  · rcases addRequest_cases id old with ⟨-, -, added⟩ | ⟨-, added⟩ <;> rw [added]

/-- An engine has a request after adding one. -/
theorem DPEngine.addRequest_unfinished (engine : DPEngine) (id : RequestId) (v : Nat) :
    (engine.addRequest id v).1.unfinished ≠ [] := by
  simp only [addRequest]
  split
  · simp
  · split <;> simp

/-- Nor does a start. -/
theorem DPEngine.startWave_wave {n : Nat} (engine : DPEngine) (e : Fin n) (v : Nat)
    (x : Excluded n) : engine.currentWave ≤ (engine.startWave e v x).currentWave := by
  unfold startWave
  split
  · next acts => exact acts.2
  · exact Nat.le_refl _

/-- Nor does the all-reduce. -/
theorem DPEngine.afterReduce_wave (engine : DPEngine) (unfinished : Bool) :
    engine.currentWave ≤ (engine.afterReduce unfinished).currentWave := by
  cases unfinished with
  | true => exact Nat.le_refl _
  | false => exact Nat.le_succ _

namespace DPState

variable {n m : Nat} {s s' : DPState n m} {w : Nat}

/-- The coordinator has broadcast the start of a wave that is not over for it. -/
def Launched (s : DPState n m) (w : Nat) : Prop :=
  s.coordinator.currentWave = w ∧ s.coordinator.enginesRunning = true

/-- A notification on its way will make the coordinator start the wave. -/
def Triggered (s : DPState n m) (w : Nat) : Prop :=
  ∃ c, (s.clients c).currentWave = w ∧ (s.clients c).firstReqs ≠ [] ∨ ∃ e, (e, w) ∈ s.wakeups c

/-- A wave that is started, or will be. -/
def Stirred (s : DPState n m) (w : Nat) : Prop := s.Launched w ∨ s.Triggered w

/-- What holds while the engines are in wave `w`. -/
structure Inv (s : DPState n m) (w : Nat) : Prop where
  engineWave : ∀ e, (s.engines e).currentWave = w
  coordinatorWave : s.coordinator.currentWave ≤ w
  /-- A front-end hears of the waves in order. -/
  updateWaves : ∀ c, ((s.clients c).currentWave :: ((s.updates c).map Prod.fst ++
    [s.coordinator.currentWave])).Pairwise (· ≤ ·)
  wakeupWaves : ∀ c, ∀ x ∈ s.wakeups c, x.2 ≤ s.coordinator.currentWave
  requestWaves : ∀ c e id v, .add id v ∈ s.requests c e → v ≤ s.coordinator.currentWave
  startWaves : ∀ e, ∀ x ∈ s.starts e, x.1 ≤ s.coordinator.currentWave
  completeWaves : ∀ e v, .waveComplete v ∈ s.notices e → v < w
  noticeWaves : ∀ e v, .startWave v ∈ s.notices e → v ≤ w
  /-- A wave with a pass behind it runs. -/
  stepped : ∀ e, (s.engines e).stepCounter ≠ 0 → (s.engines e).enginesRunning = true
  running : ∀ e, (s.engines e).enginesRunning = true →
    s.Launched w ∨ ∀ e', (s.engines e').enginesRunning = true
  started : ∀ e x, (w, x) ∈ s.starts e → s.Launched w
  told : ∀ c, (w, true) ∈ s.updates c → s.Launched w
  believed : ∀ c, (s.clients c).currentWave = w → (s.clients c).enginesRunning = true → s.Stirred w
  requested : ∀ c e id, .add id w ∈ s.requests c e → s.Stirred w
  /-- A start reaches every engine but one that has announced it. -/
  launched : s.Launched w → ∀ e, (s.engines e).enginesRunning = true ∨
    (s.engines e).announced = true ∨ ∃ x, (w, x) ∈ s.starts e ∧ x ≠ .index e
  announced : ∀ e, (s.engines e).announced = true → .startWave w ∈ s.notices e ∨ s.Launched w
  announcer : ∀ e, .startWave w ∈ s.notices e → (s.engines e).announced = true
  unfinished : ∀ e, (s.engines e).unfinished ≠ [] → (s.engines e).enginesRunning = true ∨
    (s.engines e).announced = true ∨ s.Stirred w

/-- An engine that has announced its wave will be in the next pass. -/
def Working (s : DPState n m) : Prop :=
  ∀ e, (s.engines e).announced = true → (s.engines e).TakesPart

/-- A state without processes at work or messages. -/
theorem Inv.start : ({} : DPState n m).Inv 0 where
  engineWave _ := rfl
  coordinatorWave := Nat.le_refl 0
  updateWaves _ := by simp
  wakeupWaves := by simp
  requestWaves := by simp
  startWaves := by simp
  completeWaves := by simp
  noticeWaves := by simp
  stepped _ counted := absurd rfl counted
  running _ runs := by cases runs
  started := by simp
  told := by simp
  believed _ _ runs := by cases runs
  requested := by simp
  launched launched := by cases launched.2
  announced _ announced := by cases announced
  announcer := by simp
  unfinished _ some := absurd rfl some

variable {v : Nat} {c : Fin m} {e : Fin n} {engine : DPEngine} {engines : Fin n → DPEngine}
  {changed : Bool} {front : Option (Fin m)} {back : Option (Fin n)} {action : DPAction n m}

/-- The last number of an ascending list may grow. -/
theorem pairwise_raise_last {a v' : Nat} {waves : List Nat}
    (ordered : (a :: (waves ++ [v])).Pairwise (· ≤ ·)) (later : v ≤ v') :
    (a :: (waves ++ [v'])).Pairwise (· ≤ ·) := by
  rw [← cons_append, pairwise_append] at ordered ⊢
  refine ⟨ordered.1, pairwise_singleton _ _, fun x member y last => ?_⟩
  rw [mem_singleton] at last
  exact last ▸ Nat.le_trans (ordered.2.2 x member v (mem_singleton_self v)) later

section

variable (inv : s.Inv w)

include inv

/-- What a front-end knows is not ahead of the coordinator. -/
theorem Inv.clientWave (c : Fin m) : (s.clients c).currentWave ≤ s.coordinator.currentWave := by
  have ordered := pairwise_cons.mp (inv.updateWaves c)
  exact ordered.1 _ (mem_append_right _ (mem_singleton_self _))

omit inv in
/-- The clients of `add_request_async`: only the notifications of one of them grow. -/
theorem addRequest_clients (c : Fin m) (e : Fin n) (id : RequestId) (c' : Fin m) :
    ((s.addRequest c e id).clients c').currentWave = (s.clients c').currentWave ∧
      ((s.addRequest c e id).clients c').enginesRunning = (s.clients c').enginesRunning ∧
      ((s.clients c').firstReqs ≠ [] → ((s.addRequest c e id).clients c').firstReqs ≠ []) := by
  simp only [DPState.addRequest]
  split
  · exact ⟨rfl, rfl, fun some => some⟩
  · by_cases mine : c' = c
    · subst mine
      simp
    · simp [mine]

/-- A request is sent with the front-end's wave; it brings a notification or the wave is started. -/
theorem Inv.addRequest (c : Fin m) (e : Fin n) (id : RequestId) : (s.addRequest c e id).Inv w := by
  have clients := addRequest_clients (s := s) c e id
  have stirred : s.Stirred w → (s.addRequest c e id).Stirred w := by
    apply Or.imp_right
    rintro ⟨c', ⟨here, some⟩ | woken⟩
    · exact ⟨c', .inl ⟨(clients c').1.trans here, (clients c').2.2 some⟩⟩
    · exact ⟨c', .inr woken⟩
  refine { inv with
    updateWaves := fun c' => ?_, requestWaves := fun c' e' id' v member => ?_
    believed := fun c' now on => ?_, requested := fun c' e' id' member => ?_
    unfinished := fun e' some => ?_ }
  · rw [(clients c').1]
    exact inv.updateWaves c'
  · rcases mem_update_push₂ member with old | ⟨-, new⟩
    · exact inv.requestWaves c' e' id' v old
    · cases new
      exact inv.clientWave c
  · rw [(clients c').1] at now
    rw [(clients c').2.1] at on
    exact stirred (inv.believed c' now on)
  · rcases mem_update_push₂ member with old | ⟨-, new⟩
    · exact stirred (inv.requested c' e' id' old)
    · simp only [ClientMessage.add.injEq] at new
      -- A front-end that believes in a running wave is right; another one notifies.
      cases on : (s.clients c).enginesRunning with
      | true => exact stirred (inv.believed c new.2.symm on)
      | false =>
        refine .inr ⟨c, .inl ?_⟩
        simp [DPState.addRequest, on, new.2]
  · exact (inv.unfinished e' some).imp_right (Or.imp_right stirred)

/-- An abort on its way says nothing about waves. -/
theorem Inv.abortRequests (c : Fin m) (e : Fin n) (ids : List RequestId) :
    (s.abortRequests c e ids).Inv w := by
  have sent : ∀ c' e' id v, .add id v ∈ (s.abortRequests c e ids).requests c' e' →
      .add id v ∈ s.requests c' e' := by
    intro c' e' id v member
    rcases mem_update_push₂ member with old | ⟨-, new⟩
    · exact old
    · cases new
  exact { inv with
    requestWaves := fun c' e' id v member => inv.requestWaves c' e' id v (sent c' e' id v member)
    requested := fun c' e' id member => inv.requested c' e' id (sent c' e' id w member) }

/-- A notification is passed on with the front-end's wave. -/
theorem Inv.firstReq (stepped : s.firstReq c = some s') : s'.Inv w := by
  simp only [DPState.firstReq] at stepped
  split at stepped
  · cases stepped
  · next e rest queue =>
    cases stepped
    have wave : ∀ c', (Function.update s.clients c
        { s.clients c with enginesRunning := true, firstReqs := rest } c').currentWave =
          (s.clients c').currentWave := by
      intro c'
      by_cases mine : c' = c
      · subst mine
        simp
      · simp [mine]
    generalize next : ({ s with
      clients := Function.update s.clients c
        { s.clients c with enginesRunning := true, firstReqs := rest }
      wakeups := Function.update s.wakeups c (s.wakeups c ++ [(e, (s.clients c).currentWave)]) } :
        DPState n m) = s'
    have passed : (s.clients c).currentWave = w → s'.Stirred w := by
      intro here
      refine .inr ⟨c, .inr ⟨e, ?_⟩⟩
      simp [← next, here]
    have stirred : s.Stirred w → s'.Stirred w := by
      rintro (launched | ⟨c', ⟨here, some⟩ | ⟨e', woken⟩⟩)
      · exact .inl (by rw [← next]; exact launched)
      · by_cases mine : c' = c
        · exact passed (by rw [← mine]; exact here)
        · exact .inr ⟨c', .inl (by simp [← next, mine, here, some])⟩
      · exact .inr ⟨c', .inr ⟨e', by rw [← next]; exact mem_update_append _ woken⟩⟩
    subst next
    refine { inv with
      updateWaves := fun c' => ?_, wakeupWaves := fun c' x member => ?_
      believed := fun c' now on => ?_, requested := fun c' e' id member => ?_
      unfinished := fun e' some => ?_ }
    · simp only [wave c']
      exact inv.updateWaves c'
    · rcases mem_update_push member with old | ⟨-, rfl⟩
      · exact inv.wakeupWaves c' x old
      · exact inv.clientWave c
    · simp only [wave c'] at now
      by_cases mine : c' = c
      · exact passed (by rw [← mine]; exact now)
      · simp only [update_of_ne mine] at on
        exact stirred (inv.believed c' now on)
    · exact stirred (inv.requested c' e' id member)
    · exact (inv.unfinished e' some).imp_right (Or.imp_right stirred)

/-- An update that says a wave runs was sent after its start. -/
theorem Inv.update (stepped : s.update c = some s') : s'.Inv w := by
  unfold DPState.update at stepped
  split at stepped
  · cases stepped
  · next v runs rest queue =>
    cases stepped
    have ordered := inv.updateWaves c
    rw [queue, map_cons, cons_append, pairwise_cons] at ordered
    have later : (s.clients c).currentWave ≤ v := ordered.1 v mem_cons_self
    have bounded : v ≤ s.coordinator.currentWave :=
      (pairwise_cons.mp ordered.2).1 _ (mem_append_right _ (mem_singleton_self _))
    have top := inv.coordinatorWave
    generalize next : ({ s with
      clients := Function.update s.clients c
        { s.clients c with currentWave := v, enginesRunning := runs }
      updates := Function.update s.updates c rest } : DPState n m) = s'
    have stirred : s.Stirred w → s'.Stirred w := by
      rintro (launched | ⟨c', ⟨here, some⟩ | woken⟩)
      · exact .inl (by rw [← next]; exact launched)
      · refine .inr ⟨c', .inl ?_⟩
        by_cases mine : c' = c
        · subst mine
          have same : v = w := by omega
          simp [← next, same, some]
        · simp [← next, mine, here, some]
      · exact .inr ⟨c', .inr (by rw [← next]; exact woken)⟩
    subst next
    refine { inv with
      updateWaves := fun c' => ?_, told := fun c' member => ?_
      believed := fun c' now on => ?_
      requested := fun c' e' id member => stirred (inv.requested c' e' id member)
      unfinished := fun e' some => (inv.unfinished e' some).imp_right (Or.imp_right stirred) }
    · by_cases mine : c' = c
      · subst mine
        simp only [update_self]
        exact ordered.2
      · simp only [update_of_ne mine]
        exact inv.updateWaves c'
    · exact inv.told c' (mem_of_update_pop queue member)
    · by_cases mine : c' = c
      · subst mine
        simp only [update_self] at now on
        subst now on
        exact .inl (inv.told c' (by rw [queue]; exact mem_cons_self))
      · simp only [update_of_ne mine] at now on
        exact stirred (inv.believed c' now on)

/-- A message that was taken no longer binds anything. -/
theorem Inv.dropRequest {message : ClientMessage}
    {rest : List ClientMessage} (queue : s.requests c e = message :: rest) :
    ({ s with requests := Function.update s.requests c (Function.update (s.requests c) e rest) } :
      DPState n m).Inv w :=
  { inv with
    requestWaves := fun c' e' id v member =>
      inv.requestWaves c' e' id v (mem_of_update_pop₂ queue member)
    requested := fun c' e' id member => inv.requested c' e' id (mem_of_update_pop₂ queue member) }

/-- A change of one engine that leaves its wave and its running state alone. -/
theorem Inv.changeEngine (e : Fin n) (sent : List WaveNotice)
    (wave : engine.currentWave = (s.engines e).currentWave)
    (counter : engine.stepCounter = (s.engines e).stepCounter)
    (runs : engine.enginesRunning = (s.engines e).enginesRunning)
    (reports : ∀ x ∈ sent, x = .startWave w ∧ engine.announced = true)
    (announces : engine.announced = true → (s.engines e).announced = true ∨ .startWave w ∈ sent)
    (still : (s.engines e).announced = true → engine.announced = true)
    (work : engine.unfinished ≠ [] →
      engine.enginesRunning = true ∨ engine.announced = true ∨ s.Stirred w) :
    ({ s.setEngine e engine with
      notices := Function.update s.notices e (s.notices e ++ sent) } : DPState n m).Inv w := by
  have mine : (s.setEngine e engine).engines e = engine := update_self ..
  have others : ∀ e', e' ≠ e → (s.setEngine e engine).engines e' = s.engines e' := fun e' other =>
    update_of_ne other ..
  have allRun : ∀ e', ((s.setEngine e engine).engines e').enginesRunning =
      (s.engines e').enginesRunning := by
    intro e'
    by_cases here : e' = e
    · rw [here, mine, runs]
    · rw [others e' here]
  have announcing : ∀ e', (s.engines e').announced = true →
      ((s.setEngine e engine).engines e').announced = true := by
    intro e' told
    by_cases here : e' = e
    · rw [here, mine]
      exact still (here ▸ told)
    · rwa [others e' here]
  have sentIn : ∀ e' x, x ∈ Function.update s.notices e (s.notices e ++ sent) e' →
      x ∈ s.notices e' ∨ (e' = e ∧ x ∈ sent) := by
    intro e' x member
    by_cases here : e' = e
    · subst here
      rw [update_self, mem_append] at member
      exact member.imp_right fun new => ⟨rfl, new⟩
    · rw [update_of_ne here] at member
      exact .inl member
  exact { inv with
    engineWave := fun e' => by
      by_cases here : e' = e
      · exact here ▸ (congrArg _ mine).trans (wave.trans (inv.engineWave e))
      · exact (congrArg _ (others e' here)).trans (inv.engineWave e')
    completeWaves := fun e' v member => by
      rcases sentIn e' _ member with old | ⟨-, new⟩
      · exact inv.completeWaves e' v old
      · cases (reports _ new).1
    noticeWaves := fun e' v member => by
      rcases sentIn e' _ member with old | ⟨-, new⟩
      · exact inv.noticeWaves e' v old
      · cases (reports _ new).1
        exact Nat.le_refl _
    stepped := fun e' counted => by
      refine (allRun e').trans (inv.stepped e' ?_)
      by_cases here : e' = e
      · subst here
        exact counter ▸ mine ▸ counted
      · exact others e' here ▸ counted
    running := fun e' on => (inv.running e' ((allRun e').symm.trans on)).imp_right
      fun all e'' => (allRun e'').trans (all e'')
    launched := fun launched e' => (inv.launched launched e').imp (allRun e').trans
      (Or.imp_left (announcing e'))
    announced := fun e' told => by
      by_cases here : e' = e
      · subst here
        rcases announces (mine ▸ told) with old | new
        · exact (inv.announced e' old).imp_left (mem_update_append sent)
        · refine .inl ?_
          simp only [update_self]
          exact mem_append_right _ new
      · exact (inv.announced e' (others e' here ▸ told)).imp_left (mem_update_append sent)
    announcer := fun e' member => by
      rcases sentIn e' _ member with old | ⟨rfl, new⟩
      · exact announcing e' (inv.announcer e' old)
      · exact (congrArg _ mine).trans (reports _ new).2
    unfinished := fun e' some => by
      by_cases here : e' = e
      · subst here
        exact mine.symm ▸ work (mine ▸ some)
      · exact (others e' here).symm ▸ inv.unfinished e' (others e' here ▸ some) }

/-- The same for a change that sends nothing and ends or keeps requests. -/
theorem Inv.shrinkEngine (e : Fin n) (wave : engine.currentWave = (s.engines e).currentWave)
    (counter : engine.stepCounter = (s.engines e).stepCounter)
    (runs : engine.enginesRunning = (s.engines e).enginesRunning)
    (announced : engine.announced = (s.engines e).announced)
    (fewer : engine.unfinished ≠ [] → (s.engines e).unfinished ≠ []) :
    (s.setEngine e engine).Inv w := by
  have changed := inv.changeEngine e [] wave counter runs (by simp)
    (fun told => .inl (announced ▸ told)) (fun told => announced ▸ told)
    (fun some => by
      rw [runs, announced]
      exact inv.unfinished e (fewer some))
  rw [append_nil, update_eq_self] at changed
  exact changed

/-- A message from a front-end. -/
theorem Inv.clientRequest (stepped : s.clientRequest e c = some s') : s'.Inv w := by
  unfold DPState.clientRequest at stepped
  split at stepped
  · split at stepped
    · cases stepped
    · next message rest queue =>
      have dropped := inv.dropRequest queue
      cases message with
      | abort =>
        cases stepped
        refine dropped.shrinkEngine e rfl rfl rfl rfl fun some none => some ?_
        change (s.engines e).unfinished.filter _ = []
        rw [show (s.engines e).unfinished = [] from none, filter_nil]
      | add id v =>
        cases stepped
        have old : v ≤ w := Nat.le_trans
          (inv.requestWaves c e id v (by rw [queue]; exact mem_cons_self)) inv.coordinatorWave
        rcases DPEngine.addRequest_cases id ((inv.engineWave e).symm ▸ old) with
          ⟨-, -, added⟩ | ⟨current, added⟩
        · -- The engine reports its own wave.
          simp only [added, inv.engineWave e]
          exact dropped.changeEngine e [.startWave w] (inv.engineWave e).symm rfl rfl (by simp)
            (by simp) (by simp) (by simp)
        · -- A request of the wave itself is stirring, and a running engine needs no report.
          simp only [added]
          refine dropped.changeEngine e [] rfl rfl rfl (by simp) .inl (fun told => told) fun _ => ?_
          rcases current with same | runs
          · rw [inv.engineWave e] at same
            exact .inr (.inr (inv.requested c e id (by rw [queue, same]; exact mem_cons_self)))
          · exact .inl runs
  · cases stepped

/-- A started engine runs, and its wave is launched. -/
theorem Inv.wake (e : Fin n) (launched : s.Launched w) :
    (s.setEngine e { s.engines e with enginesRunning := true }).Inv w := by
  have same : ∀ e', ∃ runs, (s.setEngine e { s.engines e with enginesRunning := true }).engines e' =
      { s.engines e' with enginesRunning := runs } ∧
        ((s.engines e').enginesRunning = true → runs = true) := by
    intro e'
    by_cases here : e' = e
    · subst here
      exact ⟨true, by simp [setEngine], fun _ => rfl⟩
    · exact ⟨(s.engines e').enginesRunning, by simp [setEngine, here], id⟩
  refine { inv with
    engineWave := fun e' => ?_, stepped := fun e' counted => ?_, running := fun _ _ => .inl launched
    launched := fun _ e' => ?_, announced := fun e' told => ?_, announcer := fun e' member => ?_
    unfinished := fun e' some => ?_ }
  all_goals
    obtain ⟨runs, engine, grows⟩ := same e'
  · rw [engine]
    exact inv.engineWave e'
  · rw [engine] at counted ⊢
    exact grows (inv.stepped e' counted)
  · rw [engine]
    exact (inv.launched launched e').imp_left grows
  · exact .inr launched
  · rw [engine]
    exact inv.announcer e' member
  · exact .inr (.inr (.inl launched))

/-- A start that was taken no longer binds anything, once its engine runs or was not meant. -/
theorem Inv.dropStart {x : Nat × Excluded n}
    {rest : List (Nat × Excluded n)} (queue : s.starts e = x :: rest)
    (settled : x.1 = w → x.2 ≠ .index e → (s.engines e).enginesRunning = true) :
    ({ s with starts := Function.update s.starts e rest } : DPState n m).Inv w := by
  refine { inv with
    startWaves := fun e' y member => inv.startWaves e' y (mem_of_update_pop queue member)
    started := fun e' y member => inv.started e' y (mem_of_update_pop queue member)
    launched := fun launched e' => ?_ }
  rcases inv.launched launched e' with runs | told | ⟨y, waits, meant⟩
  · exact .inl runs
  · exact .inr (.inl told)
  · rcases mem_update_pop queue waits with still | ⟨rfl, taken⟩
    · exact .inr (.inr ⟨y, still, meant⟩)
    · subst taken
      exact .inl (settled rfl meant)

/-- A start that an engine acts on is the one of its wave. -/
theorem Inv.startWave (stepped : s.startWave e = some s') : s'.Inv w := by
  unfold DPState.startWave at stepped
  split at stepped
  · split at stepped
    · cases stepped
    · next v x rest queue =>
      cases stepped
      have first : (v, x) ∈ s.starts e := by
        rw [queue]
        exact mem_cons_self
      have old : v ≤ w := Nat.le_trans (inv.startWaves e (v, x) first) inv.coordinatorWave
      have wave := inv.engineWave e
      unfold DPEngine.startWave
      split
      · next acts =>
        have same : v = w := by omega
        subst same
        have woken := inv.wake e (inv.started e x first)
        rw [← wave] at woken ⊢
        exact woken.dropStart queue fun _ _ => by simp [setEngine]
      · next ignored =>
        rw [setEngine, update_eq_self]
        refine inv.dropStart queue fun same meant => absurd ⟨meant, ?_⟩ ignored
        simp only at same
        omega
  · cases stepped

/-- An engine on its way into the pass. -/
theorem Inv.engineStep (stepped : s.engineStep e = some s') : s'.Inv w := by
  unfold DPState.engineStep at stepped
  split at stepped
  · cases stepped
    exact inv.shrinkEngine e rfl rfl rfl rfl id
  · cases stepped

/-- All engines run after a pass that does not end the wave. -/
theorem Inv.allRun (wave : ∀ e, (engines e).currentWave = (s.engines e).currentWave)
    (runs : ∀ e, (engines e).enginesRunning = true)
    (announced : ∀ e, (engines e).announced = (s.engines e).announced) :
    ({ s with engines := engines } : DPState n m).Inv w :=
  { inv with
    engineWave := fun e => (wave e).trans (inv.engineWave e)
    stepped := fun e _ => runs e
    running := fun _ _ => .inr runs
    launched := fun _ e => .inl (runs e)
    announced := fun e told => inv.announced e ((announced e).symm.trans told)
    announcer := fun e member => (announced e).trans (inv.announcer e member)
    unfinished := fun e _ => .inl (runs e) }

/-- The forward pass; an engine that goes on to the all-reduce has run before. -/
theorem Inv.forwardPass {finished : Fin n → List RequestId}
    (stepped : s.forwardPass finished = some s') : s'.Inv w := by
  unfold DPState.forwardPass at stepped
  split at stepped
  · cases stepped
    exact inv.allRun (fun e => (DPEngine.afterPass_keeps _ _).1)
      (fun e => DPEngine.afterPass_runs _ (inv.stepped e)) (fun e => (DPEngine.afterPass_keeps _ _).2)
  · cases stepped

/-- The end of a wave: everything in flight belongs to earlier waves. -/
theorem Inv.endWave {notices : Fin n → List WaveNotice} (wave : ∀ e, (engines e).currentWave = w + 1)
    (counter : ∀ e, (engines e).stepCounter = 0)
    (runs : ∀ e, (engines e).enginesRunning = false)
    (announced : ∀ e, (engines e).announced = false)
    (none : ∀ e, (engines e).unfinished = [])
    (sent : ∀ e, ∀ x ∈ notices e, x ∈ s.notices e ∨ x = .waveComplete w) :
    ({ s with engines := engines, notices := notices } : DPState n m).Inv (w + 1) := by
  have top := inv.coordinatorWave
  have notLaunched : ¬ s.Launched (w + 1) := fun launched => by
    have := launched.1
    omega
  refine { inv with
    engineWave := wave
    coordinatorWave := Nat.le_succ_of_le top
    completeWaves := fun e v member => ?_
    noticeWaves := fun e v member => ?_
    stepped := fun e counted => absurd (counter e) counted
    running := fun e on => ?_
    started := fun e x member => ?_
    told := fun c member => ?_
    believed := fun c now _ => ?_
    requested := fun c e id member => ?_
    launched := fun launched => absurd launched notLaunched
    announced := fun e told => ?_
    announcer := fun e member => ?_
    unfinished := fun e some => absurd (none e) some }
  · rcases sent e _ member with old | new
    · exact Nat.lt_succ_of_lt (inv.completeWaves e v old)
    · cases new
      exact Nat.lt_succ_self _
  · rcases sent e _ member with old | new
    · exact Nat.le_succ_of_le (inv.noticeWaves e v old)
    · cases new
  · have off := runs e
    simp only [off, Bool.false_eq_true] at on
  · have bound := inv.startWaves e _ member
    simp only at bound
    omega
  · have ordered := (pairwise_cons.mp (inv.updateWaves c)).2
    have bound := (pairwise_append.mp ordered).2.2 (w + 1)
      (mem_map_of_mem member) _ (mem_singleton_self _)
    omega
  · have bound := inv.clientWave c
    simp only at now
    omega
  · have bound := inv.requestWaves c e id _ member
    omega
  · have off := announced e
    simp only [off, Bool.false_eq_true] at told
  · rcases sent e _ member with old | new
    · have bound := inv.noticeWaves e _ old
      omega
    · cases new

/-- The all-reduce continues the wave or ends it for all engines at once. -/
theorem Inv.allReduce (stepped : s.allReduce = some s') : ∃ w', s'.Inv w' := by
  unfold DPState.allReduce at stepped
  split at stepped
  · simp only [Option.some.injEq] at stepped
    by_cases some : ∃ e, (s.engines e).unfinished ≠ []
    · simp only [some, decide_true, Bool.true_eq_false, false_and, if_false] at stepped
      subst stepped
      exact ⟨w, inv.allRun (fun _ => rfl) (fun _ => rfl) (fun _ => rfl)⟩
    · simp only [some, decide_false, true_and] at stepped
      subst stepped
      simp only [not_exists, not_not] at some
      refine ⟨w + 1, inv.endWave (fun e => ?_) (fun e => rfl) (fun e => rfl) (fun e => rfl) some
        fun e x member => ?_⟩
      · exact congrArg (· + 1) (inv.engineWave e)
      · split at member
        · rw [mem_append, mem_singleton, inv.engineWave e] at member
          exact member
        · exact .inl member
  · cases stepped

/-- The coordinator's announcement of a wave; the wave before it was over, or not started. -/
theorem Inv.sendStartWave {excluded : Excluded n} (old : v ≤ w)
    (later : s.coordinator.currentWave ≤ v)
    (meant : v = w → ∀ e, excluded = .index e → (s.engines e).announced = true) :
    (s.sendStartWave v excluded).Inv w := by
  have launched : s.Launched w → (s.sendStartWave v excluded).Launched w := fun launched => by
    have := launched.1
    exact ⟨show v = w by omega, rfl⟩
  have stirred : s.Stirred w → (s.sendStartWave v excluded).Stirred w := Or.imp launched id
  have grown : ∀ e x, x ∈ (s.sendStartWave v excluded).starts e → x ∈ s.starts e ∨ x = (v, excluded) :=
    fun e x member => by
      simpa [DPState.sendStartWave] using member
  refine { inv with
    coordinatorWave := old
    updateWaves := fun c => ?_
    wakeupWaves := fun c x member => Nat.le_trans (inv.wakeupWaves c x member) later
    requestWaves := fun c e id v' member => Nat.le_trans (inv.requestWaves c e id v' member) later
    startWaves := fun e x member => ?_
    running := fun e on => (inv.running e on).imp_left launched
    started := fun e x member => ?_
    told := fun c member => launched (inv.told c member)
    believed := fun c now on => stirred (inv.believed c now on)
    requested := fun c e id member => stirred (inv.requested c e id member)
    launched := fun now e => ?_
    announced := fun e told => (inv.announced e told).imp_right launched
    unfinished := fun e some => (inv.unfinished e some).imp_right (Or.imp_right stirred) }
  · exact pairwise_raise_last (inv.updateWaves c) later
  · rcases grown e x member with before | rfl
    · exact Nat.le_trans (inv.startWaves e x before) later
    · exact Nat.le_refl v
  · rcases grown e (w, x) member with before | new
    · exact launched (inv.started e x before)
    · cases new
      exact ⟨rfl, rfl⟩
  · -- Everyone is started but an engine that has announced the wave.
    have same : v = w := now.1
    by_cases mine : excluded = .index e
    · exact .inr (.inl (meant same e mine))
    · refine .inr (.inr ⟨excluded, ?_, mine⟩)
      simp [DPState.sendStartWave, same]

/-- A notification that was taken is not missed when the coordinator has started its wave. -/
theorem Inv.dropWakeup {x : Fin n × Nat} {rest : List (Fin n × Nat)}
    (queue : s.wakeups c = x :: rest) (safe : s.coordinator.currentWave = w → s.Launched w) :
    ({ s with wakeups := Function.update s.wakeups c rest } : DPState n m).Inv w := by
  have top := inv.coordinatorWave
  have stirred : s.Stirred w →
      ({ s with wakeups := Function.update s.wakeups c rest } : DPState n m).Stirred w := by
    rintro (launched | ⟨c', here | ⟨e', woken⟩⟩)
    · exact .inl launched
    · exact .inr ⟨c', .inl here⟩
    · rcases mem_update_pop queue woken with still | ⟨-, -⟩
      · exact .inr ⟨c', .inr ⟨e', still⟩⟩
      · have bound := inv.wakeupWaves c' (e', w) woken
        exact .inl (safe (by simp only at bound; omega))
  exact { inv with
    wakeupWaves := fun c' x member => inv.wakeupWaves c' x (mem_of_update_pop queue member)
    believed := fun c' now on => stirred (inv.believed c' now on)
    requested := fun c' e id member => stirred (inv.requested c' e id member)
    unfinished := fun e some => (inv.unfinished e some).imp_right (Or.imp_right stirred) }

/-- A first request reaches the coordinator. -/
theorem Inv.takeWakeup (stepped : s.takeWakeup c = some (s', changed)) : s'.Inv w := by
  unfold DPState.takeWakeup at stepped
  split at stepped
  · cases stepped
  · next e v rest queue =>
    simp only at stepped
    split at stepped
    · next runs =>
      cases stepped
      exact inv.dropWakeup queue fun here => ⟨here, runs⟩
    · -- The start is broadcast before the notification is forgotten.
      cases stepped
      refine (inv.sendStartWave inv.coordinatorWave (Nat.le_refl _) fun _ e' mine => ?_).dropWakeup
        queue fun here => ⟨here, rfl⟩
      split at mine <;> cases mine

/-- A notice that was taken is not missed when its wave is started. -/
theorem Inv.dropNotice {x : WaveNotice} {rest : List WaveNotice}
    (queue : s.notices e = x :: rest) (safe : x = .startWave w → s.Launched w) :
    ({ s with notices := Function.update s.notices e rest } : DPState n m).Inv w := by
  refine { inv with
    completeWaves := fun e' v member => inv.completeWaves e' v (mem_of_update_pop queue member)
    noticeWaves := fun e' v member => inv.noticeWaves e' v (mem_of_update_pop queue member)
    announced := fun e' told => ?_
    announcer := fun e' member => inv.announcer e' (mem_of_update_pop queue member) }
  rcases inv.announced e' told with waits | launched
  · rcases mem_update_pop queue waits with still | ⟨-, taken⟩
    · exact .inl still
    · exact .inr (safe taken.symm)
  · exact .inr launched

/-- The end of an earlier wave reaches the coordinator. -/
theorem Inv.completeWave (earlier : v < w) (later : s.coordinator.currentWave ≤ v) :
    ({ s with coordinator := { currentWave := v + 1, enginesRunning := false } } :
      DPState n m).Inv w := by
  have notLaunched : ¬ s.Launched w := fun launched => by
    have := launched.1
    omega
  have raised : s.coordinator.currentWave ≤ v + 1 := Nat.le_succ_of_le later
  have stirred : s.Stirred w →
      ({ s with coordinator := { currentWave := v + 1, enginesRunning := false } } :
        DPState n m).Stirred w :=
    fun some => .inr (some.resolve_left notLaunched)
  exact { inv with
    coordinatorWave := earlier
    updateWaves := fun c => pairwise_raise_last (inv.updateWaves c) raised
    wakeupWaves := fun c x member => Nat.le_trans (inv.wakeupWaves c x member) raised
    requestWaves := fun c e id v' member => Nat.le_trans (inv.requestWaves c e id v' member) raised
    startWaves := fun e x member => Nat.le_trans (inv.startWaves e x member) raised
    running := fun e on => .inr ((inv.running e on).resolve_left notLaunched)
    started := fun e x member => absurd (inv.started e x member) notLaunched
    told := fun c member => absurd (inv.told c member) notLaunched
    believed := fun c now on => stirred (inv.believed c now on)
    requested := fun c e id member => stirred (inv.requested c e id member)
    launched := fun launched => by cases launched.2
    announced := fun e told => .inl ((inv.announced e told).resolve_right notLaunched)
    unfinished := fun e some => (inv.unfinished e some).imp_right (Or.imp_right stirred) }

/-- A notice of an engine reaches the coordinator. -/
theorem Inv.takeNotice (stepped : s.takeNotice e = some (s', changed)) : s'.Inv w := by
  unfold DPState.takeNotice at stepped
  split at stepped
  · cases stepped
  · next notice rest queue =>
    have first : notice ∈ s.notices e := by
      rw [queue]
      exact mem_cons_self
    cases notice with
    | waveComplete v =>
      simp only at stepped
      split at stepped
      · next later =>
        cases stepped
        exact (inv.completeWave (inv.completeWaves e v first) later).dropNotice queue (by simp)
      · cases stepped
        exact inv.dropNotice queue (by simp)
    | startWave v =>
      have old := inv.noticeWaves e v first
      simp only at stepped
      split at stepped
      · next later =>
        cases stepped
        refine (inv.sendStartWave old (by omega) fun same e' mine => ?_).dropNotice queue
          fun same => ?_
        · cases mine
          exact inv.announcer e (same ▸ first)
        · cases same
          exact ⟨rfl, rfl⟩
      · next heard =>
        cases stepped
        refine inv.dropNotice queue fun same => ?_
        cases same
        have top := inv.coordinatorWave
        simp only [not_or, not_and, Bool.not_eq_false] at heard
        have here : s.coordinator.currentWave = w := by omega
        exact ⟨here, heard.2 here.symm⟩

/-- The coordinator tells what it knows. -/
theorem Inv.publish : s.publish.Inv w := by
  refine { inv with updateWaves := fun c => ?_, told := fun c member => ?_ }
  · have ordered := inv.updateWaves c
    simp only [DPState.publish, map_append, map_cons, map_nil]
    rw [← cons_append, pairwise_append]
    refine ⟨ordered, pairwise_singleton _ _, fun x member y last => ?_⟩
    rw [mem_singleton] at last
    rw [last]
    rw [← cons_append, mem_append, mem_singleton] at member
    rw [← cons_append, pairwise_append] at ordered
    rcases member with before | rfl
    · exact ordered.2.2 x before _ (mem_singleton_self _)
    · exact Nat.le_refl _
  · simp only [DPState.publish, mem_append, mem_singleton, Prod.mk.injEq] at member
    rcases member with before | ⟨here, runs⟩
    · exact inv.told c before
    · exact ⟨here.symm, runs.symm⟩

omit inv in
/-- What both inputs and a publication keep, a turn of the coordinator keeps. -/
theorem coordinate_induct {P : DPState n m → Prop}
    (wakeup : ∀ s s' c changed, P s → s.takeWakeup c = some (s', changed) → P s')
    (notice : ∀ s s' e changed, P s → s.takeNotice e = some (s', changed) → P s')
    (publish : ∀ s, P s → P s.publish)
    (before : P s) (stepped : s.coordinate front back = some s') : P s' := by
  simp only [DPState.coordinate, Option.bind_eq_some_iff] at stepped
  obtain ⟨⟨s₁, woken⟩, first, ⟨s₂, noticed⟩, second, last⟩ := stepped
  have after : P s₁ := by
    cases front with
    | none =>
      cases first
      exact before
    | some c => exact wakeup s s₁ c woken before first
  have later : P s₂ := by
    cases back with
    | none =>
      cases second
      exact after
    | some e => exact notice s₁ s₂ e noticed after second
  simp only at last
  split at last
  · cases last
    exact publish s₂ later
  · cases last
    exact later

/-- The invariant holds after every step, in the same wave or in the next one. -/
theorem Inv.step (stepped : s.step action = some s') : ∃ w', s'.Inv w' := by
  cases action with
  | addRequest c e id =>
    cases stepped
    exact ⟨w, inv.addRequest c e id⟩
  | abortRequests c e ids =>
    cases stepped
    exact ⟨w, inv.abortRequests c e ids⟩
  | firstReq => exact ⟨w, inv.firstReq stepped⟩
  | update => exact ⟨w, inv.update stepped⟩
  | clientRequest => exact ⟨w, inv.clientRequest stepped⟩
  | startWave => exact ⟨w, inv.startWave stepped⟩
  | engineStep => exact ⟨w, inv.engineStep stepped⟩
  | forwardPass => exact ⟨w, inv.forwardPass stepped⟩
  | allReduce => exact inv.allReduce stepped
  | coordinate =>
    exact ⟨w, coordinate_induct (P := fun s => s.Inv w) (fun _ _ _ _ inv => inv.takeWakeup)
      (fun _ _ _ _ inv => inv.takeNotice) (fun _ inv => inv.publish) inv stepped⟩

end

/-- The inputs of the coordinator leave the engines alone, and its wave only grows. -/
theorem takeWakeup_effect (stepped : s.takeWakeup c = some (s', changed)) :
    s'.engines = s.engines ∧ s.coordinator.currentWave ≤ s'.coordinator.currentWave := by
  unfold DPState.takeWakeup at stepped
  split at stepped
  · cases stepped
  · simp only at stepped
    split at stepped <;> cases stepped <;> exact ⟨rfl, Nat.le_refl _⟩

/-- The same for the notices of engines. -/
theorem takeNotice_effect (stepped : s.takeNotice e = some (s', changed)) :
    s'.engines = s.engines ∧ s.coordinator.currentWave ≤ s'.coordinator.currentWave := by
  unfold DPState.takeNotice at stepped
  split at stepped
  · cases stepped
  · next notice rest queue =>
    cases notice with
    | waveComplete =>
      simp only at stepped
      split at stepped
      · next later =>
        cases stepped
        exact ⟨rfl, Nat.le_succ_of_le later⟩
      · cases stepped
        exact ⟨rfl, Nat.le_refl _⟩
    | startWave =>
      simp only at stepped
      split at stepped
      · next later =>
        cases stepped
        refine ⟨rfl, ?_⟩
        simp only [DPState.sendStartWave]
        omega
      · cases stepped
        exact ⟨rfl, Nat.le_refl _⟩

/-- A turn of the coordinator. -/
theorem coordinate_effect (stepped : s.coordinate front back = some s') :
    s'.engines = s.engines ∧ s.coordinator.currentWave ≤ s'.coordinator.currentWave := by
  refine coordinate_induct
    (P := fun t => t.engines = s.engines ∧ s.coordinator.currentWave ≤ t.coordinator.currentWave)
    (fun t t' c changed before taken => ?_) (fun t t' e changed before taken => ?_)
    (fun _ before => before) ⟨rfl, Nat.le_refl _⟩ stepped
  · have effect := takeWakeup_effect taken
    exact ⟨effect.1.trans before.1, Nat.le_trans before.2 effect.2⟩
  · have effect := takeNotice_effect taken
    exact ⟨effect.1.trans before.1, Nat.le_trans before.2 effect.2⟩

/-- What a step does to one engine. -/
inductive EngineStep (s : DPState n m) (action : DPAction n m) (e : Fin n) : DPEngine → Prop
  | same : EngineStep s action e (s.engines e)
  | add (id : RequestId) (v : Nat) : EngineStep s action e ((s.engines e).addRequest id v).1
  | abort {c : Fin m} (ids : List RequestId) (rest : List ClientMessage)
      (queue : s.requests c e = .abort ids :: rest) (here : action = .clientRequest e c) :
      EngineStep s action e ((s.engines e).abortRequests ids)
  | start (v : Nat) (x : Excluded n) : EngineStep s action e ((s.engines e).startWave e v x)
  | leave : EngineStep s action e { s.engines e with place := .forward }
  | pass (finished : List RequestId) : EngineStep s action e ((s.engines e).afterPass finished)
  | reduce (unfinished : Bool) : EngineStep s action e ((s.engines e).afterReduce unfinished)

/-- A step changes each engine in one of these ways, and never lowers the coordinator's wave. -/
theorem step_engines (stepped : s.step action = some s') :
    (∀ e, EngineStep s action e (s'.engines e)) ∧
      s.coordinator.currentWave ≤ s'.coordinator.currentWave := by
  have one : ∀ (e : Fin n) (engine : DPEngine), EngineStep s action e engine →
      ∀ e', EngineStep s action e' (Function.update s.engines e engine e') := by
    intro e engine mine e'
    by_cases here : e' = e
    · subst here
      rwa [update_self]
    · rw [update_of_ne here]
      exact .same
  cases action with
  | addRequest =>
    cases stepped
    exact ⟨fun _ => .same, Nat.le_refl _⟩
  | abortRequests =>
    cases stepped
    exact ⟨fun _ => .same, Nat.le_refl _⟩
  | firstReq =>
    simp only [DPState.step, DPState.firstReq] at stepped
    split at stepped
    · cases stepped
    · cases stepped
      exact ⟨fun _ => .same, Nat.le_refl _⟩
  | update =>
    simp only [DPState.step, DPState.update] at stepped
    split at stepped
    · cases stepped
    · cases stepped
      exact ⟨fun _ => .same, Nat.le_refl _⟩
  | clientRequest e =>
    simp only [DPState.step, DPState.clientRequest] at stepped
    split at stepped
    · split at stepped
      · cases stepped
      · next message rest queue =>
        cases message with
        | abort ids =>
          cases stepped
          exact ⟨one e _ (.abort ids rest queue rfl), Nat.le_refl _⟩
        | add id v =>
          cases stepped
          exact ⟨one e _ (.add id v), Nat.le_refl _⟩
    · cases stepped
  | startWave e =>
    simp only [DPState.step, DPState.startWave] at stepped
    split at stepped
    · split at stepped
      · cases stepped
      · next v x rest queue =>
        cases stepped
        exact ⟨one e _ (.start v x), Nat.le_refl _⟩
    · cases stepped
  | engineStep e =>
    simp only [DPState.step, DPState.engineStep] at stepped
    split at stepped
    · cases stepped
      exact ⟨one e _ .leave, Nat.le_refl _⟩
    · cases stepped
  | forwardPass =>
    simp only [DPState.step, DPState.forwardPass] at stepped
    split at stepped
    · cases stepped
      exact ⟨fun _ => .pass _, Nat.le_refl _⟩
    · cases stepped
  | allReduce =>
    simp only [DPState.step, DPState.allReduce] at stepped
    split at stepped
    · cases stepped
      exact ⟨fun _ => .reduce _, Nat.le_refl _⟩
    · cases stepped
  | coordinate =>
    have effect := coordinate_effect stepped
    exact ⟨fun e => effect.1 ▸ .same, effect.2⟩

theorem EngineStep.wave_le (step : EngineStep s action e engine) :
    (s.engines e).currentWave ≤ engine.currentWave := by
  cases step with
  | same => exact Nat.le_refl _
  | add id v => exact DPEngine.addRequest_wave _ id v
  | abort => exact Nat.le_refl _
  | start v x => exact DPEngine.startWave_wave _ e v x
  | leave => exact Nat.le_refl _
  | pass => exact Nat.le_of_eq (DPEngine.afterPass_keeps _ _).1.symm
  | reduce => exact DPEngine.afterReduce_wave _ _

/-- Requests, starts and passes keep an announcing engine at work; an abort does under the condition. -/
theorem Working.step (inv : s.Inv w) (work : s.Working)
    (keeps : s.StepKeepsWork action) (stepped : s.step action = some s') : s'.Working := by
  intro e told
  generalize s'.engines e = engine, (step_engines stepped).1 e = step at told
  cases step with
  | same => exact work e told
  | add id v => exact .inr (DPEngine.addRequest_unfinished _ id v)
  | abort ids rest queue here =>
    subst here
    cases runs : (s.engines e).enginesRunning with
    | true => exact .inl runs
    | false => exact .inr (keeps ids rest queue told runs)
  | start =>
    unfold DPEngine.startWave at told ⊢
    split at told
    · next acts =>
      rw [if_pos acts]
      exact .inl rfl
    · next ignored =>
      rw [if_neg ignored]
      exact work e told
  | leave => exact work e told
  | pass => exact .inl (DPEngine.afterPass_runs _ (inv.stepped e))
  | reduce unfinished =>
    cases unfinished with
    | true => exact .inl rfl
    | false => cases told

/-- Along a run. -/
theorem run_inv {actions : List (DPAction n m)} (inv : s.Inv w) (ran : s.run actions = some s') :
    (∃ w', s'.Inv w') ∧ (s.Working → s.KeepsWork actions → s'.Working) := by
  induction actions generalizing s w with
  | nil =>
    cases ran
    exact ⟨⟨w, inv⟩, fun work _ => work⟩
  | cons action rest ih =>
    simp only [DPState.run] at ran
    split at ran
    · next next stepped =>
      obtain ⟨w', inv'⟩ := inv.step stepped
      obtain ⟨after, works⟩ := ih inv' ran
      refine ⟨after, fun work keeps => ?_⟩
      simp only [DPState.KeepsWork, stepped] at keeps
      exact works (work.step inv keeps.1 stepped) keeps.2
    · cases ran

/-- With no message in flight a launched wave has reached every engine. -/
theorem Inv.agree (inv : s.Inv w) (work : s.Working) (quiet : s.Quiescent) :
    (∀ e, (s.engines e).TakesPart) ∨ ∀ e, ¬ (s.engines e).TakesPart := by
  obtain ⟨-, starts, notices, wakeups, -, firstReqs⟩ := quiet
  have notTriggered : ¬ s.Triggered w := by
    rintro ⟨c, ⟨-, some⟩ | ⟨e, woken⟩⟩
    · exact some (firstReqs c)
    · rw [wakeups c] at woken
      cases woken
  -- A launched wave has no start in flight, so each engine runs or has announced the wave.
  have everyone : s.Launched w → ∀ e, (s.engines e).TakesPart := by
    intro launched e
    rcases inv.launched launched e with runs | told | ⟨x, waits, -⟩
    · exact .inl runs
    · exact work e told
    · rw [starts e] at waits
      cases waits
  have one : ∀ e, (s.engines e).enginesRunning = true → ∀ e', (s.engines e').TakesPart := by
    intro e runs
    rcases inv.running e runs with launched | all
    · exact everyone launched
    · exact fun e' => .inl (all e')
  by_cases some : ∃ e, (s.engines e).TakesPart
  · obtain ⟨e, runs | pending⟩ := some
    · exact .inl (one e runs)
    · rcases inv.unfinished e pending with runs | told | stirred
      · exact .inl (one e runs)
      · rcases inv.announced e told with waits | launched
        · rw [notices e] at waits
          cases waits
        · exact .inl (everyone launched)
      · exact .inl (everyone (stirred.resolve_right notTriggered))
  · exact .inr fun e takes => some ⟨e, takes⟩

/-- Wave numbers never decrease, and when an engine that has announced its wave keeps a request until it
runs, the engines agree on the next pass whenever no message is in flight. -/
theorem waves_agree {actions : List (DPAction n m)} (ran : ({} : DPState n m).run actions = some s) :
    (∀ action s', s.step action = some s' →
      (∀ e, (s.engines e).currentWave ≤ (s'.engines e).currentWave) ∧
        s.coordinator.currentWave ≤ s'.coordinator.currentWave) ∧
    (({} : DPState n m).KeepsWork actions → s.Quiescent →
      (∀ e, (s.engines e).TakesPart) ∨ ∀ e, ¬ (s.engines e).TakesPart) := by
  obtain ⟨⟨w, inv⟩, works⟩ := run_inv Inv.start ran
  refine ⟨fun _ _ stepped => ⟨fun e => ((step_engines stepped).1 e).wave_le, (step_engines stepped).2⟩,
    fun keeps quiet => ?_⟩
  have idle : ({} : DPState n m).Working := fun _ told => by cases told
  exact inv.agree (works idle keeps) quiet

/-- One request wakes both engines. -/
def firstWave : List (DPAction 2 1) :=
  [.addRequest 0 0 0, .firstReq 0, .coordinate (some 0) none, .startWave 0, .startWave 1,
    .clientRequest 0 0, .update 0]

/-- Both engines run and no message is left. -/
theorem waves_agree_firstWave :
    ∃ s, ({} : DPState 2 1).run firstWave = some s ∧ s.Quiescent ∧
      ({} : DPState 2 1).KeepsWork firstWave ∧
      ((∀ e, (s.engines e).TakesPart) ∨ ∀ e, ¬ (s.engines e).TakesPart) := by
  have ran : ({} : DPState 2 1).run firstWave = some _ := rfl
  have keeps : ({} : DPState 2 1).KeepsWork firstWave :=
    And.intro trivial (And.intro trivial (And.intro trivial (And.intro trivial (And.intro trivial
      (And.intro (fun _ _ first => by cases first) (And.intro trivial trivial))))))
  exact ⟨_, ran, by decide, keeps, (waves_agree ran).2 keeps (by decide)⟩

/-- A whole wave, and then a request with its number that is aborted before the engine steps. -/
def staleRequestAborted : List (DPAction 2 1) :=
  firstWave ++
    (List.replicate 32 [.engineStep 0, .engineStep 1, .forwardPass fun _ => [0]]).flatten ++
    [.allReduce, .addRequest 0 0 1, .abortRequests 0 0 [1], .clientRequest 0 0, .clientRequest 0 0,
      .coordinate none (some 0), .coordinate none (some 0), .startWave 0, .startWave 1, .update 0,
      .update 0]

/-- Engine 1 is started and waits for engine 0, which has announced the wave and has no request. -/
theorem staleRequest_disagrees :
    ∃ s, ({} : DPState 2 1).run staleRequestAborted = some s ∧ s.Quiescent ∧
      ¬ (s.engines 0).TakesPart ∧ (s.engines 1).TakesPart := by
  have ran : ({} : DPState 2 1).run staleRequestAborted = some _ := rfl
  exact ⟨_, ran, by decide, by decide, by decide⟩

end DPState

end Mimir
