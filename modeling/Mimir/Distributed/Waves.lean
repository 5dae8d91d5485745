import Mathlib.Data.Fintype.Basic
import Mathlib.Data.List.Basic
import Mathlib.Logic.Function.Basic
import Mimir.Request.Types

/-! Data-parallel waves: engines that step together, the coordinator that wakes them, and the front-ends. -/

namespace Mimir

/-- Whom a `START_DP_WAVE` message excludes: front-ends name an engine by its socket identity, engines by
its index. -/
inductive Excluded (n : Nat) where
  | nobody
  | identity (e : Fin n)
  | index (e : Fin n)
  deriving DecidableEq

/-- Where an engine is in `run_busy_loop`. -/
inductive LoopPlace where
  /-- In `_process_input_queue`. -/
  | polling
  /-- In a forward pass, real or dummy, which ends when all engines are in it. -/
  | forward
  /-- In the all-reduce of `has_unfinished_dp`. -/
  | reduce
  deriving DecidableEq

/-- The wave state of a `DPEngineCoreProc`. -/
structure DPEngine where
  currentWave : Nat := 0
  enginesRunning : Bool := false
  stepCounter : Nat := 0
  /-- The waiting and running requests of its scheduler. -/
  unfinished : List RequestId := []
  place : LoopPlace := .polling
  /-- Whether it has sent `start_wave` in its current wave; only statements read this. -/
  announced : Bool := false

/-- The wave state of the coordinator. -/
structure DPCoordinator where
  currentWave : Nat := 0
  enginesRunning : Bool := false

/-- The wave state of a `DPAsyncMPClient`, with the targets on its `FIRST_REQ` socket. -/
structure DPClient (n : Nat) where
  currentWave : Nat := 0
  enginesRunning : Bool := false
  firstReqs : List (Fin n) := []

/-- What a front-end sends to an engine. -/
inductive ClientMessage where
  | add (id : RequestId) (wave : Nat)
  | abort (ids : List RequestId)

/-- What an engine sends to the coordinator, request counts left out. -/
inductive WaveNotice where
  | waveComplete (wave : Nat)
  | startWave (wave : Nat)

/-- All processes, and the messages between each two of them in the order of sending. -/
structure DPState (n m : Nat) where
  engines : Fin n → DPEngine := fun _ => {}
  coordinator : DPCoordinator := {}
  clients : Fin m → DPClient n := fun _ => {}
  /-- From a front-end to an engine. -/
  requests : Fin m → Fin n → List ClientMessage := fun _ _ => []
  /-- `START_DP_WAVE` messages to an engine. -/
  starts : Fin n → List (Nat × Excluded n) := fun _ => []
  /-- From an engine to the coordinator. -/
  notices : Fin n → List WaveNotice := fun _ => []
  /-- From a front-end to the coordinator: the engine of a first request, and a wave. -/
  wakeups : Fin m → List (Fin n × Nat) := fun _ => []
  /-- From the coordinator to a front-end: wave and running state. -/
  updates : Fin m → List (Nat × Bool) := fun _ => []

/-- One step of one process, or a collective of all engines. -/
inductive DPAction (n m : Nat) where
  | addRequest (c : Fin m) (e : Fin n) (id : RequestId)
  | abortRequests (c : Fin m) (e : Fin n) (ids : List RequestId)
  | firstReq (c : Fin m)
  | update (c : Fin m)
  | clientRequest (e : Fin n) (c : Fin m)
  | startWave (e : Fin n)
  | engineStep (e : Fin n)
  | forwardPass (finished : Fin n → List RequestId)
  | allReduce
  /-- A turn of the coordinator with the sockets that have a message; with none it publishes. -/
  | coordinate (front : Option (Fin m)) (back : Option (Fin n))

namespace DPEngine

variable (engine : DPEngine)

/-- `add_request`: an old wave number makes a paused engine report its own. -/
def addRequest (id : RequestId) (requestWave : Nat) : DPEngine × List WaveNotice :=
  let added := { engine with unfinished := engine.unfinished ++ [id] }
  if engine.currentWave < requestWave then ({ added with currentWave := requestWave }, [])
  else if requestWave < engine.currentWave ∧ engine.enginesRunning = false then
    ({ added with announced := true }, [.startWave engine.currentWave])
  else (added, [])

/-- `abort_requests` of the scheduler. -/
def abortRequests (ids : List RequestId) : DPEngine :=
  { engine with unfinished := engine.unfinished.filter (· ∉ ids) }

/-- The `START_DP_WAVE` branch of `_handle_client_request`. -/
def startWave {n : Nat} (engine : DPEngine) (self : Fin n) (wave : Nat) (excluded : Excluded n) :
    DPEngine :=
  -- An identity is a byte string, and so never equal to an index.
  if excluded ≠ .index self ∧ engine.currentWave ≤ wave then
    { engine with currentWave := wave, enginesRunning := true }
  else engine

/-- An engine that is in the next forward pass. -/
def TakesPart : Prop := engine.enginesRunning = true ∨ engine.unfinished ≠ []

instance (engine : DPEngine) : Decidable engine.TakesPart :=
  inferInstanceAs (Decidable (engine.enginesRunning = true ∨ engine.unfinished ≠ []))

/-- After a forward pass: the counter decides whether the engines synchronise. -/
def afterPass (finished : List RequestId) : DPEngine :=
  let engine := { engine with
    unfinished := engine.unfinished.filter (· ∉ finished)
    stepCounter := engine.stepCounter + 1 }
  if engine.stepCounter % 32 ≠ 0 then { engine with enginesRunning := true, place := .polling }
  else { engine with place := .reduce }

/-- After the all-reduce, with its result. -/
def afterReduce (unfinished : Bool) : DPEngine :=
  let engine := { engine with enginesRunning := unfinished, place := .polling }
  if unfinished then engine
  else { engine with currentWave := engine.currentWave + 1, stepCounter := 0, announced := false }

end DPEngine

namespace DPState

variable {n m : Nat} (s : DPState n m)

/-- Replacing the state of one engine. -/
def setEngine (e : Fin n) (engine : DPEngine) : DPState n m :=
  { s with engines := Function.update s.engines e engine }

/-- `add_request_async`; the notification goes to the front-end's own task. -/
def addRequest (c : Fin m) (e : Fin n) (id : RequestId) : DPState n m :=
  let client := s.clients c
  { s with
    requests := Function.update s.requests c (Function.update (s.requests c) e
      (s.requests c e ++ [.add id client.currentWave]))
    clients := if client.enginesRunning then s.clients
      else Function.update s.clients c { client with firstReqs := client.firstReqs ++ [e] } }

/-- `abort_requests_async`. -/
def abortRequests (c : Fin m) (e : Fin n) (ids : List RequestId) : DPState n m :=
  { s with requests := Function.update s.requests c (Function.update (s.requests c) e
      (s.requests c e ++ [.abort ids])) }

/-- The front-end's task takes a `FIRST_REQ`. -/
def firstReq (c : Fin m) : Option (DPState n m) :=
  let client := s.clients c
  match client.firstReqs with
  | [] => none
  | e :: rest => some { s with
      clients := Function.update s.clients c { client with enginesRunning := true, firstReqs := rest }
      wakeups := Function.update s.wakeups c (s.wakeups c ++ [(e, client.currentWave)]) }

/-- The front-end's task takes an update; draining several is several such steps. -/
def update (c : Fin m) : Option (DPState n m) :=
  match s.updates c with
  | [] => none
  | (wave, running) :: rest => some { s with
      clients := Function.update s.clients c
        { s.clients c with currentWave := wave, enginesRunning := running }
      updates := Function.update s.updates c rest }

/-- An engine takes a message of a front-end from its input queue. -/
def clientRequest (e : Fin n) (c : Fin m) : Option (DPState n m) :=
  if (s.engines e).place = .polling then
    match s.requests c e with
    | [] => none
    | message :: rest =>
      let s := { s with
        requests := Function.update s.requests c (Function.update (s.requests c) e rest) }
      match message with
      | .add id wave =>
        let added := (s.engines e).addRequest id wave
        some { s.setEngine e added.1 with
          notices := Function.update s.notices e (s.notices e ++ added.2) }
      | .abort ids => some (s.setEngine e ((s.engines e).abortRequests ids))
  else none

/-- An engine takes a `START_DP_WAVE` from its input queue. -/
def startWave (e : Fin n) : Option (DPState n m) :=
  if (s.engines e).place = .polling then
    match s.starts e with
    | [] => none
    | (wave, excluded) :: rest =>
      some { s.setEngine e ((s.engines e).startWave e wave excluded) with
        starts := Function.update s.starts e rest }
  else none

/-- An engine with work leaves the input queue; without unfinished requests it runs a dummy pass. -/
def engineStep (e : Fin n) : Option (DPState n m) :=
  if (s.engines e).place = .polling ∧ (s.engines e).TakesPart then
    some (s.setEngine e { s.engines e with place := .forward })
  else none

/-- The forward pass of all engines, and the requests of each that end with it. -/
def forwardPass (finished : Fin n → List RequestId) : Option (DPState n m) :=
  if ∀ e, (s.engines e).place = .forward then
    some { s with engines := fun e => (s.engines e).afterPass (finished e) }
  else none

/-- The all-reduce of all engines; rank 0 reports the end of a wave. -/
def allReduce : Option (DPState n m) :=
  if ∀ e, (s.engines e).place = .reduce then
    let unfinished := decide (∃ e, (s.engines e).unfinished ≠ [])
    some { s with
      engines := fun e => (s.engines e).afterReduce unfinished
      notices := fun e =>
        if unfinished = false ∧ e.val = 0 then s.notices e ++ [.waveComplete (s.engines e).currentWave]
        else s.notices e }
  else none

/-- `_send_start_wave`, with the coordinator's wave set to the one it starts. -/
def sendStartWave (wave : Nat) (excluded : Excluded n) : DPState n m :=
  { s with
    coordinator := { currentWave := wave, enginesRunning := true }
    starts := fun e => s.starts e ++ [(wave, excluded)] }

/-- The coordinator hears of a first request; the second result is `wave_state_changed`. -/
def takeWakeup (c : Fin m) : Option (DPState n m × Bool) :=
  match s.wakeups c with
  | [] => none
  | (e, wave) :: rest =>
    let s := { s with wakeups := Function.update s.wakeups c rest }
    if s.coordinator.enginesRunning then some (s, false)
    else
      -- A stale wave number wakes all engines.
      let excluded := if wave < s.coordinator.currentWave then .nobody else .identity e
      some (s.sendStartWave s.coordinator.currentWave excluded, true)

/-- The coordinator hears from an engine. -/
def takeNotice (e : Fin n) : Option (DPState n m × Bool) :=
  match s.notices e with
  | [] => none
  | notice :: rest =>
    let s := { s with notices := Function.update s.notices e rest }
    match notice with
    | .waveComplete wave =>
      if s.coordinator.currentWave ≤ wave then
        some ({ s with coordinator := { currentWave := wave + 1, enginesRunning := false } }, true)
      else some (s, false)
    | .startWave wave =>
      if s.coordinator.currentWave < wave ∨
          wave = s.coordinator.currentWave ∧ s.coordinator.enginesRunning = false then
        some (s.sendStartWave wave (.index e), true)
      else some (s, false)

/-- The coordinator tells all front-ends its wave and running state. -/
def publish : DPState n m :=
  { s with updates := fun c =>
      s.updates c ++ [(s.coordinator.currentWave, s.coordinator.enginesRunning)] }

/-- The socket of the front-ends, if it has a message. -/
def pollFront : Option (Fin m) → Option (DPState n m × Bool)
  | none => some (s, false)
  | some c => s.takeWakeup c

/-- The socket of the engines, if it has a message. -/
def pollBack : Option (Fin n) → Option (DPState n m × Bool)
  | none => some (s, false)
  | some e => s.takeNotice e

/-- A turn of the coordinator's loop. -/
def coordinate (front : Option (Fin m)) (back : Option (Fin n)) :
    Option (DPState n m) :=
  (s.pollFront front).bind fun woken =>
    (woken.1.pollBack back).bind fun noticed =>
      -- A turn without events is a timeout of the poller, which publishes too.
      if woken.2 ∨ noticed.2 ∨ front.isNone ∧ back.isNone then some noticed.1.publish
      else some noticed.1

/-- One step of the system. -/
def step : DPAction n m → Option (DPState n m)
  | .addRequest c e id => some (s.addRequest c e id)
  | .abortRequests c e ids => some (s.abortRequests c e ids)
  | .firstReq c => s.firstReq c
  | .update c => s.update c
  | .clientRequest e c => s.clientRequest e c
  | .startWave e => s.startWave e
  | .engineStep e => s.engineStep e
  | .forwardPass finished => s.forwardPass finished
  | .allReduce => s.allReduce
  | .coordinate front back => s.coordinate front back

/-- The steps of one run, one after the other. -/
def run (s : DPState n m) : List (DPAction n m) → Option (DPState n m)
  | [] => some s
  | action :: rest =>
    match s.step action with
    | some s' => s'.run rest
    | none => none

/-- No message is in flight or unread. -/
def Quiescent : Prop :=
  (∀ c e, s.requests c e = []) ∧ (∀ e, s.starts e = []) ∧ (∀ e, s.notices e = []) ∧
    (∀ c, s.wakeups c = []) ∧ (∀ c, s.updates c = []) ∧ ∀ c, (s.clients c).firstReqs = []

instance (s : DPState n m) : Decidable s.Quiescent :=
  inferInstanceAs (Decidable ((∀ c e, s.requests c e = []) ∧ (∀ e, s.starts e = []) ∧
    (∀ e, s.notices e = []) ∧ (∀ c, s.wakeups c = []) ∧ (∀ c, s.updates c = []) ∧
    ∀ c, (s.clients c).firstReqs = []))

/-- An engine that has reported an old request keeps a request until it runs. -/
def StepKeepsWork : DPAction n m → Prop
  | .clientRequest e c => ∀ ids rest, s.requests c e = .abort ids :: rest →
      (s.engines e).announced = true → (s.engines e).enginesRunning = false →
        ((s.engines e).abortRequests ids).unfinished ≠ []
  | _ => True

/-- The condition at every step of a run. -/
def KeepsWork (s : DPState n m) : List (DPAction n m) → Prop
  | [] => True
  | action :: rest => s.StepKeepsWork action ∧
      match s.step action with
      | some s' => s'.KeepsWork rest
      | none => True

end DPState

end Mimir
