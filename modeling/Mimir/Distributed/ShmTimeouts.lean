import Mimir.Distributed.ShmInvariant

/-! Broadcast calls that raise `TimeoutError` or are cancelled, with local and remote readers. -/

namespace Mimir

/-- The broadcast with its remote readers and the second half of `enqueue`. -/
structure TimedBroadcast (O : Type) where
  shm : Broadcast O
  /-- The object of an `enqueue` call that still has to be sent to the remote readers. -/
  remoteSend : Option O
  /-- The messages on their way to each remote reader. -/
  remoteSockets : Nat → List (List Nat)
  /-- What the `dequeue` calls of each remote reader have returned, oldest first. -/
  remoteReturned : Nat → List O
  /-- The objects of the `enqueue` calls that have returned, oldest first. -/
  accepted : List O

/-- A step of the queue, or the end of a call by an exception. -/
inductive TimedAction (O : Type) where
  | process (action : BroadcastAction O)
  | sendRemote
  | dequeueRemote (k : Nat)
  /-- `TimeoutError` in `acquire_write`. -/
  | timeoutWrite
  /-- `TimeoutError` or the cancelation in `acquire_read`. -/
  | timeoutRead (i : Nat)
  /-- `TimeoutError` in `recv`, for the socket of a local reader. -/
  | timeoutRecv (i : Nat)
  /-- `TimeoutError` in `recv`, for the socket of a remote reader. -/
  | timeoutRemote (k : Nat)

namespace TimedBroadcast

variable {O : Type} (t : TimedBroadcast O)

/-- The object of the `enqueue` call in progress. -/
def inProgress : List O := t.remoteSend.toList ++ t.shm.current.toList

/-- The same object, once the local readers can read it. -/
def finishing : List O :=
  t.remoteSend.toList ++ if t.shm.writer = .sending then t.shm.current.toList else []

end TimedBroadcast

namespace MessageQueue

variable {O : Type} (q : MessageQueue O)

/-- Nothing enqueued and all processes idle. -/
def timedStart : TimedBroadcast O where
  shm := start
  remoteSend := none
  remoteSockets _ := []
  remoteReturned _ := []
  accepted := []

/-- What the local part of `enqueue` leaves to send; a write outside the chunk has raised. -/
def localDone (s s' : Broadcast O) (obj : O) : Option O :=
  match s.writer with
  | .writing _ => none
  | _ => if s'.writer = .idle then some obj else none

/-- A step of a process that does not time out. -/
def processStep (t : TimedBroadcast O) : BroadcastAction O → Option (TimedBroadcast O)
  | .enqueue obj =>
    -- The call before has to end first.
    if t.remoteSend.isSome then none
    else if q.nReader = 0 then some { t with remoteSend := some obj }
    else (q.step t.shm (.enqueue obj)).map fun shm => { t with shm }
  | .writer =>
    match t.shm.current with
    | none => none
    | some obj => (q.writerStep t.shm obj).map fun shm =>
        { t with shm, remoteSend := localDone t.shm shm obj }
  | action => (q.step t.shm action).map fun shm => { t with shm }

/-- One step of one process, timeouts included; each is raised behind a test that has failed. -/
def timedStep (t : TimedBroadcast O) : TimedAction O → Option (TimedBroadcast O)
  | .process action => q.processStep t action
  | .sendRemote =>
    match t.remoteSend with
    | none => none
    | some obj => some { t with
        remoteSend := none
        remoteSockets := fun k => t.remoteSockets k ++ [q.dumps obj]
        accepted := t.accepted ++ [obj] }
  | .dequeueRemote k =>
    match t.remoteSockets k with
    | [] => none
    | message :: rest =>
      match q.loads message with
      | none => none
      | some obj => some { t with
          remoteSockets := Function.update t.remoteSockets k rest
          remoteReturned := Function.update t.remoteReturned k (t.remoteReturned k ++ [obj]) }
  | .timeoutWrite =>
    match t.shm.writer with
    | .counting next sum =>
      if next = q.nReader ∧ t.shm.written t.shm.writerIdx ∧ sum ≠ q.nReader then
        some { t with shm := { t.shm with writer := .idle, current := none } }
      else none
    | _ => none
  | .timeoutRead i =>
    match t.shm.reader i with
    | .readWritten flag =>
      if i < q.nReader ∧ (¬ t.shm.written (t.shm.readerIdx i) ∨ flag) then
        some { t with shm := goTo t.shm i .idle }
      else none
    | _ => none
  | .timeoutRecv i =>
    match t.shm.reader i with
    | .receiving =>
      if i < q.nReader ∧ t.shm.sockets i = [] then some { t with shm := goTo t.shm i .idle }
      else none
    | _ => none
  | .timeoutRemote k => if t.remoteSockets k = [] then some t else none

/-- The steps of one interleaving with timeouts. -/
def timedRun (t : TimedBroadcast O) : List (TimedAction O) → Option (TimedBroadcast O)
  | [] => some t
  | action :: rest => (q.timedStep t action).bind fun t' => timedRun t' rest

/-- The invariant of all interleavings whose calls do not time out in `recv` of a local reader. -/
structure TimedInv (t : TimedBroadcast O) : Prop where
  shm : q.Inv t.shm
  published : 0 < q.nReader → t.shm.published = t.accepted ++ t.finishing
  pending : 0 < q.nReader → t.remoteSend.isSome → t.shm.writer = .idle
  remote : ∀ k, ∃ rest, t.accepted = t.remoteReturned k ++ rest ∧
    t.remoteSockets k = rest.map q.dumps

variable {q} {t t' : TimedBroadcast O} {s s' : Broadcast O} {obj : O} {i : Nat}

theorem TimedInv.start : q.TimedInv (timedStart : TimedBroadcast O) where
  shm := Inv.start
  published _ := rfl
  pending _ h := by simp [timedStart] at h
  remote _ := ⟨[], rfl, rfl⟩

/-- A reader leaves the writer's side alone. -/
theorem readerStep_writer (stepped : q.readerStep s i = some s') :
    s'.published = s.published ∧ s'.writer = s.writer ∧ s'.current = s.current := by
  unfold readerStep at stepped
  repeat' split at stepped
  all_goals
    cases stepped
    try exact ⟨rfl, rfl, rfl⟩

/-- A step that leaves the writer's side alone keeps the invariant. -/
theorem TimedInv.keep (inv : q.TimedInv t) (good : q.Inv s)
    (same : s.published = t.shm.published ∧ s.writer = t.shm.writer ∧ s.current = t.shm.current) :
    q.TimedInv { t with shm := s } where
  shm := good
  published local_ := by
    have before := inv.published local_
    simpa only [TimedBroadcast.finishing, same] using before
  pending local_ h := same.2.1.trans (inv.pending local_ h)
  remote := inv.remote

/-- What a step of the writer does to the objects the local readers can read. -/
theorem writerStep_published (stepped : q.writerStep s obj = some s') (call : s.current = some obj) :
    let after := if s'.writer = .sending then s'.current.toList else []
    s.writer ≠ .idle ∧
      ((localDone s s' obj).isSome → s'.writer = .idle) ∧
      ∀ front, s.published = front ++ (if s.writer = .sending then [obj] else []) →
        s'.published = front ++ ((localDone s s' obj).toList ++ after) := by
  unfold writerStep at stepped
  cases here : s.writer with
  | idle => simp [here] at stepped
  | counting next sum =>
    simp only [here, testWrite] at stepped
    split at stepped <;> [skip; split at stepped] <;>
      · cases stepped
        simp [localDone, here]
  | marking =>
    simp only [here] at stepped
    cases stepped
    simp [localDone, here]
  | writing pos =>
    simp only [here, writeByte] at stepped
    split at stepped <;> [split at stepped; skip] <;>
      · cases stepped
        simp [localDone, here]
  | resetting next =>
    simp only [here, publish] at stepped
    split at stepped <;> [skip; split at stepped] <;>
      · cases stepped
        simp +contextual [localDone, here, call]
  | sending =>
    simp only [here] at stepped
    cases stepped
    simp [localDone, here]

/-- A step without timeout keeps the invariant. -/
theorem TimedInv.process (inv : q.TimedInv t) {action : BroadcastAction O}
    (stepped : q.processStep t action = some t') : q.TimedInv t' := by
  cases action with
  | enqueue obj =>
    simp only [processStep] at stepped
    split at stepped
    · cases stepped
    · next free =>
      split at stepped
      · next none_ =>
        cases stepped
        exact ⟨inv.shm, by omega, by omega, inv.remote⟩
      · simp only [Option.map_eq_some_iff] at stepped
        obtain ⟨s', moved, rfl⟩ := stepped
        have good := inv.shm.step moved
        simp only [step] at moved
        split at moved
        · next idle =>
          cases moved
          refine ⟨good, fun local_ => ?_, fun _ h => absurd h free, inv.remote⟩
          simpa [TimedBroadcast.finishing, idle] using inv.published local_
        · cases moved
  | writer =>
    simp only [processStep] at stepped
    split at stepped
    · cases stepped
    · next obj call =>
      simp only [Option.map_eq_some_iff] at stepped
      obtain ⟨s', moved, rfl⟩ := stepped
      obtain ⟨busy, idle, published⟩ := writerStep_published moved call
      refine ⟨inv.shm.writerStep call moved, fun local_ => ?_, fun _ => idle, inv.remote⟩
      -- A writer inside its call has sent the object before to the remote readers.
      have unsent : t.remoteSend = none := by
        simpa using fun h => busy (inv.pending local_ h)
      apply published
      simpa [TimedBroadcast.finishing, unsent, call] using inv.published local_
  | dequeue i =>
    simp only [processStep, Option.map_eq_some_iff] at stepped
    obtain ⟨s', moved, rfl⟩ := stepped
    refine inv.keep (inv.shm.step moved) ?_
    simp only [step] at moved
    repeat' split at moved
    all_goals
      cases moved
      try exact ⟨rfl, rfl, rfl⟩
  | reader i =>
    simp only [processStep, Option.map_eq_some_iff] at stepped
    obtain ⟨s', moved, rfl⟩ := stepped
    refine inv.keep (inv.shm.step moved) ?_
    simp only [step] at moved
    split at moved
    · exact readerStep_writer moved
    · cases moved

/-- A step that is not a timeout in `recv` of a local reader keeps the invariant. -/
theorem TimedInv.step (inv : q.TimedInv t) {action : TimedAction O}
    (patient : ∀ i, action ≠ .timeoutRecv i) (stepped : q.timedStep t action = some t') :
    q.TimedInv t' := by
  cases action with
  | process action => exact inv.process stepped
  | sendRemote =>
    simp only [timedStep] at stepped
    split at stepped
    · cases stepped
    · next obj unsent =>
      cases stepped
      refine ⟨inv.shm, fun local_ => ?_, by simp, fun k => ?_⟩
      · have idle := inv.pending local_ (by simp [unsent])
        simpa [TimedBroadcast.finishing, idle, unsent] using inv.published local_
      · obtain ⟨rest, split, socket⟩ := inv.remote k
        exact ⟨rest ++ [obj], by simp [split], by simp [socket]⟩
  | dequeueRemote k =>
    simp only [timedStep] at stepped
    split at stepped
    · cases stepped
    · next message left socket =>
      split at stepped
      · cases stepped
      · next obj loaded =>
        cases stepped
        refine ⟨inv.shm, inv.published, inv.pending, fun other => ?_⟩
        by_cases same : other = k
        · -- The first message is the pickle of the first object not returned yet.
          subst other
          obtain ⟨rest, split, queued⟩ := inv.remote k
          rw [socket] at queued
          obtain ⟨first, rest, rfl, rfl, rfl⟩ := List.map_eq_cons_iff.mp queued.symm
          have roundTrip := q.roundTrip first []
          rw [List.append_nil, loaded] at roundTrip
          cases roundTrip
          exact ⟨rest, by simp [split], by simp⟩
        · simpa [same] using inv.remote other
  | timeoutWrite =>
    simp only [timedStep] at stepped
    split at stepped
    · next next sum here =>
      split at stepped
      · cases stepped
        refine ⟨?_, fun local_ => ?_, fun _ _ => rfl, inv.remote⟩
        · exact inv.shm.moveWriter (by simp [here]) (by simp [here, WriterPc.inside]) none
            (by simp) (by simp [WriterPc.inside]) (by simp [WriterPc.committed])
            (by simp [WriterGood])
        · simpa [TimedBroadcast.finishing, here] using inv.published local_
      · cases stepped
    · cases stepped
  | timeoutRead i =>
    simp only [timedStep] at stepped
    split at stepped
    · next flag here =>
      split at stepped
      · cases stepped
        have good : q.Inv (goTo t.shm i .idle) :=
          inv.shm.moveReader here rfl trivial
        exact inv.keep good ⟨rfl, rfl, rfl⟩
      · cases stepped
    · cases stepped
  | timeoutRecv i => exact absurd rfl (patient i)
  | timeoutRemote k =>
    simp only [timedStep] at stepped
    split at stepped
    · cases stepped
      exact inv
    · cases stepped

/-- So does a whole interleaving. -/
theorem TimedInv.run (inv : q.TimedInv t) {actions : List (TimedAction O)}
    (patient : ∀ i, .timeoutRecv i ∉ actions) (ran : q.timedRun t actions = some t') :
    q.TimedInv t' := by
  induction actions generalizing t with
  | nil =>
    cases ran
    exact inv
  | cons action rest ih =>
    obtain ⟨next, stepped, ran⟩ := Option.bind_eq_some_iff.mp ran
    have kept := inv.step (fun i same => patient i (by simp [same])) stepped
    exact ih kept (fun i inside => patient i (by simp [inside])) ran

/-- A call that times out has no effect, unless a local reader does so in `recv`: each reader has returned,
in order, the objects of the `enqueue` calls that did not raise, none lost and none repeated. -/
theorem timeouts_lossless {actions : List (TimedAction O)}
    (ran : q.timedRun timedStart actions = some t) (patient : ∀ i, .timeoutRecv i ∉ actions) :
    (∀ i < q.nReader, t.shm.returned i <+: t.accepted ++ t.inProgress) ∧
      ∀ k, t.remoteReturned k <+: t.accepted := by
  have inv := TimedInv.start.run patient ran
  refine ⟨fun i small => ?_, fun k => ?_⟩
  · have front : t.shm.returned i <+: t.shm.published := by
      rw [inv.shm.returned i small]
      exact List.take_prefix _ _
    rw [inv.published (by omega)] at front
    refine front.trans ?_
    rw [List.prefix_append_right_inj]
    unfold TimedBroadcast.finishing TimedBroadcast.inProgress
    rw [List.prefix_append_right_inj]
    split
    · exact List.prefix_rfl
    · exact List.nil_prefix
  · obtain ⟨rest, split, -⟩ := inv.remote k
    exact ⟨rest, split.symm⟩

/-- One reader and two chunks of two bytes; object 0 is oversized and the others are their own byte. -/
def oversizedZero : MessageQueue Nat where
  nReader := 1
  maxChunks := 2
  maxChunkBytes := 2
  dumps o := if o = 0 then [0, 0] else [o]
  loads := List.head?
  chunksPositive := Nat.two_pos
  roundTrip o _ := by
    split
    · next zero => simp [zero]
    · rfl

/-- An `enqueue` call up to its return. -/
def enqueueCall (obj steps : Nat) : List (TimedAction Nat) :=
  .process (.enqueue obj) :: List.replicate steps (.process .writer) ++ [.sendRemote]

/-- A `dequeue` call of reader 0. -/
def dequeueCall (steps : Nat) : List (TimedAction Nat) :=
  .process (.dequeue 0) :: List.replicate steps (.process (.reader 0))

/-- The reader times out on the empty ring, the writer on the full one, and a remote reader on its empty
socket. -/
def timedOutRun : List (TimedAction Nat) :=
  dequeueCall 1 ++ [.timeoutRead 0, .timeoutRemote 0] ++ enqueueCall 0 8 ++ enqueueCall 5 8 ++
    [.process (.enqueue 6), .process .writer, .timeoutWrite] ++ dequeueCall 5 ++
    [.dequeueRemote 0]

theorem timeouts_lossless_all :
    ∃ t, oversizedZero.timedRun timedStart timedOutRun = some t ∧
      t.accepted ++ t.inProgress = [0, 5] ∧ t.shm.returned 0 = [0] ∧ t.remoteReturned 0 = [0] ∧
      (∀ i < 1, t.shm.returned i <+: t.accepted ++ t.inProgress) ∧
      ∀ k, t.remoteReturned k <+: t.accepted :=
  ⟨_, rfl, rfl, rfl, rfl, timeouts_lossless
    (show oversizedZero.timedRun timedStart timedOutRun = _ from rfl)
    (by simp [timedOutRun, dequeueCall, enqueueCall])⟩

/-- The reader has marked the oversized object as read, times out before the writer sends it, and its next
call returns the object behind it. -/
theorem timeout_recv_loses : ∃ t, oversizedZero.timedRun timedStart
        ([.process (.enqueue 0)] ++ List.replicate 7 (.process .writer) ++ dequeueCall 4 ++
          [.timeoutRecv 0, .process .writer, .sendRemote] ++ enqueueCall 5 8 ++ dequeueCall 6) =
          some t ∧
      t.accepted ++ t.inProgress = [0, 5] ∧ t.shm.returned 0 = [5] :=
  ⟨_, rfl, rfl, rfl⟩

end MessageQueue

end Mimir
