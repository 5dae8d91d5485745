import Mathlib.Data.List.Basic
import Mathlib.Logic.Function.Basic
import Mathlib.Logic.Relation

/-! The shared-memory broadcast queue: one writer, several readers, and the single-byte accesses of both. -/

namespace Mimir

/-- A `MessageQueue` with its local readers; `dumps` and `loads` are those of pickle. -/
structure MessageQueue (O : Type) where
  nReader : Nat
  maxChunks : Nat
  maxChunkBytes : Nat
  dumps : O → List Nat
  loads : List Nat → Option O
  chunksPositive : 0 < maxChunks
  /-- A pickle ends itself: what stands behind it is not read. -/
  roundTrip : ∀ o rest, loads (dumps o ++ rest) = some o

/-- Where the writer is in `enqueue` and `acquire_write`. -/
inductive WriterPc where
  | idle
  /-- About to read the flag of reader `next`, or the written flag after the last of them. -/
  | counting (next sum : Nat)
  /-- About to mark the chunk as not written. -/
  | marking
  /-- About to write byte `pos` of the message. -/
  | writing (pos : Nat)
  /-- About to reset the flag of reader `next`, or to set the written flag after the last of them. -/
  | resetting (next : Nat)
  /-- About to send an oversized message through the socket. -/
  | sending
  deriving DecidableEq

/-- Where a reader is in `dequeue` and `acquire_read`. -/
inductive ReaderPc (O : Type) where
  | idle
  /-- About to read its own flag. -/
  | readFlag
  /-- About to read the written flag. -/
  | readWritten (flag : Bool)
  /-- The test has passed; about to read the overflow byte. -/
  | readOverflow
  /-- About to read the byte behind those already read. -/
  | reading (bytes : List Nat)
  /-- About to set its flag; an oversized message has no object yet. -/
  | setting (result : Option O)
  /-- Waiting for the socket. -/
  | receiving
  /-- Unpickling has raised. -/
  | broken

/-- Whether a reader waits for its socket. -/
def ReaderPc.isReceiving {O : Type} : ReaderPc O → Bool
  | .receiving => true
  | _ => false

/-- Shared memory, sockets and the local state of all processes. -/
structure Broadcast (O : Type) where
  written : Nat → Bool
  /-- The flag of a reader in the metadata of a chunk. -/
  flags : Nat → Nat → Bool
  data : Nat → Nat → Nat
  /-- The messages on their way to each reader. -/
  sockets : Nat → List (List Nat)
  writer : WriterPc
  writerIdx : Nat
  /-- The object of the `enqueue` call in progress. -/
  current : Option O
  /-- The objects whose chunk has been marked as written, oldest first. -/
  published : List O
  reader : Nat → ReaderPc O
  readerIdx : Nat → Nat
  /-- What the `dequeue` calls of each reader have returned, oldest first. -/
  returned : Nat → List O

/-- Who takes the next step; a call starts with its own step. -/
inductive BroadcastAction (O : Type) where
  | enqueue (obj : O)
  | writer
  | dequeue (i : Nat)
  | reader (i : Nat)

namespace MessageQueue

variable {O : Type} (q : MessageQueue O) (s : Broadcast O)

/-- A message that does not fit beside the overflow byte. -/
def overflows (obj : O) : Bool := q.maxChunkBytes ≤ (q.dumps obj).length

/-- The bytes `enqueue` writes into the chunk. -/
def payload (obj : O) : List Nat := if q.overflows obj then [1] else 0 :: q.dumps obj

/-- Empty chunks and idle processes. -/
def start : Broadcast O where
  written _ := false
  flags _ _ := false
  data _ _ := 0
  sockets _ := []
  writer := .idle
  writerIdx := 0
  current := none
  published := []
  reader _ := .idle
  readerIdx _ := 0
  returned _ := []

/-- The test of `acquire_write`, after all flags of the chunk were read. -/
def testWrite (sum : Nat) : Broadcast O :=
  if s.written s.writerIdx ∧ sum ≠ q.nReader then { s with writer := .counting 0 0 }
  else { s with writer := .marking }

/-- The write of one byte; an index outside the chunk raises, and the call ends. -/
def writeByte (pos byte : Nat) : Broadcast O :=
  if pos < q.maxChunkBytes then
    { s with
      data := Function.update s.data s.writerIdx (Function.update (s.data s.writerIdx) pos byte)
      writer := .writing (pos + 1) }
  else { s with writer := .idle, current := none }

/-- Marking the chunk as written, and the step to the next chunk. -/
def publish (obj : O) : Broadcast O :=
  let s := { s with
    written := Function.update s.written s.writerIdx true
    writerIdx := (s.writerIdx + 1) % q.maxChunks
    published := s.published ++ [obj] }
  -- Only then is an oversized message sent.
  if q.overflows obj then { s with writer := .sending } else { s with writer := .idle, current := none }

/-- The next step of the writer within a call. -/
def writerStep (obj : O) : Option (Broadcast O) :=
  match s.writer with
  | .idle => none
  | .counting next sum =>
    if next < q.nReader then
      some { s with
        writer := .counting (next + 1) (if s.flags s.writerIdx next then sum + 1 else sum) }
    else some (q.testWrite s sum)
  | .marking =>
    some { s with written := Function.update s.written s.writerIdx false, writer := .writing 0 }
  | .writing pos =>
    match (q.payload obj)[pos]? with
    | some byte => some (q.writeByte s pos byte)
    | none => some { s with writer := .resetting 0 }
  | .resetting next =>
    if next < q.nReader then
      some { s with
        flags := Function.update s.flags s.writerIdx
          (Function.update (s.flags s.writerIdx) next false)
        writer := .resetting (next + 1) }
    else some (q.publish s obj)
  | .sending =>
    some { s with
      sockets := fun i => s.sockets i ++ [q.dumps obj]
      writer := .idle
      current := none }

/-- A reader at another place of its call. -/
def goTo (i : Nat) (pc : ReaderPc O) : Broadcast O :=
  { s with reader := Function.update s.reader i pc }

/-- A `dequeue` call returns. -/
def give (i : Nat) (obj : O) : Broadcast O :=
  { goTo s i .idle with returned := Function.update s.returned i (s.returned i ++ [obj]) }

/-- Setting the flag, and the step to the next chunk. -/
def markRead (i : Nat) : Broadcast O :=
  { s with
    flags := Function.update s.flags (s.readerIdx i)
      (Function.update (s.flags (s.readerIdx i)) i true)
    readerIdx := Function.update s.readerIdx i ((s.readerIdx i + 1) % q.maxChunks) }

/-- The next step of a reader within a call; `none` while its socket is empty. -/
def readerStep (i : Nat) : Option (Broadcast O) :=
  match s.reader i with
  | .idle => none
  | .readFlag => some (goTo s i (.readWritten (s.flags (s.readerIdx i) i)))
  | .readWritten flag =>
    if ¬ s.written (s.readerIdx i) ∨ flag then some (goTo s i .readFlag)
    else some (goTo s i .readOverflow)
  | .readOverflow =>
    if s.data (s.readerIdx i) 0 = 1 then some (goTo s i (.setting none))
    else some (goTo s i (.reading []))
  | .reading bytes =>
    -- All bytes behind the overflow byte are handed to pickle.
    if bytes.length + 1 < q.maxChunkBytes then
      some (goTo s i (.reading (bytes ++ [s.data (s.readerIdx i) (bytes.length + 1)])))
    else
      match q.loads bytes with
      | some obj => some (goTo s i (.setting (some obj)))
      | none => some (goTo s i .broken)
  | .setting result =>
    let s := q.markRead s i
    match result with
    | some obj => some (give s i obj)
    | none => some (goTo s i .receiving)
  | .receiving =>
    match s.sockets i with
    | [] => none
    | message :: rest =>
      let s := { s with sockets := Function.update s.sockets i rest }
      match q.loads message with
      | some obj => some (give s i obj)
      | none => some (goTo s i .broken)
  | .broken => none

/-- One step of one process. -/
def step : BroadcastAction O → Option (Broadcast O)
  | .enqueue obj =>
    if s.writer = .idle then some { s with writer := .counting 0 0, current := some obj } else none
  | .writer =>
    match s.current with
    | none => none
    | some obj => q.writerStep s obj
  | .dequeue i =>
    if i < q.nReader then
      match s.reader i with
      | .idle => some (goTo s i .readFlag)
      | _ => none
    else none
  | .reader i => if i < q.nReader then q.readerStep s i else none

/-- The steps of one interleaving, one after the other. -/
def run (s : Broadcast O) : List (BroadcastAction O) → Option (Broadcast O)
  | [] => some s
  | action :: rest =>
    match q.step s action with
    | some s' => run s' rest
    | none => none

/-- The states of all interleavings. -/
def Reachable : Broadcast O → Prop :=
  Relation.ReflTransGen (fun s s' => ∃ action, q.step s action = some s') start

end MessageQueue

namespace Broadcast

variable {O : Type} (s : Broadcast O)

/-- The objects of the `enqueue` calls so far; a call that raised is not one of them. -/
def enqueued : List O :=
  match s.writer with
  | .sending => s.published
  | _ => s.published ++ s.current.toList

/-- The messages a reader has marked as read; an oversized one may still be on the socket. -/
def consumed (i : Nat) : Nat :=
  (s.returned i).length + if (s.reader i).isReceiving then 1 else 0

/-- A reader is between its test in `acquire_read` and setting its flag. -/
def Inside (i : Nat) : Prop :=
  match s.reader i with
  | .readOverflow | .reading _ | .setting _ => True
  | _ => False

end Broadcast

end Mimir
