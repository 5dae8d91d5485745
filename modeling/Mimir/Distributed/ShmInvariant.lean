import Mathlib.Data.Int.ModEq
import Mimir.Distributed.ShmBroadcast

/-! What every interleaving of the broadcast queue keeps, and that its readers lose nothing. -/

namespace Mimir

open List Function

namespace WriterPc

/-- The writer has found its chunk free. -/
def committed : WriterPc → Prop
  | marking | writing _ | resetting _ => True
  | _ => False

/-- The writer has taken its chunk from the readers. -/
def inside : WriterPc → Prop
  | writing _ | resetting _ => True
  | _ => False

theorem inside.committed {pc : WriterPc} (inside : pc.inside) : pc.committed := by
  cases pc <;> trivial

end WriterPc

namespace MessageQueue

variable {O : Type} (q : MessageQueue O)

/-- Messages closer than a round of the ring are in different chunks. -/
theorem mod_ne {a b m : Nat} (below : a < b) (near : b < a + m) : a % m ≠ b % m := by
  intro same
  obtain ⟨k, split⟩ : m ∣ b - a := (Nat.modEq_iff_dvd' (Nat.le_of_lt below)).mp same
  rcases Nat.eq_zero_or_pos k with zero | positive
  · simp only [zero, Nat.mul_zero] at split
    omega
  · have := Nat.le_mul_of_pos_right m positive
    omega

/-- A chunk holds a message. -/
def Holds (obj : O) (bytes : Nat → Nat) : Prop :=
  ∀ p b, (q.payload obj)[p]? = some b → bytes p = b

/-- Message `j` is in its chunk, flagged by exactly the readers that have read it. -/
def Slot (s : Broadcast O) (j : Nat) : Prop :=
  s.written (j % q.maxChunks) = true ∧
    (∃ obj, s.published[j]? = some obj ∧ q.Holds obj (s.data (j % q.maxChunks))) ∧
    ∀ i < q.nReader, s.flags (j % q.maxChunks) i = decide (j < s.consumed i)

/-- How many of the published messages have been sent, where they had to be. -/
def sent (s : Broadcast O) : Nat :=
  match s.writer with
  | .sending => s.published.length - 1
  | _ => s.published.length

/-- What holds at each place of the writer's call. -/
def WriterGood (s : Broadcast O) : Prop :=
  match s.writer with
  | .idle => s.current = none
  | .counting next sum => (∃ obj, s.current = some obj) ∧ next ≤ q.nReader ∧ sum ≤ next ∧
      (sum = next → ∀ i < next, s.flags s.writerIdx i = true)
  | .marking => ∃ obj, s.current = some obj
  | .writing pos => (0 < pos → 0 < q.maxChunkBytes) ∧ ∃ obj, s.current = some obj ∧
      ∀ p b, p < pos → (q.payload obj)[p]? = some b → s.data s.writerIdx p = b
  | .resetting next => 0 < q.maxChunkBytes ∧ ∃ obj, s.current = some obj ∧
      q.Holds obj (s.data s.writerIdx) ∧ ∀ i < next, s.flags s.writerIdx i = false
  | .sending => ∃ obj front, s.current = some obj ∧ s.published = front ++ [obj] ∧
      q.overflows obj = true

/-- What holds at each place of a reader's call. -/
def ReaderGood (s : Broadcast O) (i : Nat) : ReaderPc O → Prop
  | .readWritten false => s.flags (s.readerIdx i) i = false
  | .readOverflow => s.consumed i < s.published.length
  | .reading bytes => ∃ obj, s.published[s.consumed i]? = some obj ∧ q.overflows obj = false ∧
      ∀ p b, bytes[p]? = some b → b = s.data (s.readerIdx i) (p + 1)
  | .setting (some obj) => s.published[s.consumed i]? = some obj ∧ q.overflows obj = false
  | .setting none => ∃ obj, s.published[s.consumed i]? = some obj ∧ q.overflows obj = true
  | .receiving => ∃ obj, s.published[(s.returned i).length]? = some obj ∧ q.overflows obj = true
  | .broken => False
  | _ => True

/-- The oversized messages that were sent and that a reader has not returned. -/
def onSocket (s : Broadcast O) (i : Nat) : List (List Nat) :=
  (((s.published.take (sent s)).drop (s.returned i).length).filter q.overflows).map q.dumps

/-- The invariant of all interleavings. -/
structure Inv (s : Broadcast O) : Prop where
  writerIdx : s.writerIdx = s.published.length % q.maxChunks
  readerIdx : ∀ i < q.nReader, s.readerIdx i = s.consumed i % q.maxChunks
  behind : ∀ i < q.nReader, s.consumed i ≤ s.published.length
  near : ∀ i < q.nReader, s.published.length ≤ s.consumed i + q.maxChunks
  /-- A writer that has found its chunk free has waited for every reader. -/
  free : s.writer.committed → ∀ i < q.nReader, s.published.length < s.consumed i + q.maxChunks
  slots : ∀ j < s.published.length, s.published.length ≤ j + q.maxChunks →
    ¬ (s.writer.inside ∧ j + q.maxChunks = s.published.length) → q.Slot s j
  unused : ∀ c < q.maxChunks, s.published.length ≤ c →
    s.written c = false ∧ ∀ i < q.nReader, s.flags c i = false
  closed : s.writer.inside → s.written s.writerIdx = false
  roomless : q.maxChunkBytes = 0 → s.published = []
  writer : q.WriterGood s
  readers : ∀ i < q.nReader, q.ReaderGood s i (s.reader i)
  returned : ∀ i < q.nReader, s.returned i = s.published.take (s.returned i).length
  taken : ∀ i < q.nReader, (s.returned i).length ≤ sent s
  sockets : ∀ i < q.nReader, s.sockets i = q.onSocket s i

variable {q} {s : Broadcast O}

/-- The invariant holds before the first call. -/
theorem Inv.start : q.Inv (start : Broadcast O) where
  writerIdx := by simp [MessageQueue.start]
  readerIdx := by simp [MessageQueue.start, Broadcast.consumed, ReaderPc.isReceiving]
  behind := by simp [MessageQueue.start, Broadcast.consumed, ReaderPc.isReceiving]
  near := by simp [MessageQueue.start]
  free := by simp [MessageQueue.start, WriterPc.committed]
  slots := by simp [MessageQueue.start]
  unused := by simp [MessageQueue.start]
  closed := by simp [MessageQueue.start]
  roomless := by simp [MessageQueue.start]
  writer := rfl
  readers := by simp [MessageQueue.start, ReaderGood]
  returned := by simp [MessageQueue.start]
  taken := by simp [MessageQueue.start]
  sockets := by simp [MessageQueue.start, onSocket]

variable {i j next sum pos : Nat} {s' : Broadcast O} {obj : O} {pc : ReaderPc O}

section

variable (inv : q.Inv s)

include inv

/-- A reader's own chunk is not the writer's, once the writer is inside and the reader has a message. -/
theorem Inv.apart (inside : s.writer.committed) (small : i < q.nReader)
    (has : s.consumed i < s.published.length) : s.readerIdx i ≠ s.writerIdx := by
  rw [inv.readerIdx i small, inv.writerIdx]
  exact mod_ne has (inv.free inside i small)

/-- A message within a round of the writer's, other than the one it replaces, is in another chunk. -/
theorem Inv.slot_apart (old : j < s.published.length)
    (near : s.published.length < j + q.maxChunks) : j % q.maxChunks ≠ s.writerIdx := by
  rw [inv.writerIdx]
  exact mod_ne old near

omit inv in
/-- A reader's place stays good when its own view does. -/
theorem ReaderGood.frame (good : q.ReaderGood s i pc) (consumed : s'.consumed i = s.consumed i)
    (readerIdx : s'.readerIdx i = s.readerIdx i) (returned : s'.returned i = s.returned i)
    (flag : s.flags (s.readerIdx i) i = false → s'.flags (s.readerIdx i) i = false)
    (published : ∀ (j : Nat) (o : O), s.published[j]? = some o → s'.published[j]? = some o)
    (data : s.consumed i < s.published.length →
      ∀ p, s'.data (s.readerIdx i) p = s.data (s.readerIdx i) p) :
    q.ReaderGood s' i pc := by
  unfold ReaderGood at good ⊢
  rw [readerIdx, returned, consumed]
  cases pc with
  | idle => trivial
  | readFlag => trivial
  | readWritten read =>
    cases read with
    | false => exact flag good
    | true => trivial
  | readOverflow =>
    have found := published _ _ (getElem?_eq_getElem good)
    exact (List.getElem?_eq_some_iff.mp found).1
  | reading =>
    obtain ⟨obj, found, fits, copied⟩ := good
    refine ⟨obj, published _ _ found, fits, fun p b read => ?_⟩
    rw [data (List.getElem?_eq_some_iff.mp found).1]
    exact copied p b read
  | setting result =>
    cases result with
    | some => exact ⟨published _ _ good.1, good.2⟩
    | none =>
      obtain ⟨obj, found, large⟩ := good
      exact ⟨obj, published _ _ found, large⟩
  | receiving =>
    obtain ⟨obj, found, large⟩ := good
    exact ⟨obj, published _ _ found, large⟩
  | broken => exact good

omit inv in
/-- A writer that is not sending has sent all it had to. -/
theorem sent_eq (quiet : s.writer ≠ .sending) : sent s = s.published.length := by
  unfold sent
  split
  · next sending => exact absurd sending quiet
  · rfl

/-- What stands in the writer's chunk, while the writer is not inside: the message one round back, or
nothing yet. -/
theorem Inv.writer_chunk (outside : ¬ s.writer.inside) :
    (s.published.length < q.maxChunks ∧ s.written s.writerIdx = false) ∨
      (q.maxChunks ≤ s.published.length ∧ s.written s.writerIdx = true ∧
        ∀ i < q.nReader, s.flags s.writerIdx i =
          decide (s.published.length < s.consumed i + q.maxChunks)) := by
  rcases Nat.lt_or_ge s.published.length q.maxChunks with few | many
  · left
    rw [inv.writerIdx, Nat.mod_eq_of_lt few]
    exact ⟨few, (inv.unused _ few le_rfl).1⟩
  · right
    have positive := q.chunksPositive
    obtain ⟨written, -, flags⟩ := inv.slots (s.published.length - q.maxChunks) (by omega) (by omega)
      fun ⟨inside, _⟩ => outside inside
    rw [← Nat.mod_eq_sub_mod many, ← inv.writerIdx] at written flags
    refine ⟨many, written, fun i small => ?_⟩
    rw [flags i small]
    exact decide_eq_decide.mpr (by omega)

/-- A reader that has taken all messages finds none in its chunk. -/
theorem Inv.no_message (small : i < q.nReader) (all : s.consumed i = s.published.length) :
    s.written (s.readerIdx i) = false ∨ s.flags (s.readerIdx i) i = true := by
  rw [inv.readerIdx i small, all, ← inv.writerIdx]
  by_cases inside : s.writer.inside
  · exact .inl (inv.closed inside)
  · rcases inv.writer_chunk inside with ⟨-, unwritten⟩ | ⟨-, -, flags⟩
    · exact .inl unwritten
    · right
      rw [flags i small, all]
      simp [q.chunksPositive]

/-- The writer goes from one place outside its chunk to another. -/
theorem Inv.moveWriter (quiet : s.writer ≠ .sending) (outside : ¬ s.writer.inside)
    {pc : WriterPc} (current : Option O) (quiet' : pc ≠ .sending) (outside' : ¬ pc.inside)
    (free : pc.committed → ∀ i < q.nReader, s.published.length < s.consumed i + q.maxChunks)
    (good : q.WriterGood { s with writer := pc, current }) :
    q.Inv { s with writer := pc, current } := by
  have sentAll : sent { s with writer := pc, current } = sent s := by
    rw [sent_eq quiet, sent_eq (s := { s with writer := pc, current }) quiet']
  refine { inv with
    free := free, slots := ?_, closed := ?_, writer := good, taken := ?_, sockets := ?_ }
  · intro j old near _
    exact inv.slots j old near fun both => outside both.1
  · intro inside
    exact absurd inside outside'
  · intro i small
    rw [sentAll]
    exact inv.taken i small
  · intro i small
    unfold onSocket
    rw [sentAll]
    exact inv.sockets i small

/-- The start of an `enqueue` call. -/
theorem Inv.enqueue (idle : s.writer = .idle) (obj : O) :
    q.Inv { s with writer := .counting 0 0, current := some obj } := by
  apply inv.moveWriter (by simp [idle]) (by simp [idle, WriterPc.inside]) (some obj) (by simp)
    (by simp [WriterPc.inside]) (by simp [WriterPc.committed])
  exact ⟨⟨obj, rfl⟩, Nat.zero_le _, Nat.le_refl _, by simp⟩

/-- Reading the flag of one more reader. -/
theorem Inv.countFlag (here : s.writer = .counting next sum) (more : next < q.nReader) :
    q.Inv { s with
      writer := .counting (next + 1) (if s.flags s.writerIdx next then sum + 1 else sum) } := by
  have good := inv.writer
  simp only [WriterGood, here] at good
  obtain ⟨call, -, bound, seen⟩ := good
  apply inv.moveWriter (by simp [here]) (by simp [here, WriterPc.inside]) s.current (by simp)
    (by simp [WriterPc.inside]) (by simp [WriterPc.committed])
  refine ⟨call, more, by split <;> omega, fun full i small => ?_⟩
  -- A full count so far means that each flag was set when it was read, and flags stay set.
  split at full
  · next set =>
    by_cases last : i = next
    · rw [last]; exact set
    · exact seen (by omega) i (by omega)
  · omega

/-- A chunk that the writer finds free was read by all readers, or never written. -/
theorem Inv.found_free (here : s.writer = .counting q.nReader sum)
    (unblocked : ¬ (s.written s.writerIdx = true ∧ sum ≠ q.nReader))
    (small : i < q.nReader) : s.published.length < s.consumed i + q.maxChunks := by
  have good := inv.writer
  simp only [WriterGood, here] at good
  obtain ⟨-, -, -, seen⟩ := good
  rcases inv.writer_chunk (by simp [here, WriterPc.inside]) with ⟨early, -⟩ | ⟨-, written, flags⟩
  · omega
  · have full : sum = q.nReader := by
      by_contra short
      exact unblocked ⟨written, short⟩
    have set := seen full i small
    rwa [flags i small, decide_eq_true_eq] at set

/-- The writer's test. -/
theorem Inv.testWrite (here : s.writer = .counting q.nReader sum) : q.Inv (q.testWrite s sum) := by
  have good := inv.writer
  simp only [WriterGood, here] at good
  obtain ⟨call, -⟩ := good
  unfold MessageQueue.testWrite
  split
  · apply inv.moveWriter (by simp [here]) (by simp [here, WriterPc.inside]) s.current (by simp)
      (by simp [WriterPc.inside]) (by simp [WriterPc.committed])
    exact ⟨call, Nat.zero_le _, Nat.le_refl _, by simp⟩
  · next unblocked =>
    apply inv.moveWriter (by simp [here]) (by simp [here, WriterPc.inside]) s.current (by simp)
      (by simp [WriterPc.inside])
    · intro _ i small
      exact inv.found_free here unblocked small
    · exact call

/-- The state after the writer has worked in its chunk. -/
def inChunk (s : Broadcast O) (flags : Nat → Bool) (bytes : Nat → Nat) (pc : WriterPc) : Broadcast O :=
  { s with
    written := Function.update s.written s.writerIdx false
    flags := Function.update s.flags s.writerIdx flags
    data := Function.update s.data s.writerIdx bytes
    writer := pc }

/-- A chunk that is free for the writer is no one else's: what it does there keeps the invariant. -/
theorem Inv.inChunk (committed : s.writer.committed) {flags : Nat → Bool}
    (lowered : ∀ i, s.flags s.writerIdx i = false → flags i = false) (bytes : Nat → Nat) {pc : WriterPc}
    (inside : pc.inside) (good : q.WriterGood (inChunk s flags bytes pc)) :
    q.Inv (inChunk s flags bytes pc) := by
  have sentAll : sent (MessageQueue.inChunk s flags bytes pc) = sent s := by
    rw [sent_eq (s := s) fun same => by rw [same] at committed; exact committed, sent_eq]
    · rfl
    · show pc ≠ .sending
      rintro rfl
      exact inside
  have clear : ∀ c i, s.flags c i = false → Function.update s.flags s.writerIdx flags c i = false := by
    intro c i unset
    by_cases same : c = s.writerIdx
    · subst same
      simpa using lowered i unset
    · simpa [same] using unset
  refine { inv with
    free := fun _ => inv.free committed, slots := ?_, unused := ?_, closed := ?_, writer := good,
    readers := ?_, taken := ?_, sockets := ?_ }
  · intro j old near kept
    have apart : j % q.maxChunks ≠ s.writerIdx :=
      inv.slot_apart old (Nat.lt_of_le_of_ne near fun same => kept ⟨inside, same.symm⟩)
    obtain ⟨written, holds, flags⟩ := inv.slots j old near fun both => kept ⟨inside, both.2⟩
    simp only [Slot, MessageQueue.inChunk, update_of_ne apart]
    exact ⟨written, holds, flags⟩
  · intro c small old
    obtain ⟨unwritten, flags⟩ := inv.unused c small old
    refine ⟨?_, fun i smallI => clear c i (flags i smallI)⟩
    by_cases same : c = s.writerIdx
    · simp [MessageQueue.inChunk, same]
    · simpa [MessageQueue.inChunk, same] using unwritten
  · intro _
    simp [MessageQueue.inChunk]
  · intro i small
    -- Only a reader with a message depends on the data, and its chunk is another one.
    refine ReaderGood.frame (inv.readers i small) rfl rfl rfl (clear _ i) (fun _ _ found => found)
      fun has p => ?_
    simp [MessageQueue.inChunk, inv.apart committed small has]
  · intro i small
    rw [sentAll]
    exact inv.taken i small
  · intro i small
    unfold onSocket
    rw [sentAll]
    exact inv.sockets i small

theorem Inv.unwritten (inside : s.writer.inside) :
    Function.update s.written s.writerIdx false = s.written :=
  update_eq_self_iff.mpr (inv.closed inside).symm

/-- Taking the chunk from the readers. -/
theorem Inv.mark (here : s.writer = .marking) :
    q.Inv { s with written := Function.update s.written s.writerIdx false, writer := .writing 0 } := by
  have good := inv.writer
  simp only [WriterGood, here] at good
  obtain ⟨obj, call⟩ := good
  simpa [MessageQueue.inChunk] using inv.inChunk (by simp [here, WriterPc.committed]) (fun _ => id)
    (s.data s.writerIdx) (show (WriterPc.writing 0).inside from trivial) ⟨by simp, obj, call, by simp⟩

/-- Writing one byte of the message: no reader is in the chunk. -/
theorem Inv.writeByte {byte : Nat} (here : s.writer = .writing pos)
    (call : s.current = some obj) (next : (q.payload obj)[pos]? = some byte) :
    q.Inv (q.writeByte s pos byte) := by
  have good := inv.writer
  simp only [WriterGood, here, call, Option.some.injEq, exists_eq_left'] at good
  obtain ⟨-, before⟩ := good
  have committed : s.writer.committed := by simp [here, WriterPc.committed]
  unfold MessageQueue.writeByte
  split
  · next fits =>
    have worked := inv.inChunk committed (fun _ => id) (Function.update (s.data s.writerIdx) pos byte)
      (show (WriterPc.writing (pos + 1)).inside from trivial)
      ⟨fun _ => by omega, obj, call, fun p b below found => ?_⟩
    · simpa [MessageQueue.inChunk, inv.unwritten (by simp [here, WriterPc.inside])] using worked
    · by_cases last : p = pos
      · subst last
        rw [next, Option.some.injEq] at found
        simpa [MessageQueue.inChunk] using found
      · simpa [MessageQueue.inChunk, last] using before p b (by omega) found
  · next short =>
    -- Only a chunk without any byte is too short, and then nothing was ever published.
    have none : s.published = [] := by
      apply inv.roomless
      have inside := (List.getElem?_eq_some_iff.mp next).1
      unfold payload at inside
      split at inside
      · simp at inside
        omega
      · next unfit =>
        simp only [overflows, decide_eq_true_eq] at unfit
        simp only [length_cons] at inside
        omega
    refine { inv with
      free := ?_, slots := ?_, closed := ?_, writer := rfl, taken := ?_, sockets := ?_ }
    · intro none
      exact none.elim
    · intro j old
      simp [none] at old
    · intro none
      exact none.elim
    · intro i small
      simpa [sent, here] using inv.taken i small
    · intro i small
      simpa [onSocket, sent, here] using inv.sockets i small

/-- The message is complete. -/
theorem Inv.finishWriting (here : s.writer = .writing pos)
    (call : s.current = some obj) (last : (q.payload obj)[pos]? = none) :
    q.Inv { s with writer := .resetting 0 } := by
  have good := inv.writer
  simp only [WriterGood, here, call, Option.some.injEq, exists_eq_left'] at good
  obtain ⟨room, before⟩ := good
  have inside : s.writer.inside := by simp [here, WriterPc.inside]
  have past : (q.payload obj).length ≤ pos := List.getElem?_eq_none_iff.mp last
  have nonempty : 0 < (q.payload obj).length := by
    unfold payload
    split <;> simp
  have worked := inv.inChunk (by simp [here, WriterPc.committed]) (fun _ => id) (s.data s.writerIdx)
    (show (WriterPc.resetting 0).inside from trivial)
    ⟨room (by omega), obj, call, fun p b found => ?_, by simp⟩
  · simpa [MessageQueue.inChunk, inv.unwritten inside] using worked
  · have small := (List.getElem?_eq_some_iff.mp found).1
    simpa [MessageQueue.inChunk] using before p b (by omega) found

section

variable (here : s.writer = .resetting next)

include here

/-- Resetting the flag of one reader. -/
theorem Inv.resetFlag : q.Inv { s with
      flags := Function.update s.flags s.writerIdx
        (Function.update (s.flags s.writerIdx) next false)
      writer := .resetting (next + 1) } := by
  have good := inv.writer
  simp only [WriterGood, here] at good
  obtain ⟨room, obj, call, holds, reset⟩ := good
  have lowered : ∀ i, s.flags s.writerIdx i = false →
      Function.update (s.flags s.writerIdx) next false i = false := fun i clear => by
    by_cases mine : i = next <;> simp [mine, clear]
  have worked := inv.inChunk (by simp [here, WriterPc.committed]) lowered (s.data s.writerIdx)
    (show (WriterPc.resetting (next + 1)).inside from trivial)
    ⟨room, obj, call, by simpa [MessageQueue.inChunk] using holds, fun i small => ?_⟩
  · simpa [MessageQueue.inChunk, inv.unwritten (by simp [here, WriterPc.inside])] using worked
  · by_cases mine : i = next
    · simp [MessageQueue.inChunk, mine]
    · simpa [MessageQueue.inChunk] using lowered i (reset i (by omega))

/-- What publishing changes for everyone but the writer's own place. -/
theorem Inv.published_slots (all : ¬ next < q.nReader) (call : s.current = some obj)
    (old : j < s.published.length + 1) (near : s.published.length + 1 ≤ j + q.maxChunks) :
    Function.update s.written s.writerIdx true (j % q.maxChunks) = true ∧
      (∃ o, (s.published ++ [obj])[j]? = some o ∧ q.Holds o (s.data (j % q.maxChunks))) ∧
      ∀ i < q.nReader, s.flags (j % q.maxChunks) i = decide (j < s.consumed i) := by
  have good := inv.writer
  simp only [WriterGood, here, call, Option.some.injEq, exists_eq_left'] at good
  obtain ⟨-, holds, reset⟩ := good
  by_cases new : j = s.published.length
  · -- The new message is in the writer's chunk, unread by everyone.
    subst new
    rw [← inv.writerIdx]
    refine ⟨by simp, ⟨obj, by simp, holds⟩, fun i small => ?_⟩
    rw [reset i (by omega)]
    have := inv.behind i small
    simp only [Bool.false_eq, decide_eq_false_iff_not]
    omega
  · obtain ⟨written, ⟨o, found, content⟩, flags⟩ := inv.slots j (by omega) (by omega) (by omega)
    have apart : j % q.maxChunks ≠ s.writerIdx := inv.slot_apart (by omega) (by omega)
    refine ⟨by simpa [apart] using written, ⟨o, ?_, content⟩, flags⟩
    rw [getElem?_append_left (by omega)]
    exact found

/-- The state after the chunk is marked as written, with the writer at its next place. -/
def publishedAt (q : MessageQueue O) (s : Broadcast O) (obj : O) (pc : WriterPc)
    (current : Option O) : Broadcast O :=
  { s with
    written := Function.update s.written s.writerIdx true
    writerIdx := (s.writerIdx + 1) % q.maxChunks
    published := s.published ++ [obj]
    writer := pc
    current }

/-- Marking the chunk as written keeps all but the writer's place and the sockets. -/
theorem Inv.publishedAt
    (all : ¬ next < q.nReader) (call : s.current = some obj) (pc : WriterPc) (current : Option O)
    (outside : ¬ pc.committed) (good : q.WriterGood (q.publishedAt s obj pc current))
    (sockets : ∀ i < q.nReader, s.sockets i = q.onSocket (q.publishedAt s obj pc current) i)
    (sentMost : s.published.length ≤ sent (q.publishedAt s obj pc current)) :
    q.Inv (q.publishedAt s obj pc current) := by
  have room := inv.writer
  simp only [WriterGood, here] at room
  have free := inv.free (by simp [here, WriterPc.committed])
  have taken : ∀ i < q.nReader, (s.returned i).length ≤ s.published.length := fun i small => by
    simpa [sent, here] using inv.taken i small
  have length : (q.publishedAt s obj pc current).published.length = s.published.length + 1 := by
    simp [MessageQueue.publishedAt]
  exact {
    writerIdx := by
      rw [length, MessageQueue.publishedAt, inv.writerIdx, Nat.mod_add_mod]
    readerIdx := inv.readerIdx
    behind := fun i small => by
      rw [length]
      exact Nat.le_succ_of_le (inv.behind i small)
    near := fun i small => by
      rw [length]
      exact free i small
    free := fun committed => absurd committed outside
    slots := fun j old near _ => by
      rw [length] at old near
      exact inv.published_slots here all call old near
    unused := fun c small old => by
      rw [length] at old
      obtain ⟨unwritten, flags⟩ := inv.unused c small (by omega)
      have apart : c ≠ s.writerIdx := by
        rw [inv.writerIdx, Nat.mod_eq_of_lt (by omega)]
        omega
      exact ⟨by simpa [MessageQueue.publishedAt, apart] using unwritten, flags⟩
    closed := fun inside => absurd inside.committed outside
    roomless := fun zero => by
      have := room.1
      omega
    writer := good
    readers := fun i small => by
      refine ReaderGood.frame (inv.readers i small) rfl rfl rfl id (fun j o found => ?_)
        fun _ _ => rfl
      have inside := (List.getElem?_eq_some_iff.mp found).1
      simpa only [MessageQueue.publishedAt, getElem?_append_left inside] using found
    returned := fun i small => by
      show s.returned i = (s.published ++ [obj]).take (s.returned i).length
      rw [take_append_of_le_length (taken i small)]
      exact inv.returned i small
    taken := fun i small => Nat.le_trans (taken i small) sentMost
    sockets := sockets }

/-- Marking the chunk as written. -/
theorem Inv.publish
    (all : ¬ next < q.nReader) (call : s.current = some obj) : q.Inv (q.publish s obj) := by
  have before : ∀ i < q.nReader, s.sockets i =
      ((s.published.drop (s.returned i).length).filter q.overflows).map q.dumps := fun i small => by
    simpa [onSocket, sent, here] using inv.sockets i small
  unfold MessageQueue.publish
  simp only
  split
  · next large =>
    -- An oversized message counts as sent only later.
    apply inv.publishedAt here all call .sending s.current
    · simp [WriterPc.committed]
    · exact ⟨obj, s.published, call, rfl, large⟩
    · intro i small
      simpa [onSocket, sent, MessageQueue.publishedAt] using before i small
    · simp [sent, MessageQueue.publishedAt]
  · next fits =>
    apply inv.publishedAt here all call .idle none
    · simp [WriterPc.committed]
    · rfl
    · intro i small
      have taken : (s.returned i).length ≤ s.published.length := by
        simpa [sent, here] using inv.taken i small
      simp only [onSocket, sent, MessageQueue.publishedAt, take_length]
      rw [drop_append_of_le_length taken, filter_append]
      simpa [fits] using before i small
    · simp [sent, MessageQueue.publishedAt]

end

/-- Sending an oversized message. -/
theorem Inv.send (here : s.writer = .sending) (call : s.current = some obj) : q.Inv { s with
      sockets := fun i => s.sockets i ++ [q.dumps obj]
      writer := .idle
      current := none } := by
  have good := inv.writer
  simp only [WriterGood, here, call, Option.some.injEq, exists_and_left, exists_eq_left'] at good
  obtain ⟨front, split, large⟩ := good
  have taken : ∀ i < q.nReader, (s.returned i).length ≤ front.length := fun i small => by
    simpa [sent, here, split] using inv.taken i small
  refine { inv with
    free := ?_, slots := ?_, closed := ?_, writer := rfl, taken := ?_, sockets := ?_ }
  · intro none
    exact none.elim
  · intro j old near _
    exact inv.slots j old near (by simp [here, WriterPc.inside])
  · intro none
    exact none.elim
  · intro i small
    have := taken i small
    simp only [sent, split, length_append, length_singleton]
    omega
  · intro i small
    have before := inv.sockets i small
    simp only [onSocket, sent, here, split, length_append, length_singleton,
      Nat.add_sub_cancel, take_left] at before
    simp only [onSocket, sent, take_length]
    rw [before, split, drop_append_of_le_length (taken i small), filter_append, map_append]
    simp [large]

/-- A step of the writer. -/
theorem Inv.writerStep (call : s.current = some obj)
    (stepped : q.writerStep s obj = some s') : q.Inv s' := by
  unfold MessageQueue.writerStep at stepped
  split at stepped
  · cases stepped
  · next next sum here =>
    split at stepped
    · next more =>
      cases stepped
      exact inv.countFlag here more
    · next all =>
      cases stepped
      have good := inv.writer
      simp only [WriterGood, here] at good
      have last : next = q.nReader := by omega
      subst last
      exact inv.testWrite here
  · next here =>
    cases stepped
    exact inv.mark here
  · next pos here =>
    split at stepped
    · next byte found =>
      cases stepped
      exact inv.writeByte here call found
    · next last =>
      cases stepped
      exact inv.finishWriting here call last
  · next next here =>
    split at stepped
    · cases stepped
      exact inv.resetFlag here
    · next all =>
      cases stepped
      exact inv.publish here all call
  · next here =>
    cases stepped
    exact inv.send here call

/-! ### The readers -/

omit inv in
/-- Moving a reader between places that count the same messages keeps all counts. -/
theorem consumed_goTo (same : pc.isReceiving = (s.reader i).isReceiving) :
    (goTo s i pc).consumed = s.consumed := by
  funext k
  unfold Broadcast.consumed goTo
  by_cases mine : k = i
  · subst mine
    simp [same]
  · simp [mine]

/-- A reader goes to another place of its call. -/
theorem Inv.moveReader {old : ReaderPc O} (here : s.reader i = old)
    (same : pc.isReceiving = old.isReceiving) (good : q.ReaderGood s i pc) : q.Inv (goTo s i pc) := by
  have consumed := consumed_goTo (s := s) (i := i) (here ▸ same)
  have keeps : ∀ {k pc'}, q.ReaderGood s k pc' → q.ReaderGood (goTo s i pc) k pc' := fun good =>
    good.frame (congrFun consumed _) rfl rfl id (fun _ _ found => found) fun _ _ => rfl
  refine { inv with
    readerIdx := ?_, behind := ?_, near := ?_, free := ?_, slots := ?_, readers := ?_ }
  · rw [consumed]
    exact inv.readerIdx
  · rw [consumed]
    exact inv.behind
  · rw [consumed]
    exact inv.near
  · rw [consumed]
    exact inv.free
  · intro j old near kept
    unfold Slot
    rw [consumed]
    exact inv.slots j old near kept
  · exact (forall_update_iff _ fun k place => k < q.nReader → q.ReaderGood _ k place).mpr
      ⟨fun _ => keeps good, fun k _ small => keeps (inv.readers k small)⟩

section

variable (small : i < q.nReader)

include small

/-- A reader whose test passes has a message to read. -/
theorem Inv.test_passed
    (written : s.written (s.readerIdx i) = true) (unread : s.flags (s.readerIdx i) i = false) :
    s.consumed i < s.published.length := by
  by_contra none
  have polls := inv.no_message small (le_antisymm (inv.behind i small) (not_lt.mp none))
  rw [written, unread] at polls
  simp at polls

/-- The message a reader is about to read is in its chunk. -/
theorem Inv.message (has : s.consumed i < s.published.length) :
    ∃ obj, s.published[s.consumed i]? = some obj ∧ q.Holds obj (s.data (s.readerIdx i)) := by
  have near := inv.near i small
  obtain ⟨-, holds, -⟩ := inv.slots (s.consumed i) has near fun both => by
    have free := inv.free both.1.committed i small
    omega
  rw [inv.readerIdx i small]
  exact holds

omit inv small in
/-- The overflow byte tells oversized messages from others. -/
theorem Holds.overflow {bytes : Nat → Nat} (holds : q.Holds obj bytes) :
    bytes 0 = 1 ↔ q.overflows obj = true := by
  unfold Holds payload at holds
  cases large : q.overflows obj with
  | true =>
    simp only [large, if_true] at holds
    have := holds 0 1 rfl
    simp [this]
  | false =>
    simp only [large, Bool.false_eq_true, if_false] at holds
    have := holds 0 0 rfl
    simp [this]

omit inv small in
/-- The bytes behind the overflow byte start with the pickled message. -/
theorem Holds.loads {data : Nat → Nat} {bytes : List Nat} (holds : q.Holds obj data)
    (fits : q.overflows obj = false) (copied : ∀ p b, bytes[p]? = some b → b = data (p + 1))
    (all : ¬ bytes.length + 1 < q.maxChunkBytes) : q.loads bytes = some obj := by
  have short : (q.dumps obj).length < q.maxChunkBytes := by
    simpa [overflows] using fits
  have start : bytes.take (q.dumps obj).length = q.dumps obj := by
    apply ext_getElem?
    intro p
    by_cases small : p < (q.dumps obj).length
    · have inside : p < bytes.length := by omega
      rw [getElem?_take, if_pos small, getElem?_eq_getElem inside, getElem?_eq_getElem small]
      have here := copied p _ (getElem?_eq_getElem inside)
      have there := holds (p + 1) ((q.dumps obj)[p]) (by
        simp only [payload, fits, Bool.false_eq_true, if_false, getElem?_cons_succ]
        exact getElem?_eq_getElem small)
      rw [here, there]
    · rw [List.getElem?_eq_none_iff.mpr (by rw [length_take]; omega),
        List.getElem?_eq_none_iff.mpr (by omega)]
  have split := take_append_drop (q.dumps obj).length bytes
  rw [start] at split
  rw [← split]
  exact q.roundTrip obj _

/-- The state after a reader has set its flag, with its next place and what it has returned. -/
def markedRead (q : MessageQueue O) (s : Broadcast O) (i : Nat) (pc : ReaderPc O) (list : List O) :
    Broadcast O :=
  { q.markRead s i with
    reader := Function.update s.reader i pc
    returned := Function.update s.returned i list }

omit inv small in
/-- A flag that is set stays set, and only the reader's own flag is set. -/
theorem markRead_flags (s : Broadcast O) (i c k : Nat) :
    (q.markRead s i).flags c k = if c = s.readerIdx i ∧ k = i then true else s.flags c k := by
  unfold markRead
  by_cases chunk : c = s.readerIdx i
  · subst chunk
    by_cases mine : k = i <;> simp [mine]
  · simp [chunk]

/-- The writer's place after a reader has set its flag. -/
theorem Inv.marked_writer (has : s.consumed i < s.published.length) {list : List O} :
    q.WriterGood (q.markedRead s i pc list) := by
  have good := inv.writer
  cases place : s.writer with
  | counting =>
    simp only [WriterGood, markedRead, markRead, place] at good ⊢
    obtain ⟨call, within, bound, seen⟩ := good
    refine ⟨call, within, bound, fun full k below => (markRead_flags (q := q) s i _ k).trans ?_⟩
    split
    · rfl
    · exact seen full k below
  | resetting =>
    simp only [WriterGood, markedRead, markRead, place] at good ⊢
    obtain ⟨room, obj, call, holds, reset⟩ := good
    refine ⟨room, obj, call, holds, fun k below => (markRead_flags (q := q) s i _ k).trans ?_⟩
    have apart := inv.apart (by simp [place, WriterPc.committed]) small has
    rw [if_neg fun both => apart both.1.symm]
    exact reset k below
  | _ => simpa only [WriterGood, markedRead, markRead, place] using good

/-- Setting a flag keeps the invariant, given the reader's new place and what it returned. -/
theorem Inv.mark_read (has : s.consumed i < s.published.length) {list : List O}
    (more : (q.markedRead s i pc list).consumed i = s.consumed i + 1)
    (good : q.ReaderGood (q.markedRead s i pc list) i pc)
    (returned : list = s.published.take list.length) (taken : list.length ≤ sent s)
    (sockets : s.sockets i = q.onSocket (q.markedRead s i pc list) i) :
    q.Inv (q.markedRead s i pc list) := by
  have others : ∀ k, k ≠ i → (q.markedRead s i pc list).consumed k = s.consumed k := fun k other => by
    simp [Broadcast.consumed, markedRead, other]
  have grows : ∀ k, s.consumed k ≤ (q.markedRead s i pc list).consumed k := fun k => by
    by_cases mine : k = i
    · rw [mine, more]
      exact Nat.le_succ _
    · rw [others k mine]
  refine { inv with
    readerIdx := ?_, behind := ?_, near := fun k smallK => (inv.near k smallK).trans
      (Nat.add_le_add_right (grows k) _), free := fun committed k smallK =>
      (inv.free committed k smallK).trans_le (Nat.add_le_add_right (grows k) _), slots := ?_, unused := ?_,
    writer := inv.marked_writer small has, readers := ?_, returned := ?_, taken := ?_, sockets := ?_ }
  · intro k smallK
    show Function.update s.readerIdx i _ k = _
    by_cases mine : k = i
    · subst mine
      rw [update_self, more, inv.readerIdx k small, Nat.mod_add_mod]
    · rw [update_of_ne mine, others k mine]
      exact inv.readerIdx k smallK
  · intro k smallK
    by_cases mine : k = i
    · rw [mine, more]
      exact has
    · rw [others k mine]
      exact inv.behind k smallK
  · intro j old near kept
    obtain ⟨written, holds, flags⟩ := inv.slots j old near kept
    refine ⟨written, holds, fun k smallK => (markRead_flags (q := q) s i _ k).trans ?_⟩
    rw [flags k smallK]
    by_cases mine : k = i
    · subst mine
      rw [more, inv.readerIdx k small]
      by_cases this : j = s.consumed k
      · simp [this]
      · -- Another message of the last round is in another chunk.
        have within := inv.near k small
        have old : j < s.published.length := old
        have near : s.published.length ≤ j + q.maxChunks := near
        have apart : j % q.maxChunks ≠ s.consumed k % q.maxChunks := by
          rcases Nat.lt_or_gt_of_ne this with below | above
          · exact mod_ne below (by omega)
          · exact (mod_ne above (by omega)).symm
        rw [if_neg fun both => apart both.1, decide_eq_decide]
        omega
    · rw [if_neg fun both => mine both.2, others k mine]
  · intro c smallC old
    obtain ⟨unwritten, flags⟩ := inv.unused c smallC old
    refine ⟨unwritten, fun k smallK => (markRead_flags (q := q) s i c k).trans ?_⟩
    have apart : c ≠ s.readerIdx i := by
      have old : s.published.length ≤ c := old
      rw [inv.readerIdx i small, Nat.mod_eq_of_lt (by omega)]
      omega
    rw [if_neg fun both => apart both.1]
    exact flags k smallK
  · refine (forall_update_iff _ fun k place => k < q.nReader → q.ReaderGood _ k place).mpr
      ⟨fun _ => good, fun k mine smallK => (inv.readers k smallK).frame (others k mine)
        (update_of_ne mine ..) (update_of_ne mine ..)
        (fun clear => (markRead_flags (q := q) s i _ k).trans ?_) (fun _ _ found => found) (fun _ _ => rfl)⟩
    rw [if_neg fun both => mine both.2]
    exact clear
  · exact (forall_update_iff _ fun k (list : List O) => k < q.nReader → list = s.published.take list.length).mpr
      ⟨fun _ => returned, fun k _ => inv.returned k⟩
  · exact (forall_update_iff _ fun k (list : List O) => k < q.nReader → list.length ≤ sent s).mpr
      ⟨fun _ => taken, fun k _ => inv.taken k⟩
  · intro k smallK
    by_cases mine : k = i
    · rw [mine]
      exact sockets
    · rw [onSocket, show (q.markedRead s i pc list).returned k = s.returned k from
        update_of_ne mine ..]
      exact inv.sockets k smallK

omit inv small in
/-- A reader that is not receiving has returned what it has read. -/
theorem consumed_eq (here : (s.reader i).isReceiving = false) :
    s.consumed i = (s.returned i).length := by
  simp [Broadcast.consumed, here]

/-- Setting the flag of a message that was in the chunk. -/
theorem Inv.setGiven
    (here : s.reader i = .setting (some obj)) : q.Inv (give (q.markRead s i) i obj) := by
  have good := inv.readers i small
  simp only [ReaderGood, here] at good
  obtain ⟨found, fits⟩ := good
  have read := consumed_eq (s := s) (i := i) (by simp [here, ReaderPc.isReceiving])
  have has := (List.getElem?_eq_some_iff.mp found).1
  rw [read] at found
  have unsent : (s.returned i).length < sent s := by
    -- The message in the chunk is not the one that is still to be sent.
    have behind := inv.taken i small
    rcases Nat.lt_or_eq_of_le behind with below | same
    · exact below
    · unfold sent at same ⊢
      split at same
      · next sending =>
        have last := inv.writer
        simp only [WriterGood, sending] at last
        obtain ⟨o, front, -, split, large⟩ := last
        rw [split, length_append, length_singleton, Nat.add_sub_cancel] at same
        rw [split, same, getElem?_append_right (Nat.le_refl _)] at found
        simp only [Nat.sub_self, getElem?_cons_zero, Option.some.injEq] at found
        rw [found, fits] at large
        cases large
      · omega
  show q.Inv (q.markedRead s i .idle (s.returned i ++ [obj]))
  refine inv.mark_read small has ?_ (by simp [ReaderGood]) ?_ ?_ ?_
  · simp [Broadcast.consumed, markedRead, markRead, here, ReaderPc.isReceiving]
  · rw [length_append, length_singleton, take_add_one, found, ← inv.returned i small]
    rfl
  · rw [length_append, length_singleton]
    exact unsent
  · rw [inv.sockets i small, onSocket, onSocket, show (q.markedRead s i .idle (s.returned i ++ [obj])).returned
      i = s.returned i ++ [obj] from update_self .., length_append, length_singleton]
    show _ = (((s.published.take (sent s)).drop _).filter q.overflows).map q.dumps
    have head : (s.published.take (sent s))[(s.returned i).length]? = some obj := by
      rw [getElem?_take, if_pos unsent]
      exact found
    obtain ⟨inside, value⟩ := List.getElem?_eq_some_iff.mp head
    rw [drop_eq_getElem_cons inside, value, filter_cons_of_neg (by simp [fits])]

/-- Setting the flag of an oversized message. -/
theorem Inv.setOverflow
    (here : s.reader i = .setting none) : q.Inv (goTo (q.markRead s i) i .receiving) := by
  have good := inv.readers i small
  simp only [ReaderGood, here] at good
  obtain ⟨obj, found, large⟩ := good
  have read := consumed_eq (s := s) (i := i) (by simp [here, ReaderPc.isReceiving])
  have has := (List.getElem?_eq_some_iff.mp found).1
  rw [show goTo (q.markRead s i) i .receiving = q.markedRead s i .receiving (s.returned i) by
    simp [goTo, markedRead, markRead]]
  refine inv.mark_read small has ?_ ?_ (inv.returned i small) (inv.taken i small) ?_
  · simp [Broadcast.consumed, markedRead, markRead, here, ReaderPc.isReceiving]
  · rw [read] at found
    simpa [ReaderGood, markedRead, markRead] using ⟨obj, found, large⟩
  · simpa [onSocket, markedRead, markRead, sent] using inv.sockets i small

/-- Receiving an oversized message: the next one on the socket is the one that was flagged. -/
theorem Inv.receive (here : s.reader i = .receiving) {message : List Nat} {rest : List (List Nat)}
    (arrived : s.sockets i = message :: rest) :
    ∃ obj, q.loads message = some obj ∧
      q.Inv (give { s with sockets := Function.update s.sockets i rest } i obj) := by
  have good := inv.readers i small
  simp only [ReaderGood, here] at good
  obtain ⟨obj, found, large⟩ := good
  have before := inv.sockets i small
  rw [arrived, onSocket] at before
  -- The socket is not empty, so the message was sent, and it is the first one not returned.
  have unsent : (s.returned i).length < sent s := by
    by_contra none
    rw [drop_eq_nil_of_le (by rw [length_take]; omega)] at before
    cases before
  have head : (s.published.take (sent s))[(s.returned i).length]? = some obj := by
    rw [getElem?_take, if_pos unsent]
    exact found
  obtain ⟨inside, value⟩ := List.getElem?_eq_some_iff.mp head
  rw [drop_eq_getElem_cons inside, value, filter_cons_of_pos large, map_cons,
    List.cons.injEq] at before
  obtain ⟨rfl, left⟩ := before
  refine ⟨obj, by simpa using q.roundTrip obj [], ?_⟩
  have counts : s.consumed i = (s.returned i).length + 1 := by
    simp [Broadcast.consumed, here, ReaderPc.isReceiving]
  have consumed : (give { s with sockets := Function.update s.sockets i rest } i obj).consumed =
      s.consumed := by
    funext k
    by_cases mine : k = i
    · subst mine
      rw [counts]
      simp [Broadcast.consumed, give, goTo, ReaderPc.isReceiving]
    · simp [Broadcast.consumed, give, goTo, mine]
  refine { inv with
    readerIdx := by rw [consumed]; exact inv.readerIdx, behind := by rw [consumed]; exact inv.behind,
    near := by rw [consumed]; exact inv.near, free := by rw [consumed]; exact inv.free,
    slots := ?_, readers := ?_, returned := ?_, taken := ?_, sockets := ?_ }
  · intro j old near kept
    unfold Slot
    rw [consumed]
    exact inv.slots j old near kept
  · exact (forall_update_iff _ fun k place => k < q.nReader → q.ReaderGood _ k place).mpr
      ⟨fun _ => trivial, fun k mine smallK => (inv.readers k smallK).frame (congrFun consumed k) rfl
        (update_of_ne mine ..) id (fun _ _ => id) fun _ _ => rfl⟩
  · refine (forall_update_iff _ fun k (list : List O) => k < q.nReader → list = s.published.take list.length).mpr
      ⟨fun _ => ?_, fun k _ => inv.returned k⟩
    rw [length_append, length_singleton, take_add_one, found, ← inv.returned i small]
    rfl
  · refine (forall_update_iff _ fun k (list : List O) => k < q.nReader → list.length ≤ sent s).mpr
      ⟨fun _ => ?_, fun k _ => inv.taken k⟩
    rw [length_append, length_singleton]
    exact unsent
  · intro k smallK
    show Function.update s.sockets i rest k = (((s.published.take (sent s)).drop
      (Function.update s.returned i _ k).length).filter q.overflows).map q.dumps
    by_cases mine : k = i
    · rw [mine, update_self, update_self, length_append, length_singleton, left]
    · rw [update_of_ne mine, update_of_ne mine]
      exact inv.sockets k smallK

/-- A step of a reader. -/
theorem Inv.readerStep (stepped : q.readerStep s i = some s') : q.Inv s' := by
  have good := inv.readers i small
  unfold MessageQueue.readerStep at stepped
  split at stepped
  · cases stepped
  · next here =>
    cases stepped
    refine inv.moveReader here rfl ?_
    cases flag : s.flags (s.readerIdx i) i with
    | false => exact flag
    | true => trivial
  · next flag here =>
    rw [here] at good
    split at stepped
    · cases stepped
      exact inv.moveReader here rfl trivial
    · next passed =>
      cases stepped
      simp only [not_or, Bool.not_eq_true, Bool.not_eq_false] at passed
      obtain ⟨written, rfl⟩ := passed
      exact inv.moveReader here rfl (inv.test_passed small written good)
  · next here =>
    rw [here] at good
    obtain ⟨obj, found, holds⟩ := inv.message small good
    split at stepped
    · next large =>
      cases stepped
      exact inv.moveReader here rfl ⟨obj, found, holds.overflow.mp large⟩
    · next fits =>
      cases stepped
      rw [holds.overflow, Bool.not_eq_true] at fits
      exact inv.moveReader here rfl ⟨obj, found, fits, by simp⟩
  · next bytes here =>
    rw [here] at good
    obtain ⟨obj, found, fits, copied⟩ := good
    have has := (List.getElem?_eq_some_iff.mp found).1
    split at stepped
    · next more =>
      cases stepped
      refine inv.moveReader here rfl ⟨obj, found, fits, fun p b read => ?_⟩
      rcases Nat.lt_or_ge p bytes.length with below | above
      · rw [getElem?_append_left below] at read
        exact copied p b read
      · rw [getElem?_append_right above, getElem?_singleton] at read
        split at read
        · have last : p = bytes.length := by omega
          rw [← Option.some.inj read, last]
        · cases read
    · next all =>
      obtain ⟨obj', found', holds⟩ := inv.message small has
      rw [found, Option.some.injEq] at found'
      subst found'
      rw [holds.loads fits copied all] at stepped
      cases stepped
      exact inv.moveReader here rfl ⟨found, fits⟩
  · next result here =>
    cases result with
    | some =>
      cases stepped
      exact inv.setGiven small here
    | none =>
      cases stepped
      exact inv.setOverflow small here
  · next here =>
    split at stepped
    · cases stepped
    · next message rest arrived =>
      obtain ⟨obj, loaded, inv'⟩ := inv.receive small here arrived
      rw [loaded] at stepped
      cases stepped
      exact inv'
  · cases stepped

end

/-- One step of any process. -/
theorem Inv.step {action : BroadcastAction O} (stepped : q.step s action = some s') : q.Inv s' := by
  cases action with
  | enqueue obj =>
    simp only [MessageQueue.step] at stepped
    split at stepped
    · next idle =>
      cases stepped
      exact inv.enqueue idle obj
    · cases stepped
  | writer =>
    simp only [MessageQueue.step] at stepped
    split at stepped
    · cases stepped
    · next obj call => exact inv.writerStep call stepped
  | dequeue =>
    simp only [MessageQueue.step] at stepped
    split at stepped
    · split at stepped
      · next here =>
        cases stepped
        exact inv.moveReader here rfl trivial
      · cases stepped
    · cases stepped
  | reader =>
    simp only [MessageQueue.step] at stepped
    split at stepped
    · next small => exact inv.readerStep small stepped
    · cases stepped

end

/-- The invariant holds in every interleaving. -/
theorem Reachable.inv (reachable : q.Reachable s) : q.Inv s := by
  induction reachable with
  | refl => exact Inv.start
  | tail _ last ih =>
    obtain ⟨action, stepped⟩ := last
    exact ih.step stepped

/-- Where an interleaving leads is reachable. -/
theorem Reachable.run (reachable : q.Reachable s)
    {actions : List (BroadcastAction O)} (ran : q.run s actions = some s') : q.Reachable s' := by
  induction actions generalizing s with
  | nil =>
    cases ran
    exact reachable
  | cons action rest ih =>
    simp only [MessageQueue.run] at ran
    split at ran
    · next next stepped => exact ih (reachable.tail ⟨action, stepped⟩) ran
    · cases ran

/-- The broadcast is FIFO and lossless: each reader has returned a prefix of what was enqueued, no byte of a
chunk is written while a reader is in it, and a chunk is overwritten only after all readers have read its
message. -/
theorem broadcast_fifo (reachable : q.Reachable s) {i : Nat} (small : i < q.nReader) :
    s.returned i <+: s.enqueued ∧
      (∀ pos, s.writer = .writing pos → s.Inside i → s.readerIdx i ≠ s.writerIdx) ∧
      (s.writer.inside → ∀ j, j % q.maxChunks = s.writerIdx → j < s.published.length →
        j < s.consumed i) := by
  have inv := reachable.inv
  refine ⟨?_, fun pos here inside => ?_, fun inside j chunk old => ?_⟩
  · have front : s.returned i <+: s.published := by
      rw [inv.returned i small]
      exact take_prefix _ _
    unfold Broadcast.enqueued
    split
    · exact front
    · exact front.trans (prefix_append _ _)
  · have good := inv.readers i small
    apply inv.apart (by simp [here, WriterPc.committed]) small
    unfold Broadcast.Inside at inside
    cases pc : s.reader i with
    | readOverflow => simpa only [ReaderGood, pc] using good
    | reading =>
      simp only [ReaderGood, pc] at good
      obtain ⟨obj, found, -⟩ := good
      exact (List.getElem?_eq_some_iff.mp found).1
    | setting result =>
      cases result with
      | some =>
        simp only [ReaderGood, pc] at good
        exact (List.getElem?_eq_some_iff.mp good.1).1
      | none =>
        simp only [ReaderGood, pc] at good
        obtain ⟨obj, found, -⟩ := good
        exact (List.getElem?_eq_some_iff.mp found).1
    | idle => simp [pc] at inside
    | readFlag => simp [pc] at inside
    | readWritten => simp [pc] at inside
    | receiving => simp [pc] at inside
    | broken => simp [pc] at inside
  · -- A message in the writer's chunk is at least one round back.
    have free := inv.free inside.committed i small
    by_contra unread
    exact inv.slot_apart old (by omega) chunk

/-- Two readers share one chunk of two bytes, and an object is its own byte. -/
def oneChunk : MessageQueue Nat where
  nReader := 2
  maxChunks := 1
  maxChunkBytes := 2
  dumps o := [o]
  loads := List.head?
  chunksPositive := Nat.one_pos
  roundTrip _ _ := rfl

/-- The first object goes to reader 0, reader 1 enters the chunk, and the writer waits with the second
object. -/
def oneChunkRun : List (BroadcastAction Nat) :=
  [.enqueue 7] ++ List.replicate 10 .writer ++ [.dequeue 0] ++ List.replicate 6 (.reader 0) ++
    [.dequeue 1] ++ List.replicate 2 (.reader 1) ++ [.enqueue 9] ++ List.replicate 3 .writer

/-- One reader has returned the first object while the other is inside the chunk. -/
theorem broadcast_fifo_oneChunk :
    ∃ s, oneChunk.run start oneChunkRun = some s ∧
      s.returned 0 = [7] ∧ s.enqueued = [7, 9] ∧ s.Inside 1 ∧
      s.returned 0 <+: s.enqueued ∧
      (∀ pos, s.writer = .writing pos → s.Inside 0 → s.readerIdx 0 ≠ s.writerIdx) ∧
      (s.writer.inside → ∀ j, j % oneChunk.maxChunks = s.writerIdx → j < s.published.length →
        j < s.consumed 0) :=
  ⟨_, rfl, rfl, rfl, trivial, broadcast_fifo
    (Reachable.run Relation.ReflTransGen.refl (show oneChunk.run start oneChunkRun = _ from rfl))
    (by decide)⟩

section

variable (inv : q.Inv s)

include inv

/-- A reader with a message to take finds it in its chunk. -/
theorem Inv.next_message (small : i < q.nReader) (has : s.consumed i < s.published.length) :
    s.written (s.readerIdx i) = true ∧ s.flags (s.readerIdx i) i = false := by
  have near := inv.near i small
  have apart : ¬ (s.writer.inside ∧ s.consumed i + q.maxChunks = s.published.length) := by
    rintro ⟨inside, round⟩
    have := inv.free inside.committed i small
    omega
  obtain ⟨written, -, flags⟩ := inv.slots _ has near apart
  rw [inv.readerIdx i small]
  exact ⟨written, by simp [flags i small]⟩

/-- An oversized message has reached the socket of a reader that waits for it, unless it is just being sent.
-/
theorem Inv.socket_empty (small : i < q.nReader) (here : s.reader i = .receiving)
    (empty : s.sockets i = []) : s.writer = .sending := by
  by_contra quiet
  have good := inv.readers i small
  simp only [ReaderGood, here] at good
  obtain ⟨obj, found, large⟩ := good
  rw [inv.sockets i small, onSocket, sent_eq quiet, take_length, map_eq_nil_iff,
    filter_eq_nil_iff] at empty
  refine empty obj (mem_of_getElem? (i := 0) ?_) large
  rw [getElem?_drop]
  exact found

end

/-- No process waits for something that has happened already: a reader polls exactly while it has
taken all messages, its socket is empty only while the writer is sending, and the writer polls exactly
while some reader has not taken the message one round back. -/
theorem waits_exactly (reachable : q.Reachable s) :
    (∀ i < q.nReader, (s.written (s.readerIdx i) = false ∨ s.flags (s.readerIdx i) i = true ↔
        s.consumed i = s.published.length) ∧
      (s.reader i = .receiving → s.sockets i = [] → s.writer = .sending)) ∧
    (¬ s.writer.inside →
      (s.written s.writerIdx = true ∧ (∃ i < q.nReader, s.flags s.writerIdx i = false) ↔
        ∃ i < q.nReader, s.published.length = s.consumed i + q.maxChunks)) := by
  have inv := reachable.inv
  refine ⟨fun i small => ⟨⟨fun polls => ?_, inv.no_message small⟩, inv.socket_empty small⟩,
    fun outside => ?_⟩
  · by_contra some
    obtain ⟨written, unread⟩ := inv.next_message small
      (lt_of_le_of_ne (inv.behind i small) some)
    rw [written, unread] at polls
    simp at polls
  · rcases inv.writer_chunk outside with ⟨few, unwritten⟩ | ⟨-, written, flags⟩
    · rw [unwritten]
      refine iff_of_false (by simp) ?_
      rintro ⟨i, small, round⟩
      omega
    · rw [written]
      constructor
      · rintro ⟨-, i, small, unread⟩
        rw [flags i small, decide_eq_false_iff_not] at unread
        exact ⟨i, small, le_antisymm (inv.near i small) (not_lt.mp unread)⟩
      · rintro ⟨i, small, round⟩
        exact ⟨rfl, i, small, by rw [flags i small, round]; simp⟩

/-- The writer of the second object polls for the reader that is inside the chunk. -/
theorem waits_exactly_oneChunk :
    ∃ s, oneChunk.run start oneChunkRun = some s ∧
      s.written s.writerIdx = true ∧ ∃ i < 2, s.flags s.writerIdx i = false :=
  ⟨_, rfl, ((waits_exactly (Reachable.run Relation.ReflTransGen.refl
    (show oneChunk.run start oneChunkRun = _ from rfl))).2 fun inside => inside).mpr
    ⟨1, by decide, rfl⟩⟩

end MessageQueue

end Mimir
