import Mimir.Connector.Multi

/-! The two counters of reported sends: of the connectors in one worker, and of the workers. -/

namespace Mimir

open Python Scheduler List Function

variable {left : RequestId → Nat} {ids finished finished' : List RequestId} {extra : PyDict RequestId Nat}
  {worldSize : Nat} {counts : PyDict RequestId Int}

/-- Adding an id to a set. -/
theorem Scheduler.mem_addId {id id' : RequestId} : id' ∈ addId ids id ↔ id' ∈ ids ∨ id' = id := by
  unfold addId
  split
  · next present =>
    refine ⟨.inl, fun either => either.elim (fun old => old) fun same => ?_⟩
    rw [same]
    exact present
  · simp

/-- A set has no element twice. -/
theorem Scheduler.nodup_addId (nodup : ids.Nodup) (id : RequestId) : (addId ids id).Nodup := by
  unfold addId
  split
  · exact nodup
  · next absent =>
    refine nodup_append.mpr ⟨nodup, by simp, ?_⟩
    intro a member b single same
    rw [mem_singleton.mp single] at same
    exact absent (same ▸ member)

section Countdown

variable {V : Type} {encode : Nat → Option V} {id₀ : RequestId}
  {rest : List RequestId} {counts counts' : PyDict RequestId V}

/-- One report less is to come for a request. -/
def lowered (left : RequestId → Nat) (id₀ : RequestId) : RequestId → Nat :=
  Function.update left id₀ (left id₀ - 1)

/-- What some reports do to the encoded numbers of reports to come, and to the set of ids that are through. -/
structure CountedDown (encode : Nat → Option V) (left : RequestId → Nat) (ids : List RequestId)
    (counts' : PyDict RequestId V) (finished finished' : List RequestId) : Prop where
  counts : ∀ id, counts'.get? id = encode (left id - ids.count id)
  nodup : finished'.Nodup
  members : ∀ id, id ∈ finished' ↔ id ∈ finished ∨ 0 < ids.count id ∧ ids.count id = left id

/-- Without reports nothing changes. -/
theorem CountedDown.nil (counted : ∀ id, counts.get? id = encode (left id)) (nodup : finished.Nodup) :
    CountedDown encode left [] counts finished finished :=
  ⟨by simpa using counted, nodup, by simp⟩

/-- A change of one count. -/
theorem get?_lowered (counted : ∀ id, counts.get? id = encode (left id))
    (here : counts'.get? id₀ = encode (left id₀ - 1))
    (others : ∀ id, id ≠ id₀ → counts'.get? id = counts.get? id) (id : RequestId) :
    counts'.get? id = encode (lowered left id₀ id) := by
  unfold lowered
  by_cases same : id = id₀
  · rw [same, update_self, here]
  · rw [update_of_ne same, others id same, counted]

/-- The reports behind the first one. -/
theorem count_lowered (owed : ∀ id, (id₀ :: rest).count id ≤ left id) :
    0 < left id₀ ∧ ∀ id, rest.count id ≤ lowered left id₀ id := by
  have here := owed id₀
  rw [count_cons_self] at here
  refine ⟨by omega, fun id => ?_⟩
  unfold lowered
  by_cases same : id = id₀
  · rw [same, update_self]
    omega
  · have there := owed id
    rwa [count_cons_of_ne (Ne.symm same), ← update_of_ne same (left id₀ - 1) left] at there

/-- One report first: with the last one its id is through. -/
theorem CountedDown.cons (owed : ∀ id, (id₀ :: rest).count id ≤ left id)
    (down : CountedDown encode (lowered left id₀) rest counts'
      (if left id₀ = 1 then addId finished id₀ else finished) finished') :
    CountedDown encode left (id₀ :: rest) counts' finished finished' := by
  have here := owed id₀
  rw [count_cons_self] at here
  refine ⟨fun id => ?_, down.nodup, fun id => ?_⟩
  · rw [down.counts, lowered]
    by_cases same : id = id₀
    · rw [same, update_self, count_cons_self, Nat.sub_sub, Nat.add_comm 1]
    · rw [update_of_ne same, count_cons_of_ne (Ne.symm same)]
  · rw [down.members, lowered]
    by_cases same : id = id₀
    · rw [same, update_self, count_cons_self]
      split
      · rename_i last
        have gone : rest.count id₀ = 0 := by omega
        simp [mem_addId, gone, last]
      · exact or_congr_right ⟨fun both => ⟨by omega, by omega⟩, fun both => ⟨by omega, by omega⟩⟩
    · rw [update_of_ne same, count_cons_of_ne (Ne.symm same)]
      split
      · simp [mem_addId, same]
      · rfl

end Countdown

namespace MultiConnectorWorker

/-- The count a worker keeps for a request with so many reports to come: those beyond the last. -/
def extraFor (remaining : Nat) : Option Nat := if 2 ≤ remaining then some (remaining - 1) else none

/-- A worker counts its reports down, and passes an id on with the last of them. -/
theorem drainSent_spec
    {remaining : RequestId → Nat} (counted : ∀ id, extra.get? id = extraFor (remaining id))
    (owed : ∀ id, ids.count id ≤ remaining id) (nodup : finished.Nodup) :
    ∃ finished' extra', drainSent ids finished extra = .ok (finished', extra') ∧
      CountedDown extraFor remaining ids extra' finished finished' := by
  -- The induction is on the reports still to handle; each lowers what remains for its id by one.
  induction ids generalizing finished extra remaining with
  | nil => exact ⟨finished, extra, rfl, .nil counted nodup⟩
  | cons id₀ rest ih =>
    obtain ⟨positive, owed'⟩ := count_lowered owed
    unfold drainSent
    by_cases last : remaining id₀ = 1
    · have absent : extra.get? id₀ = none := by rw [counted, last]; rfl
      have zero : extra.get? id₀ = extraFor (remaining id₀ - 1) := by rw [absent, last]; rfl
      obtain ⟨finished', extra', done, down⟩ :=
        ih (get?_lowered counted zero fun _ _ => rfl) owed' (nodup_addId nodup id₀)
      rw [absent]
      exact ⟨finished', extra', done, .cons owed (by rwa [if_pos last])⟩
    · have pending : extra.get? id₀ = some (remaining id₀ - 1) := by
        rw [counted]
        exact if_pos (by omega)
      have lower : (if remaining id₀ - 1 = 1 then extra.erase id₀
          else extra.set id₀ (remaining id₀ - 1 - 1)).get? id₀ = extraFor (remaining id₀ - 1) := by
        unfold extraFor
        split
        · rw [PyDict.get?_erase_self, if_neg (by omega)]
        · rw [PyDict.get?_set_self, if_pos (by omega)]
      obtain ⟨finished', extra', done, down⟩ := ih (get?_lowered counted lower fun id other => by
        split
        · exact PyDict.get?_erase_ne _ other
        · exact PyDict.get?_set_ne _ _ other) owed' nodup
      rw [pending]
      exact ⟨finished', extra', bind_eq_ok.mpr ⟨(), require_eq_ok.mpr (by omega), done⟩,
        .cons owed (by rwa [if_neg last])⟩

/-- The ids sent, connector after connector. -/
def sentBy (reports : Reports) : List RequestId := reports.flatMap Prod.fst

/-- Draining one list after another is draining both. -/
theorem drainSent_append (ids ids' finished : List RequestId) (extra : PyDict RequestId Nat) :
    drainSent (ids ++ ids') finished extra =
      (drainSent ids finished extra).bind fun drained => drainSent ids' drained.1 drained.2 := by
  induction ids generalizing finished extra with
  | nil => rfl
  | cons id rest ih =>
    simp only [cons_append, drainSent]
    split
    · exact ih _ _
    · rename_i pending _
      simp only [ih]
      cases require (pending > 0) (⟨.assertion, .extraPending⟩ : Err) <;> rfl

/-- The connectors of a worker together. -/
theorem getFinished_sent {reports : Reports} {out : KVConnectorOutput} {extra' : PyDict RequestId Nat}
    (drained : drainSent (sentBy reports) out.finishedSending extra = .ok (finished', extra')) :
    ∃ out', getFinished reports out extra = .ok (out', extra') ∧ out'.finishedSending = finished' := by
  induction reports generalizing out extra with
  | nil =>
    cases drained
    exact ⟨out, rfl, rfl⟩
  | cons report rest ih =>
    have parts : sentBy (report :: rest) = report.1 ++ sentBy rest := flatMap_cons
    rw [parts, drainSent_append] at drained
    cases first : drainSent report.1 out.finishedSending extra with
    | error => rw [first] at drained; cases drained
    | ok mid =>
      rw [first] at drained
      let next : KVConnectorOutput := ⟨mid.1, report.2.foldl addId out.finishedRecving⟩
      have later : drainSent (sentBy rest) next.finishedSending mid.2 = .ok (finished', extra') := drained
      obtain ⟨out', done, eq⟩ := ih later
      exact ⟨out', bind_eq_ok.mpr ⟨mid, first, done⟩, eq⟩

end MultiConnectorWorker

namespace KVOutputAggregator

/-- The count the aggregator keeps for a request that so many workers have sent. -/
def remainingFor (worldSize done : Nat) : Option Int :=
  if done = 0 ∨ done = worldSize then none else some ((worldSize : Int) - done)

/-- The count the aggregator keeps for an id that some workers have still to report. -/
def countFor (worldSize left : Nat) : Option Int :=
  remainingFor worldSize (worldSize - left)

/-- The aggregator counts down the workers whose reports are to come. -/
theorem updateFinishedSet_down (counted : ∀ id, counts.get? id = countFor worldSize (left id))
    (owed : ∀ id, ids.count id ≤ left id) (few : ∀ id, left id ≤ worldSize) (nodup : finished.Nodup) :
    CountedDown (countFor worldSize) left ids
      (updateFinishedSet worldSize ids counts finished).1 finished
      (updateFinishedSet worldSize ids counts finished).2 := by
  induction ids generalizing finished counts left with
  | nil => exact .nil counted nodup
  | cons id₀ rest ih =>
    obtain ⟨positive, owed'⟩ := count_lowered owed
    have here := few id₀
    have few' : ∀ id, lowered left id₀ id ≤ worldSize := fun id => by
      unfold lowered
      by_cases same : id = id₀
      · rw [same, update_self]
        omega
      · rw [update_of_ne same]
        exact few id
    -- A missing count stands for all workers.
    have count : (counts.get? id₀).getD worldSize - 1 = (left id₀ : Int) - 1 := by
      rw [counted, countFor, remainingFor]
      split
      · simp only [Option.getD_none]
        omega
      · simp only [Option.getD_some]
        omega
    refine .cons owed ?_
    unfold updateFinishedSet
    dsimp only
    rw [count]
    by_cases last : left id₀ = 1
    · rw [if_pos (by omega), if_pos last]
      refine ih (get?_lowered counted ?_ fun _ other => PyDict.get?_erase_ne _ other) owed' few'
        (nodup_addId nodup id₀)
      rw [PyDict.get?_erase_self, countFor, remainingFor, if_pos (by omega)]
    · rw [if_neg (by omega), if_neg last]
      refine ih (get?_lowered counted ?_ fun _ other => PyDict.get?_set_ne _ _ other) owed' few' nodup
      rw [PyDict.get?_set_self, countFor, remainingFor, if_neg (by omega)]
      congr 1
      omega

/-- The aggregator counts the workers down, and passes an id on with the last of them. -/
theorem updateFinishedSet_spec {done : RequestId → Nat}
    (counted : ∀ id, counts.get? id = remainingFor worldSize (done id))
    (room : ∀ id, done id + ids.count id ≤ worldSize) (nodup : finished.Nodup) :
    (∀ id, (updateFinishedSet worldSize ids counts finished).1.get? id =
      remainingFor worldSize (done id + ids.count id)) ∧
    (updateFinishedSet worldSize ids counts finished).2.Nodup ∧
    ∀ id, id ∈ (updateFinishedSet worldSize ids counts finished).2 ↔
      id ∈ finished ∨ 0 < ids.count id ∧ done id + ids.count id = worldSize := by
  -- A worker more is a report less to come.
  have bounded : ∀ id, ids.count id ≤ worldSize - done id := fun id => by have := room id; omega
  have encoded : ∀ id, counts.get? id = countFor worldSize (worldSize - done id) := by
    intro id
    rw [counted, countFor, Nat.sub_sub_self (by have := room id; omega)]
  obtain ⟨counts', nodup', members⟩ := updateFinishedSet_down encoded bounded (fun _ => Nat.sub_le _ _) nodup
  refine ⟨fun id => ?_, nodup', fun id => ?_⟩
  · rw [counts', countFor]
    congr 1
    have := room id
    omega
  · rw [members]
    refine or_congr_right (and_congr_right fun _ => ?_)
    have := room id
    omega

/-- Counting one list after another is counting both. -/
theorem updateFinishedSet_append (worldSize : Nat) (ids ids' finished : List RequestId)
    (counts : PyDict RequestId Int) :
    updateFinishedSet worldSize (ids ++ ids') counts finished =
      updateFinishedSet worldSize ids' (updateFinishedSet worldSize ids counts finished).1
        (updateFinishedSet worldSize ids counts finished).2 := by
  induction ids generalizing counts finished with
  | nil => rfl
  | cons id rest ih =>
    simp only [cons_append, updateFinishedSet]
    split <;> exact ih _ _

/-- What the aggregator does with the ids sent, worker after worker. -/
theorem aggregateLoop_sent (outputs : List KVConnectorOutput) (a : KVOutputAggregator)
    (out : KVConnectorOutput) :
    (aggregateLoop outputs a out).1.worldSize = a.worldSize ∧
    (aggregateLoop outputs a out).1.sendRemainingCount = (updateFinishedSet a.worldSize
      (outputs.flatMap (·.finishedSending)) a.sendRemainingCount out.finishedSending).1 ∧
    (aggregateLoop outputs a out).2.finishedSending = (updateFinishedSet a.worldSize
      (outputs.flatMap (·.finishedSending)) a.sendRemainingCount out.finishedSending).2 := by
  induction outputs generalizing a out with
  | nil => exact ⟨rfl, rfl, rfl⟩
  | cons worker rest ih =>
    rw [flatMap_cons, updateFinishedSet_append]
    unfold aggregateLoop
    exact ih _ _

end KVOutputAggregator

end Mimir
