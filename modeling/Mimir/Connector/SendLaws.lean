import Mimir.Connector.Sending

/-! The counts of sends over whole runs: in the connector, in the workers and in the aggregator. -/

namespace Mimir

open Python List

variable {M : Type} {savers : List Nat} {blocks : List BlockId}

/-- How many of some saves belong to a request. -/
def remaining (saves : List (RequestId × Nat)) (id : RequestId) : Nat := (saves.map Prod.fst).count id

section Saves

variable {saves saves' : List (RequestId × Nat)} {completed completed' : List (RequestId × List Nat)}
  {id : RequestId}

/-- Saves are counted list by list. -/
theorem remaining_append : remaining (saves ++ saves') id = remaining saves id + remaining saves' id := by
  unfold remaining
  rw [map_append, count_append]

/-- Nothing remains for a request without saves. -/
theorem remaining_eq_zero_iff : remaining saves id = 0 ↔ id ∉ saves.map Prod.fst := count_eq_zero

/-- The saves of more completions. -/
theorem savesOf_append : savesOf (completed ++ completed') = savesOf completed ++ savesOf completed' :=
  flatMap_append

/-- The saves of one completion belong to its request. -/
theorem remaining_savesOf_singleton (id' : RequestId) (savers : List Nat) :
    remaining (savesOf [(id', savers)]) id = if id = id' then savers.length else 0 := by
  have constant : (savesOf [(id', savers)]).map Prod.fst = List.replicate savers.length id' := by
    simp [savesOf, map_map, Function.comp_def, map_const']
  unfold remaining
  rw [constant, count_replicate]
  by_cases same : id = id'
  · simp [same]
  · simp [same, Ne.symm same]

/-- The requests with saves are those of the completions. -/
theorem mem_savesOf_fst (present : id ∈ (savesOf completed).map Prod.fst) :
    id ∈ completed.map Prod.fst := by
  obtain ⟨save, member, rfl⟩ := mem_map.mp present
  obtain ⟨entry, listed, from'⟩ := mem_flatMap.mp member
  obtain ⟨saver, _, rfl⟩ := mem_map.mp from'
  exact mem_map_of_mem listed

/-- A completion has saves. -/
theorem remaining_savesOf_pos (listed : (id, savers) ∈ completed)
    (some : savers ≠ []) : 0 < remaining (savesOf completed) id := by
  obtain ⟨saver, member⟩ := exists_mem_of_ne_nil savers some
  have present : (id, saver) ∈ savesOf completed :=
    mem_flatMap.mpr ⟨(id, savers), listed, mem_map_of_mem member⟩
  exact count_pos_iff.mpr (mem_map_of_mem present)

/-- Different completions have different saves. -/
theorem savesOf_nodup (ids : (completed.map Prod.fst).Nodup) (each : ∀ entry ∈ completed, entry.2.Nodup) :
    (savesOf completed).Nodup := by
  induction completed with
  | nil => exact nodup_nil
  | cons entry rest ih =>
    rw [map_cons, nodup_cons] at ids
    have first : (savesOf [entry]).Nodup := by
      simp only [savesOf, flatMap_cons, flatMap_nil, append_nil]
      exact (each entry (mem_cons_self ..)).map fun a b same => (Prod.mk.inj same).2
    have later := ih ids.2 fun x member => each x (mem_cons_of_mem _ member)
    rw [← singleton_append, savesOf_append]
    refine nodup_append.mpr ⟨first, later, ?_⟩
    -- A save of the rest belongs to another request.
    rintro save here _ there rfl
    have own : save.1 ∈ [entry].map Prod.fst := mem_savesOf_fst (mem_map_of_mem here)
    rw [map_singleton, mem_singleton] at own
    exact ids.1 (own ▸ mem_savesOf_fst (mem_map_of_mem there))

/-- The ids a worker's connectors send are those of the saves they report. -/
theorem sentBy_eq (reports : Reports) :
    MultiConnectorWorker.sentBy reports = (reportedSaves reports).map Prod.fst := by
  have shifted : ∀ k, reports.flatMap Prod.fst =
      ((reports.zipIdx k).flatMap fun item => item.1.1.map fun id => (id, item.2)).map Prod.fst := by
    induction reports with
    | nil => intro k; rfl
    | cons report rest ih =>
      intro k
      rw [flatMap_cons, zipIdx_cons, flatMap_cons, map_append, ← ih (k + 1), map_map]
      exact congrArg (· ++ _) (map_id _).symm
  exact shifted 0

/-- What remains when some of the saves have been reported. -/
theorem remaining_unreported {reported : List (RequestId × Nat)} (nodup : saves.Nodup)
    (once : reported.Nodup) (owed : ∀ save ∈ reported, save ∈ saves) (id : RequestId) :
    remaining (saves.filter fun save => save ∉ reported) id + (reported.map Prod.fst).count id =
      remaining saves id := by
  -- The saves are those reported and the rest.
  have parts : saves.Perm (reported ++ saves.filter fun save => save ∉ reported) := by
    refine (perm_ext_iff_of_nodup nodup ?_).mpr fun save => ?_
    · refine nodup_append.mpr ⟨once, nodup.filter _, ?_⟩
      rintro save here _ there rfl
      have apart := (mem_filter.mp there).2
      simp only [decide_eq_true_eq] at apart
      exact apart here
    · by_cases here : save ∈ reported
      · simp [here, owed save here]
      · simp [here]
  unfold remaining
  rw [(parts.map Prod.fst).count_eq id, map_append, count_append, Nat.add_comm]

end Saves

/-- Updating a dictionary with the items of another. -/
theorem get?_foldl_set {K V : Type} [DecidableEq K] {items : List (K × V)}
    (nodup : (items.map Prod.fst).Nodup) (d : PyDict K V) (k : K) :
    (items.foldl (fun d item => d.set item.1 item.2) d).get? k = (items.lookup k).or (d.get? k) := by
  induction items generalizing d with
  | nil => rfl
  | cons item rest ih =>
    rcases item with ⟨k', v'⟩
    rw [map_cons, nodup_cons] at nodup
    rw [foldl_cons, ih nodup.2, PyDict.lookup_cons_ite]
    by_cases same : k = k'
    · subst same
      have absent : rest.lookup k = none := by
        rw [lookup_eq_none_iff]
        intro item member
        rw [bne_iff_ne]
        intro same
        have present := mem_map_of_mem (f := Prod.fst) member
        rw [← same] at present
        exact nodup.1 present
      simp [absent]
    · rw [PyDict.get?_set_ne _ _ same, if_neg same]

/-- The counts of a metadata are right for its completions. -/
def MultiKVConnectorMetadata.Counted {M : Type} (metadata : MultiKVConnectorMetadata M) : Prop :=
  ∀ id, (metadata.extraAsyncSaves.getD .empty).get? id =
    MultiConnectorWorker.extraFor (remaining (savesOf metadata.completed) id)

/-- The counts of a connector are right for the completions since the last step. -/
def MultiConnector.Counted {C : Type} (c : MultiConnector C) : Prop :=
  ∀ id, c.extraAsyncSaves.get? id =
    MultiConnectorWorker.extraFor (remaining (savesOf c.completed) id)

namespace SendWorker

variable {w : SendWorker} {metadata : MultiKVConnectorMetadata M} {reports : Reports}

/-- The counts of a worker are right for the saves it owes. -/
def Counted (w : SendWorker) : Prop :=
  ∀ id, w.extraAsyncSaves.get? id = MultiConnectorWorker.extraFor (remaining w.owed id)

/-- A worker owes no save of a request. -/
def settled (id : RequestId) (w : SendWorker) : Bool := remaining w.owed id = 0

/-- Binding the completions of other requests keeps the counts right. -/
theorem bind_counted (counted : w.Counted) (right : metadata.Counted)
    (apart : ∀ id ∈ metadata.completed.map Prod.fst, remaining w.owed id = 0) :
    (w.bind metadata).Counted := by
  intro id
  have found : (w.bind metadata).extraAsyncSaves.get? id =
      ((metadata.extraAsyncSaves.getD .empty).get? id).or (w.extraAsyncSaves.get? id) := by
    show (MultiConnectorWorker.bindConnectorMetadata w.extraAsyncSaves metadata).get? id = _
    unfold MultiConnectorWorker.bindConnectorMetadata
    split
    · rename_i extra here
      rw [here]
      exact get?_foldl_set extra.nodup w.extraAsyncSaves id
    · rename_i absent
      rw [absent]
      rfl
  have total : remaining (w.bind metadata).owed id =
      remaining w.owed id + remaining (savesOf metadata.completed) id := remaining_append
  rw [found, right id, counted id, total]
  by_cases new : id ∈ metadata.completed.map Prod.fst
  · rw [apart id new, Nat.zero_add]
    unfold MultiConnectorWorker.extraFor
    split <;> rfl
  · have none : remaining (savesOf metadata.completed) id = 0 :=
      remaining_eq_zero_iff.mpr fun present => new (mem_savesOf_fst present)
    rw [none]
    rfl

/-- What collecting reports does: it passes on the ids whose last owed save is among them. -/
structure Reported (w : SendWorker) (out : KVConnectorOutput) (w' : SendWorker) : Prop where
  counted : w'.Counted
  nodup : w'.owed.Nodup
  sub : ∀ save ∈ w'.owed, save ∈ w.owed
  fewer : ∀ id, remaining w'.owed id ≤ remaining w.owed id
  once : out.finishedSending.Nodup
  sent : ∀ id, id ∈ out.finishedSending ↔ 0 < remaining w.owed id ∧ remaining w'.owed id = 0

/-- Owed reports never raise, and they lower the counts. -/
theorem report_spec (counted : w.Counted) (nodup : w.owed.Nodup) (owes : w.Owes reports) :
    ∃ out w', w.report reports = .ok (out, w') ∧ w.Reported out w' := by
  have unreported := remaining_unreported nodup owes.1 owes.2
  have few : ∀ id, (MultiConnectorWorker.sentBy reports).count id ≤ remaining w.owed id := by
    intro id
    rw [sentBy_eq, ← unreported id]
    exact Nat.le_add_left _ _
  obtain ⟨finished, extra, drained, ⟨counts, once, members⟩⟩ :=
    MultiConnectorWorker.drainSent_spec counted few nodup_nil
  obtain ⟨out, got, same⟩ := @MultiConnectorWorker.getFinished_sent _ _ reports ⟨[], []⟩ _ drained
  refine ⟨out, _, bind_eq_ok.mpr ⟨_, got, rfl⟩, ?_, nodup.filter _, ?_, ?_, ?_, ?_⟩
  · intro id
    rw [counts id, sentBy_eq, ← unreported id]
    simp
  · exact fun save member => (mem_filter.mp member).1
  · intro id
    rw [← unreported id]
    exact Nat.le_add_right _ _
  · rw [same]
    exact once
  · intro id
    rw [same, members id, sentBy_eq]
    have total := unreported id
    simp only [not_mem_nil, false_or]
    constructor
    · rintro ⟨positive, all⟩
      exact ⟨by omega, by omega⟩
    · rintro ⟨positive, none⟩
      exact ⟨by omega, by omega⟩

/-- The workers that owe nothing any more are those before and those that pass the id on. -/
theorem settled_count {before : List SendWorker} {steps : List (KVConnectorOutput × SendWorker)}
    (each : List.Forall₂ (fun w step => w.Reported step.1 step.2) before steps) (id : RequestId) :
    before.countP (settled id) + ((steps.map Prod.fst).flatMap (·.finishedSending)).count id =
      (steps.map Prod.snd).countP (settled id) := by
  induction each with
  | nil => rfl
  | @cons w step ws steps first _ ih =>
    rw [map_cons, map_cons, flatMap_cons, count_append, countP_cons, countP_cons, ← ih]
    -- One worker passes the id on exactly when it becomes settled.
    have fewer := first.fewer id
    have here : (if settled id w = true then 1 else 0) + step.1.finishedSending.count id =
        if settled id step.2 = true then 1 else 0 := by
      by_cases member : id ∈ step.1.finishedSending
      · obtain ⟨positive, none⟩ := (first.sent id).mp member
        rw [count_eq_one_of_mem first.once member]
        simp [settled, none, Nat.ne_of_gt positive]
      · rw [count_eq_zero_of_not_mem member]
        rw [first.sent id] at member
        by_cases zero : remaining w.owed id = 0
        · have after : remaining step.2.owed id = 0 := by omega
          simp [settled, zero, after]
        · have after : remaining step.2.owed id ≠ 0 := fun none => member ⟨by omega, none⟩
          simp [settled, zero, after]
    omega

end SendWorker

namespace MultiConnector

variable {H C : Type} {subs : List (ConnectorOps H C M)} {c c' : MultiConnector C} {req : Request H}

/-- The connectors that save asynchronously are asked in order, each once. -/
theorem finishLoop_nodup {i : Nat} {zipped : List (ConnectorOps H C M × C)}
    {savers' : List Nat} {params params' : Option KVTransferParams} {connectors : List C}
    (done : finishLoop req blocks i zipped savers params = .ok ((savers', params'), connectors))
    (nodup : savers.Nodup) (below : ∀ k ∈ savers, k < i) : savers'.Nodup := by
  induction zipped generalizing i savers params connectors with
  | nil =>
    cases done
    exact nodup
  | cons sub rest ih =>
    obtain ⟨answer, _, tail⟩ := bind_eq_ok.mp done
    obtain ⟨_, _, tail'⟩ := bind_eq_ok.mp tail
    obtain ⟨later, looped, built⟩ := bind_eq_ok.mp tail'
    rcases later with ⟨⟨savers₁, params₁⟩, connectors₁⟩
    cases built
    refine ih looped ?_ ?_
    · split
      · refine nodup_append.mpr ⟨nodup, by simp, ?_⟩
        rintro k old _ new rfl
        rw [mem_singleton.mp new] at old
        exact Nat.lt_irrefl _ (below _ old)
      · exact nodup
    · intro k member
      split at member
      · rcases mem_append.mp member with old | new
        · exact Nat.lt_succ_of_lt (below k old)
        · rw [mem_singleton.mp new]
          exact Nat.lt_succ_self _
      · exact Nat.lt_succ_of_lt (below k member)

/-- The end of a request: its asynchronous savers are noted, and counted beyond the first. -/
theorem requestFinished_spec {res : Bool × Option KVTransferParams}
    (done : requestFinished subs c req blocks = .ok (res, c')) :
    ∃ savers : List Nat, savers.Nodup ∧ (res.1 = true ↔ savers ≠ []) ∧
      c'.extraAsyncSaves = (if 1 < savers.length then
        c.extraAsyncSaves.set req.requestId (savers.length - 1) else c.extraAsyncSaves) ∧
      c'.completed =
        if savers = [] then c.completed else c.completed ++ [(req.requestId, savers)] := by
  obtain ⟨⟨⟨savers, params⟩, connectors⟩, asked, built⟩ := bind_eq_ok.mp done
  cases built
  refine ⟨savers, finishLoop_nodup asked nodup_nil (by simp), ?_, rfl, rfl⟩
  rw [decide_eq_true_eq, length_pos_iff]

/-- Another completion keeps the counts right. -/
theorem Counted.complete (counted : c.Counted) (some : savers ≠ [])
    (fresh : req.requestId ∉ c.completed.map Prod.fst)
    (extra : c'.extraAsyncSaves = if 1 < savers.length then
      c.extraAsyncSaves.set req.requestId (savers.length - 1) else c.extraAsyncSaves)
    (completed : c'.completed = c.completed ++ [(req.requestId, savers)]) : c'.Counted := by
  have none : remaining (savesOf c.completed) req.requestId = 0 :=
    remaining_eq_zero_iff.mpr fun present => fresh (mem_savesOf_fst present)
  have positive : 0 < savers.length := length_pos_iff.mpr some
  intro id
  rw [extra, completed, savesOf_append, remaining_append, remaining_savesOf_singleton]
  by_cases same : id = req.requestId
  · subst same
    rw [none, if_pos rfl, Nat.zero_add]
    unfold MultiConnectorWorker.extraFor
    split
    · rw [PyDict.get?_set_self, if_pos (by omega)]
    · rw [counted, none, if_neg (by omega)]
      rfl
  · rw [if_neg same, Nat.add_zero, ← counted id]
    split
    · exact PyDict.get?_set_ne _ _ same
    · rfl

end MultiConnector

end Mimir
