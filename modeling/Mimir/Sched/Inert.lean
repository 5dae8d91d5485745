import Mimir.Sched.Runs

/-! Connectors that ignore the ends of requests: between steps only the workers change their state. -/

namespace Mimir

open Python

/-- A connector whose state does not depend on which requests end or which transfers finish. -/
structure ConnectorOps.Inert {H C M : Type} (ops : ConnectorOps H C M) : Prop where
  finished : ∀ c req blocks res c', ops.requestFinished c req blocks = .ok (res, c') → c' = c
  output : ∀ c out, ops.updateConnectorOutput c out = c

/-- No connector, or an inert one. -/
def Config.Inert {H C M : Type} (cfg : Config H C M) : Prop :=
  ∀ ops, cfg.connector = some ops → ops.Inert

namespace Scheduler

variable {H C M : Type} {cfg : Config H C M} {s s' : Scheduler H C} {r : Ref}

/-- Giving back blocks does not concern the connector. -/
theorem freeBlocks_connector (done : s.freeBlocks r = .ok s') : s'.connector = s.connector := by
  obtain ⟨_, _, tail⟩ := bind_eq_ok.mp done
  obtain ⟨_, _, built⟩ := bind_eq_ok.mp tail
  cases built
  rfl

/-- The time to pin a request does not concern the connector. -/
theorem pinTtl_connector {delay : Bool} {ttl : PyFloat} (done : s.pinTtl cfg r delay = .ok (ttl, s')) :
    s'.connector = s.connector := by
  unfold pinTtl at done
  split at done
  · unfold setUpPin at done
    split at done
    · obtain ⟨s₁, recorded, built⟩ := bind_eq_ok.mp done
      cases built
      unfold recordDuration at recorded
      split at recorded
      · cases recorded
        rfl
      · obtain ⟨duration, _, built⟩ := bind_eq_ok.mp recorded
        cases built
        rfl
    · cases done
      rfl
  · cases done
    rfl

/-- The end of a request leaves an inert connector as it is. -/
theorem freeRequest_connector (inert : cfg.Inert) {now : PyFloat} {params : Option KVTransferParams}
    (done : s.freeRequest cfg now r = .ok (params, s')) : s'.connector = s.connector := by
  obtain ⟨_, _, tail⟩ := bind_eq_ok.mp done
  obtain ⟨⟨⟨delay, xfer⟩, s₁⟩, told, tail⟩ := bind_eq_ok.mp tail
  obtain ⟨⟨ttl, s₂⟩, timed, tail⟩ := bind_eq_ok.mp tail
  have first : s₁.connector = s.connector := by
    unfold connectorFinished at told
    split at told
    · cases told
      rfl
    · rename_i ops connected
      split at told
      · obtain ⟨⟨res, c⟩, answered, built⟩ := bind_eq_ok.mp told
        cases built
        exact (inert ops connected).finished _ _ _ _ _ answered
      · cases told
  have second : s₂.connector = s.connector := (pinTtl_connector timed).trans first
  dsimp only at tail
  split at tail
  · cases tail
    exact second
  · split at tail
    · cases tail
      exact second
    · obtain ⟨s₃, freed, built⟩ := bind_eq_ok.mp tail
      cases built
      exact (freeBlocks_connector freed).trans second

variable {clock : Ref → PyFloat} {ids : List RequestId} {batch : SchedulerOutput M}
  {model : ModelRunnerOutput} {items : List (RequestId × Int)}

/-- A finish signal leaves an inert connector as it is. -/
theorem finishRequests_connector (inert : cfg.Inert)
    {status : RequestStatus} (done : s.finishRequests cfg clock ids status = .ok s') :
    s'.connector = s.connector := by
  have all : ∀ {refs : List Ref} {a b : Scheduler H C},
      finishAll cfg clock status refs a = .ok b → b.connector = a.connector := by
    intro refs
    induction refs with
    | nil =>
      intro a b finished
      cases finished
      rfl
    | cons r rest ih =>
      intro a b finished
      obtain ⟨⟨_, mid⟩, freed, later⟩ := bind_eq_ok.mp finished
      have kept := freeRequest_connector inert freed
      exact (ih later).trans kept
  obtain ⟨_, _, tail⟩ := bind_eq_ok.mp done
  obtain ⟨waiting, _, finished⟩ := bind_eq_ok.mp tail
  have kept := all finished
  exact kept

/-- Appending tokens does not concern the connector. -/
theorem updateRequestWithOutput_connector {tokens : List TokenId} {out : List TokenId × Bool}
    (done : updateRequestWithOutput cfg r tokens s = .ok (out, s')) :
    s'.connector = s.connector := by
  induction tokens generalizing s out with
  | nil =>
    cases done
    rfl
  | cons token rest ih =>
    obtain ⟨req, _, tail⟩ := bind_eq_ok.mp done
    obtain ⟨⟨stopped, req'⟩, _, tail⟩ := bind_eq_ok.mp tail
    dsimp only at tail
    split at tail
    · cases tail
      rfl
    · obtain ⟨⟨⟨later, stop⟩, s₁⟩, rested, built⟩ := bind_eq_ok.mp tail
      cases built
      have kept := ih rested
      exact kept

/-- One turn of the update loop leaves an inert connector as it is. -/
theorem updateRequest_connector [DecidableEq H] (inert : cfg.Inert)
    {acc acc' : UpdateAcc} {id : RequestId}
    (done : s.updateRequest cfg clock batch model acc id r = .ok (s', acc')) :
    s'.connector = s.connector := by
  obtain ⟨reqIndex, _, tail⟩ := bind_eq_ok.mp done
  obtain ⟨generated, _, tail⟩ := bind_eq_ok.mp tail
  obtain ⟨⟨⟨tokens, stopped⟩, s₀⟩, appended, tail⟩ := bind_eq_ok.mp tail
  obtain ⟨s₁, settled, tail⟩ := bind_eq_ok.mp tail
  obtain ⟨⟨⟨pooled, stopped'⟩, s₂⟩, checked, tail⟩ := bind_eq_ok.mp tail
  obtain ⟨⟨params, s₃, acc₁⟩, freed, emitted⟩ := bind_eq_ok.mp tail
  have first : s₁.connector = s.connector := by
    obtain ⟨placeholders, kv, rfl, _⟩ := settlePlaceholders_spec settled
    show s₀.connector = s.connector
    rw [updateRequestWithOutput_connector appended]
    unfold rejectDraftTokens
    split <;> rfl
  have second : s₂.connector = s₁.connector := by
    unfold checkPooler at checked
    split at checked
    · cases checked
      rfl
    · obtain ⟨_, _, tail⟩ := bind_eq_ok.mp checked
      obtain ⟨⟨_, _⟩, _, built⟩ := bind_eq_ok.mp tail
      cases built
      rfl
  have third : s₃.connector = s₂.connector := by
    unfold stopRequest at freed
    split at freed
    · obtain ⟨⟨_, s₄⟩, ended, tail⟩ := bind_eq_ok.mp freed
      have kept := freeRequest_connector inert ended
      dsimp only at tail
      split at tail <;> (cases tail; exact kept)
    · cases freed
      rfl
  have last : s'.connector = s₃.connector := by
    unfold emitOutput at emitted
    dsimp only at emitted
    split at emitted
    · cases emitted
      rfl
    · obtain ⟨_, _, built⟩ := bind_eq_ok.mp emitted
      cases built
      rfl
  rw [last, third, second, first]

/-- Freeing sent requests does not concern the connector. -/
theorem freeSent_connector (done : freeSent ids s = .ok s') : s'.connector = s.connector := by
  induction ids generalizing s with
  | nil =>
    cases done
    rfl
  | cons id rest ih =>
    obtain ⟨r, _, tail⟩ := bind_eq_ok.mp done
    obtain ⟨mid, freed, later⟩ := bind_eq_ok.mp tail
    exact (ih later).trans (freeBlocks_connector freed)

/-- The output of a batch leaves an inert connector as it is. -/
theorem updateFromOutput_connector [DecidableEq H] (inert : cfg.Inert)
    {outputs : PyDict Nat EngineCoreOutputs}
    (done : s.updateFromOutput cfg clock batch model = .ok (outputs, s')) :
    s'.connector = s.connector := by
  have loop : ∀ {items : List (RequestId × Int)} {a b : Scheduler H C} {acc acc' : UpdateAcc},
      updateLoop cfg clock batch model items a acc = .ok (b, acc') → b.connector = a.connector := by
    intro items
    induction items with
    | nil =>
      intro a b acc acc' looped
      cases looped
      rfl
    | cons item rest ih =>
      intro a b acc acc' looped
      obtain ⟨_, _, tail⟩ := bind_eq_ok.mp looped
      split at tail
      · exact ih tail
      · obtain ⟨⟨mid, acc₁⟩, turned, later⟩ := bind_eq_ok.mp tail
        exact (ih later).trans (updateRequest_connector inert turned)
  obtain ⟨⟨s₁, acc⟩, looped, tail⟩ := bind_eq_ok.mp done
  obtain ⟨waiting, _, tail⟩ := bind_eq_ok.mp tail
  obtain ⟨s₂, reported, built⟩ := bind_eq_ok.mp tail
  cases built
  have first := loop looped
  show s₂.connector = s.connector
  unfold updateFromConnectorOutput at reported
  split at reported
  · rename_i out _
    rw [freeSent_connector reported, ← first]
    dsimp only
    cases connected : cfg.connector with
    | none => rfl
    | some ops => exact (inert ops connected).output _ _
  · cases reported
    exact first

/-- Drafting tokens does not concern the connector. -/
theorem updateDraftTokenIds_connector (s : Scheduler H C) (drafts : List (RequestId × List TokenId)) :
    (s.updateDraftTokenIds drafts).connector = s.connector := by
  induction drafts generalizing s with
  | nil => rfl
  | cons item rest ih =>
    unfold updateDraftTokenIds
    split
    · exact ih s
    · split
      · exact ih s
      · rw [ih]
        rfl

end Scheduler

namespace Engine

variable {H C M : Type} [DecidableEq H] {cfg : Config H C M} {e e' : Engine H C M}

/-- An inert connector changes only when a step is scheduled or executed. -/
theorem exec_connector (inert : cfg.Inert) {op : Op} (done : e.exec cfg op = .ok e') :
    e'.sched.connector = e.sched.connector ∧ e'.scheduled = e.scheduled ∨
      (∃ env out, op = .schedule env ∧ e.sched.schedule cfg env = .ok (out, e'.sched) ∧
        e'.scheduled = e.scheduled ++ [out] ∧ e'.executed = e.executed) ∨
      (∃ batch rest, op = .execute ∧ e.scheduled = batch :: rest ∧
        e' = ⟨executeBatch cfg e.sched batch, rest, e.executed ++ [batch]⟩) := by
  cases op with
  | addRequest =>
    obtain ⟨s', added, built⟩ := bind_eq_ok.mp done
    obtain ⟨_, _, tail⟩ := bind_eq_ok.mp added
    obtain ⟨_, _, eq⟩ := bind_eq_ok.mp tail
    cases eq
    cases built
    exact .inl ⟨rfl, rfl⟩
  | schedule env =>
    obtain ⟨⟨out, s'⟩, scheduled, built⟩ := bind_eq_ok.mp done
    cases built
    exact .inr (.inl ⟨env, out, rfl, scheduled, rfl, rfl⟩)
  | execute =>
    cases waiting : e.scheduled with
    | nil => simp [exec, waiting] at done
    | cons batch rest =>
      simp only [exec, waiting, Except.ok.injEq] at done
      exact .inr (.inr ⟨batch, rest, rfl, rfl, done.symm⟩)
  | updateFromOutput =>
    cases executed : e.executed with
    | nil => simp [exec, executed] at done
    | cons =>
      simp only [exec, executed] at done
      obtain ⟨⟨outputs, s'⟩, updated, built⟩ := bind_eq_ok.mp done
      cases built
      exact .inl ⟨Scheduler.updateFromOutput_connector inert updated, rfl⟩
  | finishRequests =>
    obtain ⟨s', finished, built⟩ := bind_eq_ok.mp done
    cases built
    exact .inl ⟨Scheduler.finishRequests_connector inert finished, rfl⟩
  | updateDraftTokenIds drafts =>
    cases done
    exact .inl ⟨Scheduler.updateDraftTokenIds_connector e.sched drafts, rfl⟩
  | resetPrefixCache =>
    cases done
    exact .inl ⟨rfl, rfl⟩

end Engine

end Mimir
