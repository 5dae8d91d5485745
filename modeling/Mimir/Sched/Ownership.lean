import Mimir.Sched.Finality

/-! Which request an id leads to, and where each known request is held. -/

namespace Mimir

open Python Scheduler List

variable {H C M : Type} {cfg : Config H C M} {s s' : Scheduler H C} {r : Ref} {scope : Scope}
  {req : EngineCoreRequest}

/-- An id that neither a known nor a pinned request carries. -/
def FreshId {H C : Type} (s : Scheduler H C) (id : RequestId) : Prop :=
  id ∉ s.requests.keys ∧ ∀ p ∈ s.pinnedRequests, (s.objs p.1).requestId ≠ id

/-- Requests are added under fresh ids. -/
def Engine.FreshIds {H C M : Type} (e : Engine H C M) : Op → Prop
  | .addRequest req => FreshId e.sched req.requestId
  | _ => True

instance {H C : Type} (s : Scheduler H C) (id : RequestId) : Decidable (FreshId s id) :=
  inferInstanceAs (Decidable (_ ∧ _))

instance {H C M : Type} (e : Engine H C M) (op : Op) : Decidable (e.FreshIds op) :=
  match op with
  | .addRequest req => inferInstanceAs (Decidable (FreshId e.sched req.requestId))
  | .updateFromOutput _ _ | .finishRequests _ _ _ | .schedule _ | .execute | .updateDraftTokenIds _
  | .resetPrefixCache => inferInstanceAs (Decidable True)

/-- Queued requests are found under their ids; the id of a pinned one leads to it or nowhere. -/
structure Link {H C : Type} (s : Scheduler H C) : Prop where
  queued : ∀ r ∈ s.waiting ++ s.running, s.requests.get? (s.objs r).requestId = some r
  pinned : ∀ p ∈ s.pinnedRequests,
    s.requests.get? (s.objs p.1).requestId = some p.1 ∨ (s.objs p.1).requestId ∉ s.requests.keys

namespace Link

/-- A fresh scheduler has no requests. -/
theorem init (cfg : Config H C M) (connector : C) : Link (init cfg connector) where
  queued := by intro r member; cases member
  pinned := by intro p member; cases member

/-- Two queued requests with one id are the same. -/
theorem queued_inj (link : Link s) {r' : Ref} (queued : r ∈ s.waiting ++ s.running)
    (queued' : r' ∈ s.waiting ++ s.running)
    (same : (s.objs r).requestId = (s.objs r').requestId) : r = r' := by
  have found := link.queued r queued
  rw [same, link.queued r' queued'] at found
  exact (Option.some.inj found).symm

/-- The link depends only on ids, queued requests, known requests and pins. -/
theorem keep (link : Link s) (ids : ∀ r, (s'.objs r).requestId = (s.objs r).requestId)
    (requests : s'.requests = s.requests)
    (queued : ∀ r ∈ s'.waiting ++ s'.running, r ∈ s.waiting ++ s.running)
    (pinned : ∀ p ∈ s'.pinnedRequests, p ∈ s.pinnedRequests) : Link s' where
  queued r member := by rw [ids, requests]; exact link.queued r (queued r member)
  pinned p member := by rw [ids, requests]; exact link.pinned p (pinned p member)

/-- Forgetting a request that is not queued keeps the link. -/
theorem forget (link : Link s) (known : s.requests.get? (s.objs r).requestId = some r)
    (gone : r ∉ s.waiting ++ s.running) : Link (s.release r) where
  queued x member := by
    have found := link.queued x member
    have other : (s.objs x).requestId ≠ (s.objs r).requestId := by
      intro same
      rw [same, known] at found
      exact gone (Option.some.inj found ▸ member)
    show (s.requests.erase _).get? (s.objs x).requestId = some x
    rw [PyDict.get?_erase_ne _ other]
    exact found
  pinned p member := by
    show (s.requests.erase _).get? (s.objs p.1).requestId = some p.1 ∨
      (s.objs p.1).requestId ∉ (s.requests.erase _).keys
    by_cases same : (s.objs p.1).requestId = (s.objs r).requestId
    · right
      rw [PyDict.mem_keys_erase]
      exact fun both => both.1 same
    · rw [PyDict.get?_erase_ne _ same, PyDict.mem_keys_erase]
      rcases link.pinned p member with found | absent
      · exact .inl found
      · exact .inr fun both => absent both.2

/-- The request an expiring pin is freed under is the pinned one. -/
theorem pinned_known (link : Link s) {p : Ref × PyFloat} (member : p ∈ s.pinnedRequests)
    (present : (s.objs p.1).requestId ∈ s.requests.keys) :
    s.requests.get? (s.objs p.1).requestId = some p.1 :=
  (link.pinned p member).resolve_right fun absent => absent present

/-- A request that ends leaves the queues, and its id leads to it as long as it is kept. -/
theorem retire (link : Link s) {req : Request H} {b : Bookkeeping C}
    {notes : List Effect} {outcome : Outcome} (ends : Retires cfg scope s r req b notes outcome) :
    Link (s.retire r req b notes outcome) := by
  have ids : ∀ x, ((s.withdraw r req).objs x).requestId = (s.objs x).requestId :=
    update_field (fun req => req.requestId) ends.ended.requestId
  have queued : ∀ x ∈ (s.withdraw r req).waiting ++ (s.withdraw r req).running,
      x ∈ s.waiting ++ s.running := by
    intro x member
    rcases mem_append.mp member with waits | runs
    · exact mem_append_left _ (mem_filter.mp waits).1
    · exact mem_append_right _ (mem_filter.mp runs).1
  have withdrawn : Link ((s.withdraw r req).book b notes) :=
    link.keep ids rfl queued fun _ member => member
  have known : s.requests.get? ((s.withdraw r req).objs r).requestId = some r := by
    rw [ids]
    exact ends.known
  cases outcome with
  | delayed => exact withdrawn
  | freed =>
    refine withdrawn.forget known ?_
    show r ∉ (s.withdraw r req).waiting ++ (s.withdraw r req).running
    simp [withdraw]
  | pinned =>
    refine ⟨withdrawn.queued, ?_⟩
    intro p member
    rcases mem_append.mp member with old | new
    · exact withdrawn.pinned p old
    · cases mem_singleton.mp new
      exact .inl known

/-- Every elementary change outside the loops keeps the link. -/
theorem move [DecidableEq H] (inv : QueueInv s) (link : Link s) (step : Move cfg scope s s') :
    Link s' := by
  have ids := step.requestId
  cases step with
  | reorder waiting perm =>
    exact link.keep ids rfl (fun r => (perm.append_right s.running).mem_iff.mp) fun _ h => h
  | retire r req b notes outcome ends => exact link.retire ends
  | sent r listed known finished => exact link.forget known (inv.finished_not_queued finished)
  | unpin before r expiry t after clock due found =>
    refine link.keep ids rfl (fun _ h => h) fun p member => ?_
    rw [found]
    exact mem_append.mpr ((mem_append.mp member).imp_right (mem_cons_of_mem _))
  | expire before r expiry t after clock due found present finished =>
    have known := link.pinned_known (p := (r, expiry)) (by rw [found]; simp) present
    have dropped : Link { s with pinnedRequests := before ++ after } := by
      refine link.keep (fun _ => rfl) rfl (fun _ h => h) fun p member => ?_
      rw [found]
      exact mem_append.mpr ((mem_append.mp member).imp_right (mem_cons_of_mem _))
    exact dropped.forget known (inv.finished_not_queued finished)
  | _ => exact link.keep ids rfl (fun _ h => h) fun _ h => h

/-- Every change keeps the link. -/
theorem change [DecidableEq H] (inv : QueueInv s) (link : Link s)
    (step : Change cfg scope s s') : Link s' := by
  cases step with
  | move step => exact move inv link step
  | loop step =>
    have frame := step.frame
    refine link.keep (fun r => Request.requestId_eq (frame.fixed r)) frame.requests
      (fun r => frame.queued.mem_iff.mp) fun p member => ?_
    rw [frame.pinned] at member
    exact member
  | advance scheduled reserved known eq =>
    rw [eq]
    exact link.keep (fun r => rfl) rfl (fun r member => member) fun p member => member

/-- Adding a request under a fresh id keeps the link. -/
theorem addRequest (inv : QueueInv s) (link : Link s)
    (fresh : FreshId s req.requestId) (done : s.addRequest cfg req = .ok s') : Link s' := by
  obtain ⟨r, waiting, new, perm, rfl⟩ := addRequest_spec done
  have old : ∀ x, x < s.nextRef → Function.update s.objs s.nextRef r x = s.objs x :=
    fun x below => Function.update_of_ne (Nat.ne_of_lt below) _ _
  constructor
  · intro x member
    have cases' : x = s.nextRef ∨ x ∈ s.waiting ++ s.running := by
      have all := (perm.append_right s.running).mem_iff.mp member
      exact mem_cons.mp all
    rcases cases' with rfl | old'
    · simp [new.sent]
    · have found := link.queued x old'
      simp only [old x (inv.queued x old')]
      have other : (s.objs x).requestId ≠ req.requestId := by
        intro same
        rw [same] at found
        exact fresh.1 (PyDict.mem_keys_iff.mpr ⟨x, found⟩)
      rw [PyDict.get?_set_ne _ _ other]
      exact found
  · intro p member
    simp only [old p.1 (inv.pinned p member).1]
    have other := fresh.2 p member
    rw [PyDict.get?_set_ne _ _ other, PyDict.mem_keys_set]
    rcases link.pinned p member with found | absent
    · exact .inl found
    · exact .inr fun both => both.elim other absent

end Link

/-- Where the scheduler holds requests: in a queue or among the pins. -/
def Scheduler.holders {H C : Type} (s : Scheduler H C) : List Ref :=
  s.waiting ++ s.running ++ s.pinnedRequests.map Prod.fst

/-- Every known request is held, and nothing is held twice. -/
structure Shelved {H C : Type} (s : Scheduler H C) : Prop where
  nodup : s.holders.Nodup
  complete : ∀ k r, s.requests.get? k = some r → r ∈ s.holders

namespace Shelved

/-- A fresh scheduler holds nothing. -/
theorem init (cfg : Config H C M) (connector : C) : Shelved (init cfg connector) where
  nodup := nodup_nil
  complete := by intro k r found; cases found

/-- Reordering what is held, and forgetting ids, keeps everything on its shelf. -/
theorem keep (shelved : Shelved s)
    (requests : ∀ k r, s'.requests.get? k = some r → s.requests.get? k = some r)
    (holders : s'.holders.Perm s.holders) : Shelved s' where
  nodup := holders.nodup_iff.mpr shelved.nodup
  complete k r found := holders.mem_iff.mpr (shelved.complete k r (requests k r found))

/-- A held request may go, when its id goes with it. -/
theorem drop (shelved : Shelved s) (holders : s.holders.Perm (r :: s'.holders))
    (requests : ∀ k x, s'.requests.get? k = some x → s.requests.get? k = some x ∧ x ≠ r) :
    Shelved s' where
  nodup := (nodup_cons.mp (holders.nodup_iff.mp shelved.nodup)).2
  complete k x found := by
    obtain ⟨before, other⟩ := requests k x found
    exact (mem_cons.mp (holders.mem_iff.mp (shelved.complete k x before))).resolve_left other

/-- Filtering out an element that occurs once leaves the rest. -/
theorem perm_cons_filter_ne {list : List Ref} (nodup : list.Nodup) (member : r ∈ list) :
    list.Perm (r :: list.filter fun x => !decide (x = r)) := by
  have erased : list.erase r = list.filter fun x => !decide (x = r) := by
    rw [nodup.erase_eq_filter]
    refine filter_congr fun x _ => ?_
    by_cases same : x = r <;> simp [same]
  rw [← erased]
  exact perm_cons_erase member

/-- A queued request that ends is taken out of the queues. -/
theorem withdraw (inv : QueueInv s) (queued : r ∈ s.waiting ++ s.running)
    (req : Request H) : s.holders.Perm (r :: (s.withdraw r req).holders) := by
  have perm := perm_cons_filter_ne inv.nodup queued
  rw [filter_append] at perm
  exact perm.append_right _

/-- A request that is known when an id is forgotten is not the one the id led to. -/
theorem erased (inv : QueueInv s) {k : RequestId} {x : Ref}
    (found : (s.requests.erase (s.objs r).requestId).get? k = some x) :
    s.requests.get? k = some x ∧ x ≠ r := by
  have before := erase_sub found
  refine ⟨before, ?_⟩
  rintro rfl
  rw [← inv.own k x before, PyDict.get?_erase_self] at found
  cases found

/-- Without a connector, every elementary change keeps the shelves when ends are first ends. -/
theorem move [DecidableEq H] (noConnector : cfg.connector = none) (fresh : scope.fresh)
    (inv : QueueInv s) (link : Link s) (shelved : Shelved s) (step : Move cfg scope s s') :
    Shelved s' := by
  cases step with
  | reorder waiting perm =>
    exact shelved.keep (fun _ _ h => h) ((perm.append_right _).append_right _)
  | retire r req b notes outcome ends =>
    -- The request was unfinished, so it was in a queue and not among the pins.
    have queued : r ∈ s.waiting ++ s.running := by
      rcases mem_append.mp (shelved.complete _ r ends.known) with queued | pinned
      · exact queued
      · obtain ⟨p, member, rfl⟩ := mem_map.mp pinned
        have done := (inv.pinned p member).2
        rw [ends.live fresh] at done
        cases done
    have out := withdraw inv queued req
    cases outcome with
    | delayed =>
      obtain ⟨ops, connected, _⟩ := ends.allowed
      rw [noConnector] at connected
      cases connected
    | pinned expiry =>
      refine shelved.keep (fun _ _ h => h) ?_
      -- It moves from its queue to the pins.
      have pins : (s.retire r req b notes (.pinned expiry)).holders =
          (s.withdraw r req).holders ++ [r] := by
        simp [holders, Scheduler.retire, settle, book, Scheduler.withdraw]
      rw [pins]
      exact (perm_append_singleton r _).trans out.symm
    | freed =>
      refine shelved.drop out fun k x found => erased inv ?_
      rwa [ends.freed.1] at found
  | sent => exact shelved.keep (fun _ _ found => erase_sub found) (.refl _)
  | unpin before r expiry t after clock due found gone =>
    refine shelved.drop (r := r) ?_ fun k x held => ⟨held, ?_⟩
    · simp only [holders, found, map_append, map_cons, ← append_assoc]
      exact perm_middle
    · rintro rfl
      exact gone (PyDict.mem_keys_iff.mpr ⟨x, by rw [inv.own k x held]; exact held⟩)
  | expire before r expiry t after clock due found present =>
    have known := link.pinned_known (p := (r, expiry)) (by rw [found]; simp) present
    refine shelved.drop (r := r) ?_ fun k x held => ?_
    · simp only [holders, release, found, map_append, map_cons, ← append_assoc]
      exact perm_middle
    · exact erased inv held
  | _ => exact shelved.keep (fun _ _ h => h) (.refl _)

/-- Without a connector, every change keeps the shelves when ends are first ends. -/
theorem change [DecidableEq H] (noConnector : cfg.connector = none)
    (fresh : scope.fresh) (inv : QueueInv s) (link : Link s) (shelved : Shelved s)
    (step : Change cfg scope s s') : Shelved s' := by
  cases step with
  | move step => exact move noConnector fresh inv link shelved step
  | loop step =>
    have frame := step.frame
    refine shelved.keep (fun k r found => by rwa [frame.requests] at found) ?_
    unfold holders
    rw [frame.pinned]
    exact frame.queued.append_right _
  | advance scheduled reserved known eq =>
    rw [eq]
    exact shelved.keep (fun _ _ found => found) (.refl _)

/-- Adding a request under a fresh id keeps the link. -/
theorem addRequest (inv : QueueInv s) (shelved : Shelved s)
    (done : s.addRequest cfg req = .ok s') : Shelved s' := by
  obtain ⟨r, waiting, _, perm, rfl⟩ := addRequest_spec done
  have holders : (waiting ++ s.running ++ s.pinnedRequests.map Prod.fst).Perm
      (s.nextRef :: s.holders) := (perm.append_right _).append_right _
  have below : ∀ x ∈ s.holders, x < s.nextRef := by
    intro x member
    rcases mem_append.mp member with queued | pinned
    · exact inv.queued x queued
    · obtain ⟨p, listed, rfl⟩ := mem_map.mp pinned
      exact (inv.pinned p listed).1
  constructor
  · apply holders.nodup_iff.mpr
    exact nodup_cons.mpr ⟨fun member => absurd (below _ member) (Nat.lt_irrefl _), shelved.nodup⟩
  · intro k x found
    apply holders.mem_iff.mpr
    rw [PyDict.get?_set] at found
    split at found
    · cases found; exact mem_cons_self ..
    · exact mem_cons_of_mem _ (shelved.complete k x found)

end Shelved

namespace Engine

variable [DecidableEq H] {connector : C} {e : Engine H C M}

/-- Ids lead to the right requests in every run whose requests are added under fresh ids. -/
theorem Visited.link {allowed : Engine H C M → Op → Prop}
    (fresh : ∀ a op, allowed a op → a.FreshIds op) (visited : Visited cfg connector allowed s) :
    Link s := by
  induction visited with
  | start => exact .init cfg connector
  | add before permitted done ih => exact ih.addRequest before.queueInv (fresh _ _ permitted) done
  | reset _ _ ih => exact ih.keep (fun _ => rfl) rfl (fun _ h => h) fun _ h => h
  | change before _ step ih => exact ih.change before.queueInv step

/-- Without a connector and with first ends only, everything is on its shelf. -/
theorem Visited.shelved (noConnector : cfg.connector = none)
    (visited : Visited cfg connector (fun a op => a.FreshIds op ∧ a.NamesUnfinished op) s) :
    Shelved s := by
  induction visited with
  | start => exact .init cfg connector
  | add before _ done ih => exact ih.addRequest before.queueInv done
  | reset _ _ ih => exact ih.keep (fun _ _ h => h) (.refl _)
  | change before permitted step ih =>
    exact ih.change noConnector permitted.2.fresh before.queueInv
      (before.link fun _ _ both => both.1) step

/-- Without a connector, every known request is held exactly once: waiting, running or pinned. -/
theorem requests_held_once (noConnector : cfg.connector = none)
    (reached : Reachable cfg connector (fun a op => a.FreshIds op ∧ a.NamesUnfinished op) e) :
    (∀ k r, e.sched.requests.get? k = some r → e.sched.holders.count r = 1) ∧
      (e.sched.pinnedRequests.map Prod.fst).Nodup ∧
      (∀ p ∈ e.sched.pinnedRequests, (e.sched.objs p.1).isFinished = true) ∧
      ∀ r ∈ e.sched.waiting ++ e.sched.running, (e.sched.objs r).isFinished = false := by
  have inv := reached.queueInv
  have shelved := reached.visited.shelved noConnector
  refine ⟨?_, ?_, fun p member => (inv.pinned p member).2, ?_⟩
  · intro k r found
    exact count_eq_one_of_mem shelved.nodup (shelved.complete k r found)
  · exact (nodup_append.mp shelved.nodup).2.1
  · intro r member
    rcases mem_append.mp member with waits | runs
    · exact inv.waiting_unfinished waits
    · exact inv.running_unfinished runs

/-- An agent turn that ends by itself and is pinned. -/
def pinnedTurn : List Op :=
  [.addRequest (agentRequest 0 [1, 2, 3] 1), .schedule (atTime 0), .execute,
    .updateFromOutput (fun _ => .fin 0) (sampledOutput [(0, [7])])]

/-- The pinned request is held once, among the pins. -/
theorem requests_held_once_pinnedTurn :
    ∃ e : Engine FreeHash Unit Unit, smallConfig.connector = none ∧
      Reachable smallConfig () (fun a op => a.FreshIds op ∧ a.NamesUnfinished op) e ∧
      e.sched.pinnedRequests = [(0, .fin 2)] ∧ e.sched.requests.get? 0 = some 0 ∧
      e.sched.holders.count 0 = 1 := by
  obtain ⟨e, before, eq⟩ : ∃ e, (init smallConfig ()).run smallConfig
      (fun a op => a.FreshIds op ∧ a.NamesUnfinished op) pinnedTurn = .ok e ∧
      e.sched.pinnedRequests = [(0, .fin 2)] ∧ e.sched.requests.get? 0 = some 0 := by
    decide +kernel
  have reached : Reachable smallConfig () _ e := steps_of_run before
  exact ⟨e, rfl, reached, eq.1, eq.2, (requests_held_once rfl reached).1 0 0 eq.2⟩

/-- A finish signal that arrives after the end pins the request a second time. -/
theorem pinnedTurn_finished_again :
    ∃ e : Engine FreeHash Unit Unit, smallConfig.policy = .mimir ∧ smallConfig.connector = none ∧
      Reachable smallConfig () (fun a op => a.FreshIds op) e ∧ e.sched.requests.get? 0 = some 0 ∧
      e.sched.holders.count 0 = 2 ∧ ¬ (e.sched.pinnedRequests.map Prod.fst).Nodup := by
  obtain ⟨e, before, facts⟩ : ∃ e, (init smallConfig ()).run smallConfig (fun a op => a.FreshIds op)
      (pinnedTurn ++ [.finishRequests (fun _ => .fin 1) [0] .finishedAborted]) = .ok e ∧
      e.sched.requests.get? 0 = some 0 ∧ e.sched.holders.count 0 = 2 ∧
      ¬ (e.sched.pinnedRequests.map Prod.fst).Nodup := by
    decide +kernel
  exact ⟨e, rfl, rfl, steps_of_run before, facts⟩

end Engine

end Mimir
