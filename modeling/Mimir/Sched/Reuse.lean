import Mimir.Sched.Accounting

/-! Reusing request ids: whose blocks an id stands for, and what expiring pins leave alone. -/

namespace Mimir

open Python Scheduler KVCacheManager List

variable {H C M : Type} {r : Ref} {cfg : Config H C M} {s s' : Scheduler H C} {connector : C}
  {computed : Scheduler.Computed} {req : EngineCoreRequest} {numTokens : Int} {scope : Scope}
  {new : List (List BlockId)}

namespace Effect

/-- Whether an effect changes which blocks some request holds. -/
def movesBlocks : Effect → Bool
  | granted _ _ => true
  | released _ => true
  | _ => false

variable {x : Ref}

/-- Other effects do not change what a request holds. -/
theorem held_append {notes history : List Effect}
    (quiet : ∀ e ∈ notes, e.movesBlocks = false) : held r (notes ++ history) = held r history := by
  induction notes with
  | nil => rfl
  | cons e notes ih =>
    have here := quiet e (mem_cons_self ..)
    have later := ih fun e member => quiet e (mem_cons_of_mem _ member)
    cases e with
    | granted => cases here
    | released => cases here
    | appended => exact later
    | reported => exact later
    | durationRecorded => exact later
    | emitted => exact later
    | started => exact later

/-- What is granted to a request is held by it. -/
theorem held_granted (r : Ref) (blocks : List (List BlockId)) (history : List Effect) :
    held r (.granted r blocks :: history) = blocks.flatten ++ held r history := by
  rw [held, if_pos rfl]

/-- What is granted to another request does not matter. -/
theorem held_granted_ne (other : x ≠ r) (blocks : List (List BlockId))
    (history : List Effect) : held x (.granted r blocks :: history) = held x history := by
  rw [held, if_neg (Ne.symm other)]

/-- What another request gives back does not matter. -/
theorem held_released_ne (other : x ≠ r) (history : List Effect) :
    held x (.released r :: history) = held x history := by
  rw [held, if_neg (Ne.symm other)]

end Effect

theorem EndNote.quiet {e : Effect} (note : EndNote r e) : e.movesBlocks = false := by
  rcases note with rfl | ⟨duration, rfl⟩ | ⟨token, rfl⟩ <;> rfl

/-- The blocks a waiting request obtains are its hits and the new ones. -/
theorem mem_obtainedBlocks {newBlocks : List (List BlockId)}
    (lengths : computed.newComputedBlocks.length = newBlocks.length) {b : BlockId}
    (member : b ∈ computed.newComputedBlocks.flatten ∨ b ∈ newBlocks.flatten) :
    b ∈ (obtainedBlocks computed newBlocks).flatten := by
  unfold obtainedBlocks
  generalize computed.newComputedBlocks = hits at lengths member
  -- The two lists of lists are walked side by side.
  induction hits generalizing newBlocks with
  | nil =>
    cases newBlocks with
    | nil => rcases member with no | no <;> cases no
    | cons => simp at lengths
  | cons hit hits ih =>
    cases newBlocks with
    | nil => simp at lengths
    | cons new news =>
      have sizes : hits.length = news.length := by simpa using lengths
      simp only [flatten_cons, mem_append, zipWith_cons_cons] at member ⊢
      rcases member with (here | there) | (here | there)
      · exact .inl (.inl here)
      · exact .inr (ih sizes (.inl there))
      · exact .inl (.inr here)
      · exact .inr (ih sizes (.inr there))

section Definitions

/-- Blocks and counts are kept under known ids, and the blocks of a request were obtained for it. -/
structure Owned (s : Scheduler H C) : Prop where
  known : ∀ m ∈ s.kvCacheManager.managers, ∀ id,
    (m.blocksOf id ≠ [] ∨ id ∈ m.numCachedBlock.keys) → id ∈ s.requests.keys
  obtained : ∀ id r, s.requests.get? id = some r → ∀ b ∈ listed s.kvCacheManager.managers id,
    b ≠ nullBlock → b ∈ Effect.held r s.history

/-- No group counts cached blocks of a waiting request. -/
def Unslotted (s : Scheduler H C) : Prop :=
  ∀ r ∈ s.waiting, ∀ m ∈ s.kvCacheManager.managers,
    (s.objs r).requestId ∉ m.numCachedBlock.keys

end Definitions

namespace Owned

/-- A change for one id, told apart into the other ids and this one. -/
theorem aside (owned : Owned s) (id : RequestId)
    (soles : List.Forall₂ (Manager.Sole id) s.kvCacheManager.managers s'.kvCacheManager.managers)
    (requests : ∀ k, k ≠ id → s'.requests.get? k = s.requests.get? k)
    (held : ∀ k x, k ≠ id → s.requests.get? k = some x →
      Effect.held x s'.history = Effect.held x s.history)
    (known : ∀ m ∈ s'.kvCacheManager.managers,
      (m.blocksOf id ≠ [] ∨ id ∈ m.numCachedBlock.keys) → id ∈ s'.requests.keys)
    (obtained : ∀ x, s'.requests.get? id = some x → ∀ b ∈ listed s'.kvCacheManager.managers id,
      b ≠ nullBlock → b ∈ Effect.held x s'.history) : Owned s' where
  known m' member k kept := by
    by_cases mine : k = id
    · subst mine
      exact known m' member kept
    · obtain ⟨m, earlier, sole⟩ := exists_of_forall₂ soles member
      rw [sole.blocks k mine, PyDict.mem_keys_iff, sole.cached k mine, ← PyDict.mem_keys_iff] at kept
      have before := owned.known m earlier k kept
      rw [PyDict.mem_keys_iff] at before ⊢
      rw [requests k mine]
      exact before
  obtained k x found b member real := by
    by_cases mine : k = id
    · subst mine
      exact obtained x found b member real
    · rw [requests k mine] at found
      rw [listed_eq soles fun m m' sole => sole.blocks k mine] at member
      rw [held k x mine found]
      exact owned.obtained k x found b member real

/-- A change that leaves blocks and ids alone. -/
theorem same (owned : Owned s) (kv : s'.kvCacheManager.managers = s.kvCacheManager.managers)
    (requests : s'.requests = s.requests)
    (held : ∀ x, Effect.held x s'.history = Effect.held x s.history) : Owned s' where
  known := by rw [kv, requests]; exact owned.known
  obtained id r found b member real := by
    rw [requests] at found
    rw [kv] at member
    rw [held]
    exact owned.obtained id r found b member real

/-- A fresh cache keeps nothing. -/
theorem init (cfg : Config H C M) (connector : C) : Owned (init cfg connector) where
  known m member id kept := by
    obtain ⟨i, _, rfl⟩ := mem_mapIdx.mp member
    rcases kept with nonempty | counted
    · exact absurd rfl nonempty
    · cases counted
  obtained id r found := by cases found

/-- Under a fresh id nothing is kept, so a new request starts with nothing. -/
theorem addRequest (owned : Owned s) (fresh : FreshId s req.requestId)
    (done : s.addRequest cfg req = .ok s') : Owned s' := by
  obtain ⟨r, waiting, _, _, rfl⟩ := addRequest_spec done
  have unkept : ∀ m ∈ s.kvCacheManager.managers,
      ¬ (m.blocksOf req.requestId ≠ [] ∨ req.requestId ∈ m.numCachedBlock.keys) :=
    fun m member kept => fresh.1 (owned.known m member _ kept)
  refine owned.aside req.requestId (forall₂_same.mpr fun m _ => .refl _ m)
    (fun k other => PyDict.get?_set_ne _ _ other) (fun _ _ _ _ => rfl)
    (fun m member kept => absurd kept (unkept m member)) ?_
  intro x _ b member _
  obtain ⟨m, earlier, listed⟩ := mem_flatMap.mp member
  refine absurd (.inl fun empty => ?_) (unkept m earlier)
  rw [empty] at listed
  cases listed

variable [DecidableEq H]

/-- After a request gave its blocks back, its id stands for none. -/
theorem free (owned : Owned s) (balanced : s.kvCacheManager.Balanced cfg.kv) (r : Ref)
    (own : ∀ k x, s.requests.get? k = some x → (s.objs x).requestId = k)
    (kv : s'.kvCacheManager = s.kvCacheManager.free (s.objs r).requestId)
    (requests : ∀ k, k ≠ (s.objs r).requestId → s'.requests.get? k = s.requests.get? k)
    (history : s'.history = .released r :: s.history) : Owned s' := by
  obtain ⟨_, aside, freed⟩ := balanced.free (s.objs r).requestId
  rw [← kv] at aside freed
  refine owned.aside (s.objs r).requestId aside.soles requests ?_ ?_ ?_
  · intro k x other found
    have apart : x ≠ r := by
      rintro rfl
      exact other (own k x found).symm
    rw [history, Effect.held_released_ne apart]
  · intro m member kept
    obtain ⟨_, _, here⟩ := exists_of_forall₂ freed member
    rcases kept with nonempty | counted
    · exact absurd here.noBlocks nonempty
    · rw [PyDict.mem_keys_iff, here.uncached] at counted
      obtain ⟨_, no⟩ := counted
      cases no
  · intro x _ b member _
    obtain ⟨m, known, listed⟩ := mem_flatMap.mp member
    obtain ⟨_, _, here⟩ := exists_of_forall₂ freed known
    rw [here.noBlocks] at listed
    cases listed

/-- Forgetting a request together with its blocks. -/
theorem release (owned : Owned s) (balanced : s.kvCacheManager.Balanced cfg.kv)
    (own : ∀ k x, s.requests.get? k = some x → (s.objs x).requestId = k) (r : Ref) :
    Owned (s.release r) :=
  owned.free balanced r own rfl (fun _ other => PyDict.get?_erase_ne _ other) rfl

/-- Caching the blocks of a known request leaves requests their own blocks. -/
theorem cached {req : Request H} (owned : Owned s)
    (balanced : s.kvCacheManager.Balanced cfg.kv) (found : s.requests.get? req.requestId = some r)
    (done : s.kvCacheManager.cacheBlocks cfg.kv req numTokens = .ok s'.kvCacheManager)
    (requests : s'.requests = s.requests) (history : s'.history = s.history) : Owned s' := by
  obtain ⟨_, aside, lists⟩ := balanced.cacheBlocks done
  refine owned.aside _ aside.soles (fun _ _ => by rw [requests]) (fun _ _ _ _ => by rw [history]) ?_ ?_
  · intro m _ _
    rw [requests]
    exact PyDict.mem_keys_iff.mpr ⟨r, found⟩
  · intro x known b member real
    rw [requests] at known
    rw [history]
    refine owned.obtained _ x known b ?_ real
    rwa [listed_eq lists fun m m' same => by unfold Manager.blocksOf; rw [same]] at member

/-- Every elementary change outside the loops leaves requests their own blocks. -/
theorem move (balanced : s.kvCacheManager.Balanced cfg.kv) (inv : QueueInv s)
    (owned : Owned s) (step : Move cfg scope s s') : Owned s' := by
  cases step with
  | retire r req b notes outcome ends =>
    -- Only the notes of the end precede what becomes of the blocks.
    have withdrawn : Owned ((s.withdraw r req).book b notes) :=
      owned.same rfl rfl fun x => Effect.held_append fun e member => (ends.noted e member).quiet
    cases outcome with
    | pinned => exact withdrawn.same rfl rfl fun _ => rfl
    | delayed => exact withdrawn
    | freed =>
      have ids : ∀ x, (Function.update s.objs r req x).requestId = (s.objs x).requestId :=
        update_field (fun req => req.requestId) ends.ended.requestId
      exact withdrawn.release balanced (fun k x found => (ids x).trans (inv.own k x found)) r
  | sent r => exact owned.release balanced inv.own r
  | expire before r expiry t after =>
    have unpinned : Owned { s with pinnedRequests := before ++ after } :=
      owned.same rfl rfl fun _ => rfl
    exact unpinned.release balanced inv.own r
  | cache r req numTokens kv touched known runs grown cached =>
    exact owned.cached balanced (by rw [grown.requestId]; exact known) cached rfl rfl
  | adjust r req notes touched adjusted => cases adjusted <;> exact owned.same rfl rfl fun _ => rfl
  | _ => exact owned.same rfl rfl fun _ => rfl

/-- Slots granted to a queued request are its own. -/
theorem grant {args : KVCacheManager.AllocArgs} (inv : QueueInv s) (link : Link s) (owned : Owned s)
    (queued : r ∈ s.waiting ++ s.running)
    (granted : KVCacheManager.Granted cfg.kv s.kvCacheManager (s.objs r) args new s'.kvCacheManager)
    (requests : s'.requests = s.requests)
    (others : ∀ x, x ≠ r → Effect.held x s'.history = Effect.held x s.history)
    (more : ∀ b, b ∈ Effect.held r s.history ∨ b ∈ (args.newComputedBlocks.getD []).flatten ∨
      b ∈ new.flatten → b ∈ Effect.held r s'.history) : Owned s' := by
  have found := link.queued r queued
  refine owned.aside (s.objs r).requestId granted.aside.soles (fun _ _ => by rw [requests]) ?_ ?_ ?_
  · exact fun k x other known => others x (inv.apart known other)
  · intro m _ _
    rw [requests]
    exact PyDict.mem_keys_iff.mpr ⟨r, found⟩
  · intro x known b member real
    rw [requests, found] at known
    cases known
    apply more
    rcases granted.origin b member real with old | hit | fresh
    · exact .inl (owned.obtained _ r found b old real)
    · exact .inr (.inl hit)
    · exact .inr (.inr fresh)

/-- A waiting request obtains its hits and the new blocks. -/
theorem admitted {n encoderTokens : Int} (nodup : ∀ r, (s.objs r).blockHashes.Nodup)
    (balanced : s.kvCacheManager.Balanced cfg.kv) (inv : QueueInv s) (link : Link s)
    (owned : Owned s) (waits : r ∈ s.waiting)
    (grants : s.Grants cfg r computed connector n encoderTokens new s'.kvCacheManager)
    (requests : s'.requests = s.requests)
    (held : ∀ x, Effect.held x s'.history =
      Effect.held x (.granted r (obtainedBlocks computed new) :: s.history)) : Owned s' := by
  have granted := grants.granted nodup balanced
  have lengths : computed.newComputedBlocks.length = new.length := by
    rw [(computedTokens_lookup balanced grants.asked).length, granted.count, balanced.groups]
  refine owned.grant inv link (mem_append_left _ waits) granted requests
    (fun x other => (held x).trans (Effect.held_granted_ne other _ _)) fun b origin => ?_
  rw [held, Effect.held_granted, mem_append]
  exact origin.symm.imp (mem_obtainedBlocks lengths) id

/-- Every change inside the loops leaves requests their own blocks. -/
theorem loopMove (nodup : ∀ r, (s.objs r).blockHashes.Nodup)
    (balanced : s.kvCacheManager.Balanced cfg.kv) (inv : QueueInv s) (link : Link s)
    (owned : Owned s) (step : LoopMove cfg s s') : Owned s' := by
  cases step with
  | allocFail r args kv queued alloc =>
    obtain ⟨_, aside, skipped⟩ := allocateSlots_refused balanced alloc
    refine owned.aside _ aside.soles (fun _ _ => rfl) (fun _ _ _ _ => rfl) ?_ ?_
    · intro m _ _
      exact PyDict.mem_keys_iff.mpr ⟨r, link.queued r queued⟩
    · intro x found b member real
      refine owned.obtained _ x found b ?_ real
      obtain ⟨m', known, listed⟩ := mem_flatMap.mp member
      obtain ⟨m, earlier, here⟩ := exists_of_forall₂ skipped known
      exact mem_flatMap.mpr ⟨m, earlier, here.kept listed real⟩
  | preempt victim =>
    exact owned.free balanced victim inv.own rfl (fun _ _ => rfl) rfl
  | run r n newBlocks kv spec member nonzero bound short least trimmed alloc =>
    have granted := allocateSlots_granted balanced (nodup r)
      (fun hits given => (by cases given)) alloc
    refine owned.grant inv link (mem_append_right _ member) granted rfl
      (fun x other => Effect.held_granted_ne other _ _) fun b origin => ?_
    show b ∈ Effect.held r (.granted r newBlocks :: s.history)
    rw [Effect.held_granted, mem_append]
    rcases origin with old | hit | fresh
    · exact .inr old
    · cases hit
    · exact .inl fresh
  | wake => exact owned.same rfl rfl fun _ => rfl
  | arrive r blockIds received kv arrived waits status connected obtained count cached =>
    exact owned.cached balanced (link.queued r (mem_append_left _ waits)) cached rfl rfl
  | start r computed connector informed n encoderTokens numCached newBlocks kv waiting waits status
      starts =>
    exact owned.admitted nodup balanced inv link (waits.mem_iff.mpr (mem_cons_self ..))
      starts.toGrants rfl fun _ => rfl
  | park r computed connector informed encoderTokens newBlocks kv waiting waits perm parks =>
    exact owned.admitted nodup balanced inv link waits parks.toGrants rfl fun _ => rfl

end Owned

namespace Unslotted

/-- A change for one id, told apart into the other ids and this one. -/
theorem aside (unslotted : Unslotted s) (id : RequestId)
    (soles : List.Forall₂ (Manager.Sole id) s.kvCacheManager.managers s'.kvCacheManager.managers)
    (ids : ∀ x, (s'.objs x).requestId = (s.objs x).requestId)
    (waiting : ∀ x ∈ s'.waiting, (s.objs x).requestId ≠ id → x ∈ s.waiting)
    (own : ∀ x ∈ s'.waiting, (s.objs x).requestId = id → ∀ m ∈ s'.kvCacheManager.managers,
      id ∉ m.numCachedBlock.keys) : Unslotted s' := by
  intro x waits m' member
  rw [ids]
  by_cases mine : (s.objs x).requestId = id
  · rw [mine]
    exact own x waits mine m' member
  · obtain ⟨m, earlier, sole⟩ := exists_of_forall₂ soles member
    have before := unslotted x (waiting x waits mine) m earlier
    rwa [PyDict.mem_keys_iff, sole.cached _ mine, ← PyDict.mem_keys_iff]

/-- A change that leaves blocks alone and adds nothing to the waiting queue. -/
theorem same (unslotted : Unslotted s) (kv : s'.kvCacheManager.managers = s.kvCacheManager.managers)
    (ids : ∀ x, (s'.objs x).requestId = (s.objs x).requestId)
    (waiting : ∀ x ∈ s'.waiting, x ∈ s.waiting) : Unslotted s' := by
  intro x waits
  rw [kv, ids]
  exact unslotted x (waiting x waits)

/-- Under a fresh id nothing is kept, so a new request starts with nothing. -/
theorem addRequest (inv : QueueInv s) (owned : Owned s)
    (unslotted : Unslotted s) (fresh : FreshId s req.requestId)
    (done : s.addRequest cfg req = .ok s') : Unslotted s' := by
  obtain ⟨r, waiting, new, perm, rfl⟩ := addRequest_spec done
  intro x waits m member
  show (Function.update s.objs s.nextRef r x).requestId ∉ m.numCachedBlock.keys
  rcases mem_cons.mp (perm.mem_iff.mp waits) with rfl | old
  · rw [Function.update_self, new.sent]
    exact fun counted => fresh.1 (owned.known m member _ (.inr counted))
  · rw [Function.update_of_ne (Nat.ne_of_lt (inv.queued x (mem_append_left _ old)))]
    exact unslotted x old m member

variable [DecidableEq H]

/-- A freed request is counted nowhere. -/
theorem free (unslotted : Unslotted s) (balanced : s.kvCacheManager.Balanced cfg.kv)
    (id : RequestId) (kv : s'.kvCacheManager = s.kvCacheManager.free id)
    (ids : ∀ x, (s'.objs x).requestId = (s.objs x).requestId)
    (waiting : ∀ x ∈ s'.waiting, (s.objs x).requestId ≠ id → x ∈ s.waiting) : Unslotted s' := by
  obtain ⟨_, aside, freed⟩ := balanced.free id
  rw [← kv] at aside freed
  refine unslotted.aside id aside.soles ids waiting fun _ _ _ m member => ?_
  obtain ⟨_, _, here⟩ := exists_of_forall₂ freed member
  rw [PyDict.mem_keys_iff, here.uncached]
  rintro ⟨_, no⟩
  cases no

/-- Every elementary change outside the loops leaves waiting requests without slots. -/
theorem move (balanced : s.kvCacheManager.Balanced cfg.kv) (inv : QueueInv s)
    (link : Link s) (unslotted : Unslotted s) (step : Move cfg scope s s') : Unslotted s' := by
  have ids := step.requestId
  cases step with
  | retire r req b notes outcome ends =>
    have waiting : ∀ x ∈ s.waiting.filter (fun r' => !decide (r' = r)), x ∈ s.waiting :=
      fun x waits => (mem_filter.mp waits).1
    cases outcome with
    | pinned => exact unslotted.same rfl ids waiting
    | delayed => exact unslotted.same rfl ids waiting
    | freed => exact unslotted.free balanced _ ends.freed.2 ids fun x waits _ => waiting x waits
  | sent =>
    exact unslotted.free balanced _ rfl ids fun _ waits _ => waits
  | expire =>
    exact unslotted.free balanced _ rfl ids fun _ waits _ => waits
  | reorder waiting perm => exact unslotted.same rfl ids fun x waits => perm.mem_iff.mp waits
  | cache r req numTokens kv touched known runs grown cached =>
    -- The request runs, so no waiting request has its id.
    obtain ⟨_, aside, _⟩ := balanced.cacheBlocks cached
    refine unslotted.aside _ aside.soles ids (fun _ waits _ => waits) fun x waits same => ?_
    have itself := link.queued x (mem_append_left _ waits)
    rw [same, grown.requestId, known] at itself
    cases itself
    have queued := inv.waitingStatus r waits
    rw [runs] at queued
    cases queued
  | _ => exact unslotted.same rfl ids fun _ waits => waits

/-- Blocks of a request that is counted nowhere cannot be cached. -/
theorem cacheBlocks_eq {config : KVConfig} {kv kv' : KVCacheManager H} {r : Request H}
    (some : kv.managers ≠ []) (uncounted : ∀ m ∈ kv.managers, r.requestId ∉ m.numCachedBlock.keys)
    (done : kv.cacheBlocks config r numTokens = .ok kv') : kv' = kv := by
  rcases cacheBlocks_cases done with ⟨_, rfl⟩ | ⟨_, cached⟩
  · rfl
  · rcases kv with ⟨pool, managers⟩
    cases managers with
    | nil => exact absurd rfl some
    | cons m =>
      -- The first group already misses the count.
      obtain ⟨⟨m₁, p₁⟩, first, _⟩ := bind_eq_ok.mp cached
      obtain ⟨counted, found, _⟩ := Manager.cacheBlocks_cases first
      exact absurd (PyDict.mem_keys_iff.mpr ⟨counted, found⟩) (uncounted m (mem_cons_self ..))

/-- Every change inside the loops leaves waiting requests without slots, if nothing loads later. -/
theorem loopMove (loads : cfg.LoadsInStep) (nodup : ∀ r, (s.objs r).blockHashes.Nodup)
    (balanced : s.kvCacheManager.Balanced cfg.kv) (inv : QueueInv s) (link : Link s)
    (unslotted : Unslotted s) (step : LoopMove cfg s s') : Unslotted s' := by
  have ids : ∀ x, (s'.objs x).requestId = (s.objs x).requestId :=
    fun x => Request.requestId_eq (step.frame.fixed x)
  cases step with
  | allocFail r args kv queued alloc =>
    obtain ⟨_, _, skipped⟩ := allocateSlots_refused balanced alloc
    intro x waits m' member
    obtain ⟨m, earlier, here⟩ := exists_of_forall₂ skipped member
    rw [here.counts]
    exact unslotted x waits m earlier
  | preempt victim running waiting cache runs waits =>
    refine unslotted.free balanced _ rfl ids fun x member other => ?_
    refine (mem_cons.mp (waits.mem_iff.mp member)).resolve_left ?_
    rintro rfl
    exact other rfl
  | run r n newBlocks kv spec member nonzero bound short least trimmed alloc =>
    have granted := allocateSlots_granted balanced (nodup r)
      (fun hits given => (by cases given)) alloc
    refine unslotted.aside _ granted.aside.soles ids (fun _ waits _ => waits) fun x waits same => ?_
    have eq := link.queued_inj (mem_append_left _ waits) (mem_append_right _ member) same
    exact absurd member (eq ▸ inv.disjoint waits)
  | wake r waits => exact unslotted.same rfl ids fun _ waits => waits
  | arrive r blockIds received kv arrived waits status connected held count cached =>
    have some : s.kvCacheManager.managers ≠ [] := by
      intro none
      unfold getBlocks at held
      rw [none] at held
      cases held
    have eq := cacheBlocks_eq some (unslotted r waits) cached
    exact unslotted.same (congrArg managers eq) ids fun _ waits => waits
  | start r computed connector informed n encoderTokens numCached newBlocks kv waiting waits status
      starts =>
    have granted := starts.granted nodup balanced
    have nodup : (r :: waiting).Nodup := waits.nodup_iff.mp inv.waitingNodup
    have within : ∀ x ∈ waiting, x ∈ s.waiting := fun x member =>
      waits.mem_iff.mpr (mem_cons_of_mem _ member)
    refine unslotted.aside _ granted.aside.soles ids (fun x member _ => within x member)
      fun x member same => ?_
    -- The started request is not waiting any more.
    have eq : x = r := link.queued_inj (mem_append_left _ (within x member))
      (mem_append_left _ (waits.mem_iff.mpr (mem_cons_self ..))) same
    exact absurd (eq ▸ member) (nodup_cons.mp nodup).1
  | park r computed connector informed encoderTokens newBlocks kv waiting waits perm parks =>
    exact (parks.never loads).elim

end Unslotted

section Finish

/-- The connector's own hook raised. -/
def ConnectorRaises (cfg : Config H C M) (e : Err) : Prop :=
  ∃ ops c out, cfg.connector = some ops ∧ ops.buildConnectorMeta c out = .error e

/-- `_update_after_schedule` raises nothing about saving blocks. -/
theorem Scheduler.updateAfterSchedule_sat (items : List (RequestId × Int)) (s : Scheduler H C) :
    Sat (updateAfterSchedule cfg items s) (fun _ => True) Unrelated := by
  have reserve : ∀ (ids : List RequestId) (s : Scheduler H C),
      Sat (reservePlaceholders ids s) (fun _ => True) Unrelated := by
    intro ids
    induction ids with
    | nil => exact fun _ => Sat.ok trivial
    | cons id rest ih =>
      exact fun s => Sat.found (by simp [Unrelated]) fun _ _ => ih _
  refine Sat.bind (Q := fun _ => True) ?_ fun s₁ _ => ?_
  · induction items generalizing s with
    | nil => exact Sat.ok trivial
    | cons item rest ih =>
      exact Sat.found (by simp [Unrelated]) fun _ _ => ih _
  · split
    · exact reserve _ s₁
    · exact Sat.ok trivial

/-- The end of `schedule` raises nothing about saving blocks, unless the connector does. -/
theorem Scheduler.finishSchedule_sat (f : Frame H C) :
    Sat (finishSchedule cfg f) (fun _ => True) (fun e => Unrelated e ∨ ConnectorRaises cfg e) := by
  have plain : ∀ {α : Type} {x : Except Err α}, Sat x (fun _ => True) Unrelated →
      Sat x (fun _ => True) (fun e => Unrelated e ∨ ConnectorRaises cfg e) :=
    fun sat => sat.mono (fun _ h => h) fun _ other => .inl other
  refine Sat.bind (plain ?_) fun f₁ _ => Sat.bind (plain ?_) fun _ _ =>
    Sat.bind (plain ?_) fun out _ => Sat.bind (Q := fun _ => True) ?_ fun attached _ =>
    Sat.bind (plain ?_) fun _ _ => Sat.ok trivial
  · unfold putBackSkipped
    split
    · exact Sat.ok trivial
    · exact Sat.bind ((queuePrependAll_sat _ _ _ _).mono (fun _ h => h) fun _ h => .of_queue h)
        fun _ _ => Sat.ok trivial
  · refine Sat.guarded (by simp [Unrelated]) fun _ => ?_
    refine Sat.guarded (by simp [Unrelated]) fun _ => ?_
    refine Sat.guarded (by simp [Unrelated]) fun _ => ?_
    exact (Sat.require fun _ => by simp [Unrelated]).mono (fun _ _ => trivial) fun _ h => h
  · have rows : ∀ resumed r,
        Sat (cachedRequestData cfg f₁ resumed r) (fun _ => True) Unrelated := by
      intro resumed r
      refine Sat.found (by simp [Unrelated]) fun _ _ => ?_
      exact Sat.found (by simp [Unrelated]) fun _ _ => Sat.ok trivial
    refine Sat.bind (Q := fun _ => True) ?_ fun _ _ => Sat.bind (Sat.mapM fun r _ => ?_) fun _ _ =>
      Sat.bind (Q := fun _ => True) ?_ fun _ _ => Sat.ok trivial
    · unfold commonPrefixBlocks
      split
      · exact Sat.ok trivial
      · exact Sat.guarded (by simp [Unrelated]) fun _ => Sat.ok trivial
    · exact Sat.found (by simp [Unrelated]) fun _ _ => Sat.ok trivial
    · refine Sat.bind (Sat.mapM fun r _ => rows _ r) fun _ _ => ?_
      exact Sat.bind (Sat.mapM fun r _ => rows _ r) fun _ _ => Sat.ok trivial
  · unfold attachConnectorMeta
    split
    · exact Sat.ok trivial
    · rename_i ops connected
      refine Sat.bind (Q := fun _ => True) ?_ fun _ _ => Sat.ok trivial
      exact Sat.intro (fun _ _ => trivial) fun e raised => .inr ⟨ops, _, _, connected, raised⟩
  · exact updateAfterSchedule_sat _ _

end Finish

namespace Engine

variable [DecidableEq H] {e : Engine H C M}
  {allowed : Engine H C M → Op → Prop}

section

variable (acyclic : cfg.hasher.Acyclic)

include acyclic

section

variable (fresh : ∀ a op, allowed a op → a.FreshIds op)

include fresh

/-- In every run with fresh ids, requests have only their own blocks. -/
theorem Visited.owned (visited : Visited cfg connector allowed s) : Owned s := by
  induction visited with
  | start => exact .init cfg connector
  | add _ permitted done ih => exact ih.addRequest (fresh _ _ permitted) done
  | reset _ _ ih => exact ih.same rfl rfl fun _ => rfl
  | change before _ step ih =>
    have balanced := before.balanced acyclic
    cases step with
    | move step => exact ih.move balanced before.queueInv step
    | loop step =>
      exact ih.loopMove (fun r => (before.chained r).nodup acyclic) balanced before.queueInv
        (before.link fresh) step
    | advance scheduled reserved known eq => rw [eq]; exact ih.same rfl rfl fun _ => rfl

omit fresh in
/-- If blocks are loaded within the step, waiting requests have no slots. -/
theorem Visited.unslotted (loads : cfg.LoadsInStep)
    (fresh : ∀ a op, allowed a op → a.FreshIds op) (visited : Visited cfg connector allowed s) :
    Unslotted s := by
  induction visited with
  | start => intro r waits; cases waits
  | add before permitted done ih =>
    exact ih.addRequest before.queueInv (before.owned acyclic fresh) (fresh _ _ permitted) done
  | reset _ _ ih => exact ih.same rfl (fun _ => rfl) fun _ waits => waits
  | change before _ step ih =>
    have balanced := before.balanced acyclic
    cases step with
    | move step => exact ih.move balanced before.queueInv (before.link fresh) step
    | loop step =>
      exact ih.loopMove loads (fun r => (before.chained r).nodup acyclic) balanced before.queueInv
        (before.link fresh) step
    | advance scheduled reserved known eq =>
      rw [eq]
      exact ih.same rfl (fun _ => rfl) fun _ waits => waits

variable {id : RequestId} {a : Engine H C M}

/-- A move of expiring pins leaves unfinished requests known, with their blocks. -/
theorem Visited.spared_move (visited : Visited cfg connector allowed s)
    {now : PyFloat} (step : Move cfg (expiryScope now) s s')
    (known : s.requests.get? id = some r) (unfinished : (s.objs r).isFinished = false) :
    s'.requests.get? id = some r ∧
      s'.kvCacheManager.getBlocks id = s.kvCacheManager.getBlocks id := by
  cases step with
  | book => exact ⟨known, rfl⟩
  | reorder => exact ⟨known, rfl⟩
  | unpin => exact ⟨known, rfl⟩
  | expire before x expiry t after clock due found present finished =>
    -- The pinned request is finished, so its id is not the one of an unfinished request.
    have pinned : (x, expiry) ∈ s.pinnedRequests := by rw [found]; simp
    have itself := (visited.link fresh).pinned_known pinned present
    have other : id ≠ (s.objs x).requestId := by
      rintro rfl
      rw [known] at itself
      cases itself
      rw [finished] at unfinished
      cases unfinished
    refine ⟨(PyDict.get?_erase_ne _ other).trans known, ?_⟩
    obtain ⟨_, aside, _⟩ := (visited.balanced acyclic).free (s.objs x).requestId
    exact getBlocks_eq aside.soles other
  | adjust x req notes touched => exact touched.elim
  | cache x req numTokens kv touched => exact touched.elim
  | retire x req b notes outcome ends => exact ends.touched.elim
  | sent x listed => exact listed.elim

/-- Expiring pins leaves unfinished requests known, with their blocks. -/
theorem Visited.spared (visited : Visited cfg connector allowed s)
    (env : ScheduleEnv) (permitted : allowed a (.schedule env))
    (moves : Moves cfg (expiryScope env.now) s s')
    (known : s.requests.get? id = some r) (unfinished : (s.objs r).isFinished = false) :
    s'.requests.get? id = some r ∧
      s'.kvCacheManager.getBlocks id = s.kvCacheManager.getBlocks id := by
  -- The induction is on the number of pins that expire.
  induction moves with
  | refl => exact ⟨known, rfl⟩
  | tail before last ih =>
    have here := visited.changes permitted (Moves.changes before)
    have same : ((_ : Scheduler H C).objs r) = s.objs r :=
      Moves.objs_frame before fun touched => touched.elim
    obtain ⟨found, blocks⟩ := here.spared_move acyclic fresh last ih.1 (by rw [same]; exact unfinished)
    exact ⟨found, blocks.trans ih.2⟩

end

/-- What a waiting request would save, it can save. -/
theorem Visited.savable (verified : KVCacheManager.Verified cfg.kv)
    (loads : cfg.LoadsInStep) (fresh : ∀ a op, allowed a op → a.FreshIds op)
    (visited : Visited cfg connector allowed s) (waits : r ∈ s.waiting)
    {answered : C}
    (asked : s.computedTokens cfg r = .ok (some computed, answered)) :
    KVCacheManager.Savable s.kvCacheManager.managers (s.objs r).requestId
      computed.newComputedBlocks := by
  have none : ∀ hit ∈ s.kvCacheManager.createEmptyBlockList, hit = [] := by
    intro hit member
    obtain ⟨_, _, rfl⟩ := mem_map.mp member
    rfl
  rcases computedTokens_lookedUp asked with empty | ⟨numLocal, found⟩
  · rw [empty]
    exact .inl none
  · unfold getComputedBlocks at found
    split at found
    · rw [← (Prod.mk.inj (Except.ok.inj found)).1]
      exact .inl none
    · -- With hits there is no cross-attention, and a waiting request is counted nowhere.
      rename_i enabled
      simp only [Bool.or_eq_true, Bool.not_eq_true', not_or, Bool.not_eq_false] at enabled
      exact .inr fun m member =>
        ⟨findLongestHit_kind verified enabled.1 found
          ((visited.balanced acyclic).spec_mem member),
        visited.unslotted acyclic loads fresh r waits m member⟩

/-- `schedule` raises nothing about saving computed blocks, unless the connector's own hook does. -/
theorem Visited.schedule_raises (verified : KVCacheManager.Verified cfg.kv) (loads : cfg.LoadsInStep)
    (fresh : ∀ a op, allowed a op → a.FreshIds op) (visited : Visited cfg connector allowed s)
    {env : ScheduleEnv} (permitted : allowed a (.schedule env)) {err : Err}
    (raised : s.schedule cfg env = .error err) (site : err.site = .saveNewComputedBlocks) :
    ConnectorRaises cfg err := by
  rcases bind_eq_error.mp raised with early | ⟨f, _, late⟩
  · -- An allocation in the loops raised, in a state the run passes through.
    obtain ⟨s₁, mid, moves, steps, alloc⟩ := (scheduleLoops_sat s).fail_of_error early site
    have expired := visited.changes permitted (Moves.changes moves)
    have loops : Changes cfg (a.scope (.schedule env)) s₁ mid.flat := LoopSteps.changes trivial steps
    have here := expired.changes permitted loops
    have balanced := here.balanced acyclic
    exfalso
    cases alloc with
    | running r n member raised =>
      have sat : Sat (mid.sched.kvCacheManager.allocateSlots cfg.kv (mid.sched.objs r)
          (runningAllocArgs cfg n)) (fun _ => True) Unrelated :=
        allocateSlots_sat balanced (.inl fun hit none => by cases none)
      exact sat.fail_of_error raised site
    | waiting r computed answered n encoderTokens front asked raised =>
      have waits : r ∈ mid.flat.waiting := mem_append_right _ (mem_of_mem_head? front)
      have savable := here.savable acyclic verified loads fresh waits asked
      exact (allocateSlots_sat balanced savable).fail_of_error raised site
  · exact ((finishSchedule_sat f).fail_of_error late).resolve_left fun other => other site

end

/-- With ids fresh among the known and the pinned requests, an id never stands for foreign blocks. -/
theorem blocks_obtained_for_owner (acyclic : cfg.hasher.Acyclic)
    (verified : KVCacheManager.Verified cfg.kv)
    (reached : Reachable cfg connector (fun a op => a.FreshIds op) e) :
    (∀ r ∈ e.sched.waiting ++ e.sched.running,
      e.sched.requests.get? (e.sched.objs r).requestId = some r) ∧
    (∀ id r, e.sched.requests.get? id = some r → ∀ m ∈ e.sched.kvCacheManager.managers,
      ∀ b ∈ m.blocksOf id, b ≠ nullBlock → b ∈ Effect.held r e.sched.history) ∧
    (∀ now s', e.sched.mimirExpirePins now = .ok s' → ∀ id r, e.sched.requests.get? id = some r →
      (e.sched.objs r).isFinished = false → s'.requests.get? id = some r ∧
        s'.kvCacheManager.getBlocks id = e.sched.kvCacheManager.getBlocks id) ∧
    (cfg.LoadsInStep → ∀ env err, e.sched.schedule cfg env = .error err →
      err.site = .saveNewComputedBlocks → ConnectorRaises cfg err) := by
  have visited := reached.visited
  refine ⟨(visited.link fun _ _ fresh => fresh).queued, ?_, ?_, ?_⟩
  · intro id r known m member b listed real
    exact (visited.owned acyclic fun _ _ fresh => fresh).obtained id r known b
      (mem_flatMap.mpr ⟨m, member, listed⟩) real
  · intro now s' expired id r known unfinished
    have moves : Moves cfg (expiryScope now) e.sched s' :=
      (mimirExpirePins_sat now e.sched).post_of_ok expired
    exact visited.spared acyclic (fun _ _ fresh => fresh) (a := e) ⟨now, fun _ => true⟩ trivial moves
      known unfinished
  · intro loads env err raised site
    exact visited.schedule_raises acyclic verified loads (fun _ _ fresh => fresh) (a := e) trivial
      raised site

/-- Two pinned turns; when the first pin has expired, its id returns and runs beside the second. -/
def besidePin : List Op :=
  pinnedTurn ++ [.addRequest (agentRequest 1 [1, 2, 9] 1), .schedule (atTime 3), .execute,
    .updateFromOutput (fun _ => .fin 3) (sampledOutput [(1, [7])]),
    .addRequest (plainRequest 0 [1, 2, 5] 4), .schedule (atTime 4)]

/-- The returned id stands for the new request's blocks, and keeps them when the other pin expires. -/
theorem blocks_obtained_for_owner_besidePin :
    ∃ (e : Engine FreeHash Unit Unit) (s' : Scheduler FreeHash Unit),
      smallConfig.hasher.Acyclic ∧ KVCacheManager.Verified smallConfig.kv ∧
      Reachable smallConfig () (fun a op => a.FreshIds op) e ∧
      e.sched.requests.get? 0 = some 2 ∧ 4 ∈ Effect.held 2 e.sched.history ∧
      e.sched.mimirExpirePins (.fin 5) = .ok s' ∧ s'.requests.get? 0 = some 2 ∧
      s'.kvCacheManager.getBlocks 0 = [[1, 4]] := by
  obtain ⟨e, before, s', expired, known, unfinished, blocks, m, member, listed⟩ : ∃ e,
      (init smallConfig ()).run smallConfig (fun a op => a.FreshIds op) besidePin = .ok e ∧
      ∃ s', e.sched.mimirExpirePins (.fin 5) = .ok s' ∧ e.sched.requests.get? 0 = some 2 ∧
        (e.sched.objs 2).isFinished = false ∧ e.sched.kvCacheManager.getBlocks 0 = [[1, 4]] ∧
        ∃ m ∈ e.sched.kvCacheManager.managers, 4 ∈ m.blocksOf 0 := by
    decide +kernel
  have acyclic : smallConfig.hasher.Acyclic := freeHasher_collisionFree.acyclic
  have verified : KVCacheManager.Verified smallConfig.kv := by
    intro _ a first b second _
    rw [mem_singleton.mp first, mem_singleton.mp second]
  have reached : Reachable smallConfig () (fun a op => a.FreshIds op) e := steps_of_run before
  obtain ⟨_, obtained, spared, _⟩ := blocks_obtained_for_owner acyclic verified reached
  obtain ⟨found, kept⟩ := spared _ s' expired 0 2 known unfinished
  exact ⟨e, s', acyclic, verified, reached, known, obtained 0 2 known m member 4 listed (by decide),
    expired, found, kept.trans blocks⟩

/-- Ids are reused only after the request that carried them has finished and was reported so. -/
def ReusesReported (e : Engine H C M) : Op → Prop
  | .addRequest req => ∀ r ∈ List.range e.sched.nextRef, (e.sched.objs r).requestId = req.requestId →
      (e.sched.objs r).isFinished = true ∧
        e.sched.history.any (fun effect => match effect with
          | .emitted r' output => decide (r' = r) && output.finishReason.isSome
          | _ => false) = true
  | _ => True

instance (e : Engine H C M) (op : Op) : Decidable (e.ReusesReported op) :=
  match op with
  | .addRequest _ => inferInstanceAs (Decidable (∀ r ∈ List.range e.sched.nextRef, _))
  | .updateFromOutput _ _ | .finishRequests _ _ _ | .schedule _ | .execute | .updateDraftTokenIds _
  | .resetPrefixCache => inferInstanceAs (Decidable True)

/-- An id reused while its request is pinned: the new request runs on the old blocks, the expiring
pin takes it away, and with a common first block `schedule` fails an assertion. -/
theorem pinnedTurn_id_reused :
    smallConfig.policy = .mimir ∧
    (∃ (e : Engine FreeHash Unit Unit) (s' : Scheduler FreeHash Unit),
      Reachable smallConfig () (fun a op => a.ReusesReported op) e ∧
      e.sched.running = [1] ∧ e.sched.requests.get? 0 = some 1 ∧
      e.sched.kvCacheManager.getBlocks 0 = [[1, 2]] ∧ 1 ∉ Effect.held 1 e.sched.history ∧
      e.sched.mimirExpirePins (.fin 5) = .ok s' ∧ s'.requests.get? 0 = none ∧
      s'.kvCacheManager.getBlocks 0 = [[]]) ∧
    ∃ e : Engine FreeHash Unit Unit, Reachable smallConfig () (fun a op => a.ReusesReported op) e ∧
      ∃ err, e.sched.schedule smallConfig (atTime 1) = .error err ∧
        err.site = .saveNewComputedBlocks := by
  refine ⟨rfl, ?_, exists_reachable (pinnedTurn ++ [.addRequest (plainRequest 0 [1, 2, 9] 4)])
    (by decide +kernel)⟩
  obtain ⟨e, before, s', expired, running, known, blocks, held, after⟩ : ∃ e,
      (init smallConfig ()).run smallConfig (fun a op => a.ReusesReported op)
        (pinnedTurn ++ [.addRequest (plainRequest 0 [8, 9, 5] 4), .schedule (atTime 1)]) = .ok e ∧
      ∃ s', e.sched.mimirExpirePins (.fin 5) = .ok s' ∧ e.sched.running = [1] ∧
        e.sched.requests.get? 0 = some 1 ∧ e.sched.kvCacheManager.getBlocks 0 = [[1, 2]] ∧
        1 ∉ Effect.held 1 e.sched.history ∧ s'.requests.get? 0 = none ∧
        s'.kvCacheManager.getBlocks 0 = [[]] := by
    decide +kernel
  exact ⟨e, s', steps_of_run before, running, known, blocks, held, expired, after⟩

end Engine

end Mimir
