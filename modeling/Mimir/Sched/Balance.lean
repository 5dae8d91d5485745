import Mimir.Kv.Slots
import Mimir.Request.ChainLaws
import Mimir.Sched.Ownership

/-! The hash chains of all requests and the books of the KV cache, along every run. -/

namespace Mimir

open Python Scheduler Theory List Function

variable {H C M : Type} {cfg : Config H C M} {scope : Scope} {s s' : Scheduler H C} {req : Request H}
  {connector : C} {e : Engine H C M} {allowed : Engine H C M → Op → Prop} {r : Ref}

/-- Two states of one request object with the same tokens and hashes. -/
structure Request.SameTokens {H : Type} (req req' : Request H) : Prop where
  sent : req'.toEngineCoreRequest = req.toEngineCoreRequest
  output : req'.outputTokenIds = req.outputTokenIds
  hashes : req'.blockHashes = req.blockHashes

namespace Request.SameTokens

/-- Nothing is served by doing nothing. -/
theorem refl (req : Request H) : SameTokens req req := ⟨rfl, rfl, rfl⟩

end Request.SameTokens

section Objects

/-- What a change does to the tokens of a request: nothing, or one token is appended. -/
def Lengthened (cfg : Config H C M) (req req' : Request H) : Prop :=
  req.SameTokens req' ∨ ∃ token grown,
    Request.appendOutputTokenId cfg.newBlockHashes req token = .ok grown ∧ grown.SameTokens req'

variable {req' : Request H}

/-- The last token of a request is appended before it ends. -/
theorem Ended.lengthened (ended : Ended cfg req req') : Lengthened cfg req req' := by
  obtain ⟨last, _, _, _, grown, _⟩ := ended
  cases grown with
  | same => exact .inl ⟨rfl, rfl, rfl⟩
  | token t _ done => exact .inr ⟨t, last, done, rfl, rfl, rfl⟩

theorem Adjusted.lengthened {notes : List Effect}
    (adjusted : Adjusted cfg scope r req req' notes) : Lengthened cfg req req' := by
  cases adjusted with
  | append token _ done => exact .inr ⟨token, req', done, .refl req'⟩
  | _ => exact .inl ⟨rfl, rfl, rfl⟩

/-- Only one object is updated. -/
theorem Lengthened.update {objs : Ref → Request H} (longer : Lengthened cfg (objs r) req)
    (x : Ref) : Lengthened cfg (objs x) (Function.update objs r req x) := by
  by_cases same : x = r
  · subst same
    rwa [update_self]
  · rw [update_of_ne same]
    exact .inl (.refl _)

/-- A change outside the loops appends at most one token to each request. -/
theorem Move.lengthened [DecidableEq H] (step : Move cfg scope s s') (r : Ref) :
    Lengthened cfg (s.objs r) (s'.objs r) := by
  cases step with
  | adjust x req notes touched adjusted => exact adjusted.lengthened.update r
  | retire x req b notes outcome ends =>
    rw [retire_objs]
    exact ends.ended.lengthened.update r
  | _ => exact .inl (.refl _)

/-- A change appends at most one token to each request. -/
theorem Change.lengthened [DecidableEq H] (step : Change cfg scope s s') (r : Ref) :
    Lengthened cfg (s.objs r) (s'.objs r) := by
  cases step with
  | move step => exact step.lengthened r
  | loop step =>
    have frame := step.frame
    exact .inl ⟨congrArg Prod.fst (frame.fixed r), frame.output r, frame.hashes r⟩
  | advance scheduled reserved known eq => rw [eq]; exact .inl ⟨rfl, rfl, rfl⟩

/-- Blocks are hashed with the configured hash, or not at all. -/
theorem Config.newBlockHashes_cases (cfg : Config H C M) :
    cfg.newBlockHashes = requestBlockHasher cfg.hasher cfg.cacheBlockSize ∨
      ∀ r, cfg.newBlockHashes r = .ok [] := by
  unfold Config.newBlockHashes
  by_cases hashing : (cfg.kv.enableCaching || cfg.connector.isSome) = true
  · left; funext r; rw [if_pos hashing]
  · right; intro r; rw [if_neg hashing]

/-- Appending tokens keeps the chain of hashes. -/
theorem Lengthened.chained (longer : Lengthened cfg req req')
    (chained : req.Chained cfg.hasher cfg.cacheBlockSize) :
    req'.Chained cfg.hasher cfg.cacheBlockSize := by
  rcases longer with same | ⟨token, grown, done, same⟩
  · exact chained.same same.sent same.output same.hashes
  · exact (chained.append done cfg.newBlockHashes_cases).same same.sent same.output same.hashes

end Objects

namespace Engine

variable [DecidableEq H]

/-- What holds of every request the frontend sends holds of what each request object carries. -/
theorem Visited.sent {Q : EngineCoreRequest → Prop}
    (each : ∀ a req, allowed a (.addRequest req) → Q req)
    (visited : Visited cfg connector allowed s) :
    ∀ r, r < s.nextRef → Q (s.objs r).toEngineCoreRequest := by
  induction visited with
  | start =>
    intro r below
    exact absurd below (Nat.not_lt_zero r)
  | @add a req s' _ permitted done ih =>
    obtain ⟨new, _, fresh, _, rfl⟩ := addRequest_spec done
    intro r below
    by_cases same : r = a.sched.nextRef
    · subst same
      simp only [update_self]
      rw [fresh.sent]
      exact each a req permitted
    · simp only [update_of_ne same]
      exact ih r (Nat.lt_of_le_of_ne (Nat.lt_succ_iff.mp below) same)
  | reset _ _ ih => exact ih
  | @change _ _ before after _ _ step ih =>
    intro r below
    have next : after.nextRef = before.nextRef := Changes.nextRef (.single step)
    have kept : (after.objs r).toEngineCoreRequest = (before.objs r).toEngineCoreRequest :=
      congrArg Prod.fst (step.fixed r)
    rw [kept]
    exact ih r (next ▸ below)

/-- The hashes of every request are the chain of its blocks. -/
theorem Visited.chained (visited : Visited cfg connector allowed s) (r : Ref) :
    (s.objs r).Chained cfg.hasher cfg.cacheBlockSize := by
  induction visited with
  | start => exact .empty rfl
  | @add a req s' _ _ done ih =>
    obtain ⟨new, _, fresh, _, rfl⟩ := addRequest_spec done
    by_cases same : r = a.sched.nextRef
    · subst same
      simp only [update_self]
      exact .create fresh cfg.newBlockHashes_cases
    · simp only [update_of_ne same]
      exact ih
  | reset _ _ ih => exact ih
  | change _ _ step ih => exact (step.lengthened r).chained ih

end Engine

section Books

variable [DecidableEq H]

/-- The hit lists of a waiting request: found by `get_computed_blocks`, or empty. -/
def KVCacheManager.LookedUp (cfg : KVConfig) (kv : KVCacheManager H) (req : Request H)
    (hits : List (List BlockId)) : Prop :=
  hits = kv.createEmptyBlockList ∨ ∃ numLocal, kv.getComputedBlocks cfg req = .ok (hits, numLocal)

variable {kv : KVCacheManager H} {computed : Scheduler.Computed}

/-- Hit lists of a cache in balance carry the hashes of the request. -/
theorem KVCacheManager.LookedUp.lookup {cfg : KVConfig}
    {hits : List (List BlockId)} (found : kv.LookedUp cfg req hits) (balanced : kv.Balanced cfg) :
    KVCacheManager.Lookup cfg kv.blockPool req.blockHashes hits := by
  rcases found with rfl | ⟨numLocal, found⟩
  · exact KVCacheManager.createEmptyBlockList_lookup balanced.groups
  · exact KVCacheManager.getComputedBlocks_lookup balanced.ledger.pool.table balanced.groups found

/-- The cached blocks of a waiting request were looked up for it. -/
theorem Scheduler.computedTokens_lookedUp
    (asked : s.computedTokens cfg r = .ok (some computed, connector)) :
    s.kvCacheManager.LookedUp cfg.kv (s.objs r) computed.newComputedBlocks := by
  unfold computedTokens at asked
  dsimp only at asked
  split at asked
  · obtain ⟨⟨blocks, numLocal⟩, found, tail⟩ := bind_eq_ok.mp asked
    split at tail
    · cases tail
      exact .inr ⟨numLocal, found⟩
    · dsimp only at tail
      split at tail
      · cases tail
      · cases tail
        exact .inr ⟨numLocal, found⟩
  · cases asked
    exact .inl rfl

/-- The cached blocks of a waiting request are what a lookup of its hashes returned. -/
theorem Scheduler.computedTokens_lookup (balanced : s.kvCacheManager.Balanced cfg.kv)
    (asked : s.computedTokens cfg r = .ok (some computed, connector)) :
    KVCacheManager.Lookup cfg.kv s.kvCacheManager.blockPool (s.objs r).blockHashes
      computed.newComputedBlocks :=
  (computedTokens_lookedUp asked).lookup balanced

/-- The slots of a waiting request are granted as the KV cache says. -/
theorem Scheduler.Grants.granted {n encoderTokens : Int} {newBlocks : List (List BlockId)}
    (grants : s.Grants cfg r computed connector n encoderTokens newBlocks kv)
    (nodup : ∀ r, (s.objs r).blockHashes.Nodup) (balanced : s.kvCacheManager.Balanced cfg.kv) :
    KVCacheManager.Granted cfg.kv s.kvCacheManager (s.objs r)
      (waitingAllocArgs cfg (s.objs r) computed n encoderTokens) newBlocks kv :=
  KVCacheManager.allocateSlots_granted balanced (nodup r)
    (fun hits given => by cases given; exact computedTokens_lookup balanced grants.asked) grants.alloc

/-- What a change does to the KV cache, for which request. -/
inductive CacheChange (cfg : Config H C M) (s : Scheduler H C) (kv : KVCacheManager H) : Prop
  | same (eq : kv = s.kvCacheManager)
  | free (r : Ref) (eq : kv = s.kvCacheManager.free (s.objs r).requestId)
  | refuse (r : Ref) (args : KVCacheManager.AllocArgs) (queued : r ∈ s.waiting ++ s.running)
      (done : s.kvCacheManager.allocateSlots cfg.kv (s.objs r) args = .ok (none, kv))
  | grant (r : Ref) (args : KVCacheManager.AllocArgs) (new : List (List BlockId))
      (queued : r ∈ s.waiting ++ s.running)
      (hits : ∀ hits, args.newComputedBlocks = some hits →
        s.kvCacheManager.LookedUp cfg.kv (s.objs r) hits)
      (done : s.kvCacheManager.allocateSlots cfg.kv (s.objs r) args = .ok (some new, kv))
  | cache (req : Request H) (numTokens : Int)
      (done : s.kvCacheManager.cacheBlocks cfg.kv req numTokens = .ok kv)

/-- Every change works on the KV cache for one request at most. -/
theorem Change.cache (step : Change cfg scope s s') : CacheChange cfg s s'.kvCacheManager := by
  cases step with
  | move step =>
    cases step with
    | retire r req b notes outcome ends =>
      cases outcome with
      | pinned => exact .same rfl
      | delayed => exact .same rfl
      | freed => exact .free r ends.freed.2
    | cache r req numTokens kv touched known runs grown cached => exact .cache req numTokens cached
    | sent r => exact .free r rfl
    | expire before r => exact .free r rfl
    | _ => exact .same rfl
  | loop step =>
    cases step with
    | allocFail r args kv queued alloc => exact .refuse r args queued alloc
    | preempt victim => exact .free victim rfl
    | run r n newBlocks kv spec member nonzero bound short least trimmed alloc =>
      exact .grant r _ newBlocks (mem_append_right _ member)
        (fun hits given => (by cases given)) alloc
    | wake => exact .same rfl
    | arrive r blockIds received kv arrived waits status connected held count cached =>
      exact .cache (s.objs r) _ cached
    | start r computed connector informed n encoderTokens numCached newBlocks kv waiting waits status
        starts =>
      refine .grant r _ newBlocks (mem_append_left _ (waits.mem_iff.mpr (mem_cons_self ..)))
        (fun hits given => ?_) starts.alloc
      cases given
      exact computedTokens_lookedUp starts.asked
    | park r computed connector informed encoderTokens newBlocks kv waiting waits perm parks =>
      refine .grant r _ newBlocks (mem_append_left _ waits) (fun hits given => ?_) parks.alloc
      cases given
      exact computedTokens_lookedUp parks.asked
  | advance scheduled reserved known eq => exact .same (by rw [eq]; rfl)

/-- Every change keeps the KV cache in balance. -/
theorem CacheChange.balanced (step : CacheChange cfg s kv)
    (nodup : ∀ r, (s.objs r).blockHashes.Nodup) (balanced : s.kvCacheManager.Balanced cfg.kv) :
    kv.Balanced cfg.kv := by
  cases step with
  | same eq => rw [eq]; exact balanced
  | free r eq => rw [eq]; exact (balanced.free _).1
  | refuse r args queued done => exact (KVCacheManager.allocateSlots_refused balanced done).1
  | grant r args new queued hits done =>
    exact (KVCacheManager.allocateSlots_granted balanced (nodup r)
      (fun found given => (hits found given).lookup balanced) done).balanced
  | cache req numTokens done => exact (balanced.cacheBlocks done).1

end Books

namespace Engine

variable [DecidableEq H]

/-- Chains that never come back keep the KV cache in balance. -/
theorem Visited.balanced (acyclic : cfg.hasher.Acyclic)
    (visited : Visited cfg connector allowed s) : s.kvCacheManager.Balanced cfg.kv := by
  induction visited with
  | start => exact .init cfg.kv
  | add _ _ done ih =>
    obtain ⟨_, _, _, _, rfl⟩ := addRequest_spec done
    exact ih
  | reset _ _ ih => exact ih.resetPrefixCache.1
  | change before _ step ih =>
    exact step.cache.balanced (fun r => (before.chained r).nodup acyclic) ih

/-- In every run, with any policy, connector and ids: the free queue holds exactly the blocks without a
user, the table of cached blocks lists exactly the blocks with a hash, and new blocks are taken from no
list and cost no other block its hash. -/
theorem pool_consistent (acyclic : cfg.hasher.Acyclic) (reached : Reachable cfg connector allowed e) :
    let kv := e.sched.kvCacheManager
    let p := kv.blockPool
    (p.freeBlockQueue.Nodup ∧ ∀ b, b ∈ p.freeBlockQueue ↔
      b ≠ nullBlock ∧ b < cfg.kv.numBlocks ∧ (p.blocks b).refCnt = 0) ∧
    (∀ b key, (p.blocks b).blockHash = some key ↔
      ∃ blocks, p.cachedBlockHashToBlock.get? key = some blocks ∧ b ∈ blocks) ∧
    (∀ key blocks, p.cachedBlockHashToBlock.get? key = some blocks → blocks ≠ []) ∧
    ∀ n new p', p.getNewBlocks n = .ok (new, p') → new.length = n ∧ new.Nodup ∧
      (∀ b ∈ new, b ≠ nullBlock ∧ ∀ m ∈ kv.managers, ∀ id, b ∉ m.blocksOf id) ∧
      ∀ b, b ∉ new → (p'.blocks b).blockHash = (p.blocks b).blockHash := by
  have balanced := reached.visited.balanced acyclic
  have pool := balanced.ledger.pool
  refine ⟨⟨pool.queueNodup, fun b => ?_⟩, fun b key => ⟨pool.table.hashed b key, ?_⟩,
    pool.table.nonempty, fun n new p' done => ?_⟩
  · rw [pool.free, balanced.size]
    exact and_congr_right fun real => by rw [pool.counted b real, Int.natCast_eq_zero]
  · rintro ⟨blocks, found, listed⟩
    exact pool.table.listed key blocks found b listed
  · obtain ⟨-, what, length⟩ := pool.getNewBlocks done
    refine ⟨length, what.nodup, fun b member => ⟨what.real b member, fun m known id listed => ?_⟩,
      what.hash⟩
    have unused := what.unused b member
    have used := occurrences_pos known listed
    omega

/-- After a turn whose request stays pinned there is a new block to take. -/
theorem pool_consistent_pinnedTurn : ∃ e : Engine FreeHash Unit Unit,
    Reachable smallConfig () (fun _ _ => True) e ∧ ∃ new p',
      e.sched.kvCacheManager.blockPool.getNewBlocks 1 = .ok (new, p') ∧ ∀ b ∈ new,
        ∀ m ∈ e.sched.kvCacheManager.managers, b ∉ m.blocksOf 0 := by
  obtain ⟨e, reached, new, p', done, -⟩ : ∃ e : Engine FreeHash Unit Unit,
      Reachable smallConfig () (fun _ _ => True) e ∧ ∃ new p',
        e.sched.kvCacheManager.blockPool.getNewBlocks 1 = .ok (new, p') ∧ True :=
    exists_reachable pinnedTurn (by decide +kernel)
  exact ⟨e, reached, new, p', done, fun b member m known => ((pool_consistent
    freeHasher_collisionFree.acyclic reached).2.2.2 1 new p' done).2.2.1 b member |>.2 m known 0⟩

/-- In every run, two text requests that agree on their tokens up to the end of a block, on their LoRA
and on their salt have the same hash of that block. -/
theorem prefix_hashes_agree (reached : Reachable cfg connector allowed e) {r r' : Ref}
    {q q' : Request H} (object : e.sched.objs r = q) (object' : e.sched.objs r' = q')
    (text : q.mmFeatures = [] ∧ q'.mmFeatures = [])
    (keys : q.loraRequest = q'.loraRequest ∧ q.saltKey = q'.saltKey) {i : Nat}
    (hashed : i < q.blockHashes.length ∧ i < q'.blockHashes.length)
    (agree : q.allTokenIds.take ((i + 1) * cfg.cacheBlockSize) =
      q'.allTokenIds.take ((i + 1) * cfg.cacheBlockSize)) :
    q.blockHashes[i]? = q'.blockHashes[i]? := by
  subst object object'
  obtain ⟨xs, chain, -, each⟩ := (reached.visited.chained r).inputs
  obtain ⟨ys, chain', -, each'⟩ := (reached.visited.chained r').inputs
  rw [chain, chain', length_chain, length_chain] at hashed
  have inputs : xs.take (i + 1) = ys.take (i + 1) := by
    apply ext_getElem?
    intro j
    rw [getElem?_take, getElem?_take]
    split
    · rename_i early
      -- The block lies within the common tokens.
      have within : j * cfg.cacheBlockSize + cfg.cacheBlockSize ≤ (i + 1) * cfg.cacheBlockSize := by
        rw [← Nat.succ_mul]
        exact Nat.mul_le_mul_right _ early
      rw [each text.1 j (by omega), each' text.2 j (by omega)]
      unfold Request.blockInput Request.textKeys genLoraExtraHashKeys cacheSaltKeys
      rw [keys.1, keys.2, take_drop, take_drop, ← Nat.min_eq_left within, ← take_take,
        ← take_take, agree]
    · rfl
  rw [chain, chain', getElem?_chain, getElem?_chain, if_pos hashed.1, if_pos hashed.2, inputs]

/-- Two waiting requests with different prompts and the same first block. -/
theorem prefix_hashes_agree_pair : ∃ e : Engine FreeHash Unit Unit,
    Reachable smallConfig () (fun _ _ => True) e ∧ 0 < (e.sched.objs 0).blockHashes.length ∧
      (e.sched.objs 0).blockHashes[0]? = (e.sched.objs 1).blockHashes[0]? := by
  obtain ⟨e, reached, text, keys, hashed, agree⟩ : ∃ e : Engine FreeHash Unit Unit,
      Reachable smallConfig () (fun _ _ => True) e ∧
      ((e.sched.objs 0).mmFeatures = [] ∧ (e.sched.objs 1).mmFeatures = []) ∧
      ((e.sched.objs 0).loraRequest = (e.sched.objs 1).loraRequest ∧
        (e.sched.objs 0).saltKey = (e.sched.objs 1).saltKey) ∧
      (0 < (e.sched.objs 0).blockHashes.length ∧ 0 < (e.sched.objs 1).blockHashes.length) ∧
      (e.sched.objs 0).allTokenIds.take 2 = (e.sched.objs 1).allTokenIds.take 2 :=
    exists_reachable [.addRequest (plainRequest 0 [1, 2, 3] 4),
      .addRequest (plainRequest 1 [1, 2, 9] 4)] (by decide +kernel)
  exact ⟨e, reached, hashed.1, prefix_hashes_agree reached rfl rfl text keys hashed agree⟩

end Engine

end Mimir
