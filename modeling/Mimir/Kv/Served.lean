import Mathlib.Algebra.Order.BigOperators.Group.List
import Mimir.Kv.Separation
import Mimir.Kv.Placed

/-! Runs of the KV cache manager: whatever calls came before, `allocate_slots` returns and counts right. -/

namespace Mimir

open Python List Function

variable {H : Type} {p : BlockPool H} {hashes : List H} {cfg : KVConfig} {hits : List (List BlockId)}
  {ms : List Manager}

section Alignment

variable [DecidableEq H] {groupIds : List Nat}
  {lists : List (List BlockId)}

omit [DecidableEq H] in
/-- Hits of different groups are different blocks. -/
theorem AllHits.count_flatten_le_one (all : AllHits p hashes groupIds lists)
    (groups : groupIds.Nodup) (distinct : hashes.Nodup) {b : BlockId} (real : b ≠ nullBlock) :
    lists.flatten.count b ≤ 1 := by
  induction all with
  | nil => simp
  | cons here rest ih =>
    rename_i g hit gs lists
    obtain ⟨fresh, groups⟩ := nodup_cons.mp groups
    have later := ih groups
    have first := here.count_le_one distinct real
    rw [flatten_cons, count_append]
    by_cases member : b ∈ hit
    · -- The key of a block names one group.
      have absent : b ∉ lists.flatten := by
        intro again
        obtain ⟨i, found⟩ := getElem?_of_mem member
        obtain ⟨h, _, hashed⟩ := (here i b found).resolve_left real
        obtain ⟨hit', known, member'⟩ := mem_flatten.mp again
        obtain ⟨g', listed, here'⟩ := exists_of_forall₂ rest known
        obtain ⟨j, found'⟩ := getElem?_of_mem member'
        obtain ⟨h', _, hashed'⟩ := (here' j b found').resolve_left real
        rw [hashed] at hashed'
        simp only [Option.some.injEq, Prod.mk.injEq] at hashed'
        exact fresh (hashed'.2 ▸ listed)
      rw [count_eq_zero_of_not_mem absent]
      omega
    · rw [count_eq_zero_of_not_mem member]
      omega

end Alignment

namespace KVCacheManager

/-- What the coordinators accept: with prefix caching two types of groups in order, no cross-attention, and
context parallelism for one group only. -/
structure Accepted (cfg : KVConfig) : Prop where
  ordered : cfg.enableCaching = true → Contiguous cfg
  uncrossed : cfg.enableCaching = true → ∀ spec ∈ cfg.groups, spec.kind ≠ .crossAttention
  verified : Verified cfg
  parallel : cfg.enableCaching = true → cfg.groups.length ≠ 1 → cfg.dcpWorldSize = 1

/-- What the coordinator without prefix caching accepts: everything. -/
theorem Accepted.of_disabled (disabled : cfg.enableCaching = false) : Accepted cfg where
  ordered enabled := absurd enabled (by simp [disabled])
  uncrossed enabled := absurd enabled (by simp [disabled])
  verified enabled := absurd enabled (by simp [disabled])
  parallel enabled := absurd enabled (by simp [disabled])

variable [DecidableEq H] {kv kv' : KVCacheManager H}
  {label : RequestId → List H} {r : Request H} {args : AllocArgs} {id : RequestId}

/-- What a cache keeps: its books are balanced, and with prefix caching all lists are placed and the
placeholder has no hash. -/
structure Sound (cfg : KVConfig) (label : RequestId → List H) (kv : KVCacheManager H) : Prop where
  balanced : Balanced cfg kv
  placed : cfg.enableCaching = true → ∀ m ∈ kv.managers, m.AllPlaced kv.blockPool label
  null : cfg.enableCaching = true → (kv.blockPool.blocks nullBlock).blockHash = none

/-- The tokens a call of `allocate_slots` caches fit the blocks, the hashes and the model. -/
structure Commits (cfg : KVConfig) (kv : KVCacheManager H) (r : Request H) (args : AllocArgs)
    (hits : List (List BlockId)) : Prop where
  ahead : 0 ≤ args.numLookaheadTokens
  short : tokensToCache r args ≤ cfg.maxModelLen
  more : ∀ i m, kv.managers[i]? = some m →
    (m.numCachedBlock.get? r.requestId).getD 0 + (hits.getD i []).length ≤
      (tokensToCache r args).fdiv m.blockSize
  hashed : ∀ m ∈ kv.managers, (tokensToCache r args).fdiv m.blockSize ≤ r.blockHashes.length

namespace Sound

/-- An empty cache. -/
theorem init (cfg : KVConfig) : Sound cfg (fun _ => []) (KVCacheManager.init cfg : KVCacheManager H) := by
  refine ⟨.init cfg, fun _ m member id c found => ?_, fun _ => rfl⟩
  obtain ⟨i, _, rfl⟩ := mem_mapIdx.mp member
  cases found

variable (sound : Sound cfg label kv)

include sound

/-- More hashes for one request. -/
theorem relabel (more : label id <+: hashes) : Sound cfg (Function.update label id hashes) kv := by
  refine ⟨sound.balanced, fun enabled m member other c found => ?_, sound.null⟩
  have here := sound.placed enabled m member other c found
  by_cases same : other = id
  · subst same
    rw [update_self]
    exact here.grown more
  · rw [update_of_ne same]
    exact here

/-- A request gives all its blocks back; its hashes no longer matter. -/
theorem free (id : RequestId) (hashes : List H) :
    Sound cfg (Function.update label id hashes) (kv.free id) := by
  obtain ⟨balanced, _, freed⟩ := sound.balanced.free id
  have swept := fun enabled => (freeAll_sweep id kv.managers kv.blockPool).placed id
    (fun m _ p p' m' rest _ books _ step => by
      rw [step.1, step.2]
      exact Manager.free_step books id)
    sound.balanced.caching sound.balanced.ledger (sound.placed enabled)
  refine ⟨balanced, fun enabled m member other c found => ?_, fun enabled =>
    (swept enabled).2.2 (sound.null enabled)⟩
  have all := (swept enabled).1
  by_cases same : other = id
  · subst same
    obtain ⟨_, _, here⟩ := exists_of_forall₂ freed member
    rw [here.uncached] at found
    cases found
  · rw [update_of_ne same]
    exact all m member other c found

/-- Resetting the cache forgets hashes only when no list holds a block. -/
theorem resetPrefixCache : Sound cfg label kv.resetPrefixCache.2 := by
  obtain ⟨balanced, what⟩ := sound.balanced.resetPrefixCache
  rcases what with same | unheld
  · rw [same]
    exact sound
  · have null : (kv.resetPrefixCache.2.blockPool.blocks nullBlock).blockHash = none ∨
        kv.resetPrefixCache.2.blockPool = kv.blockPool := by
      rcases (sound.balanced.ledger.pool.resetPrefixCache).2 with same | ⟨_, forgotten, _⟩
      · exact .inr same
      · exact .inl (forgotten nullBlock)
    refine ⟨balanced, fun enabled m member id c found => ?_, fun enabled => ?_⟩
    swap
    · rcases null with none | same
      · exact none
      · rw [same]
        exact sound.null enabled
    have member : m ∈ kv.managers := member
    have here := sound.placed enabled m member id c found
    -- Every entry is the placeholder.
    have empty : ∀ b ∈ m.blocksOf id, b = nullBlock := by
      intro b listed
      by_contra real
      have occurs := occurrences_pos member listed
      have none := unheld b real
      omega
    exact here.frame fun b real listed => absurd (empty b listed) real

omit sound in
/-- Removing skipped blocks, where only cached blocks are skipped. -/
theorem removeSkippedBlocks (accepted : Accepted cfg) (sound : Sound cfg label kv)
    {numComputedTokens : Int}
    (cached : cfg.enableCaching = true → ∀ m ∈ kv.managers, ∀ c,
      m.numCachedBlock.get? id = some c → m.firstUsefulBlock id numComputedTokens ≤ c)
    (done : KVCacheManager.removeSkippedBlocks id numComputedTokens kv.managers kv.blockPool =
      .ok (ms, p)) : Sound cfg label ⟨p, ms⟩ := by
  obtain ⟨balanced, _, same, _⟩ := sound.balanced.removeSkippedBlocks done
  refine ⟨balanced, fun enabled => ?_, fun enabled => by
    show (p.blocks nullBlock).blockHash = none
    rw [same.hash]
    exact sound.null enabled⟩
  refine ((removeSkippedBlocks_sweep done).placed id
    (fun m member p p' m' rest _ books placed step => ?_)
    sound.balanced.caching sound.balanced.ledger (sound.placed enabled)).1
  exact Manager.removeSkippedBlocks_step books (sound.balanced.tracked m member)
    (accepted.uncrossed enabled _ (sound.balanced.spec_mem member)) placed
    (cached enabled m member) step

/-- Touching hits changes no list, and no users of unhashed blocks. -/
theorem touchComputed (lookup : Lookup cfg kv.blockPool r.blockHashes hits)
    (done : KVCacheManager.touchComputed cfg kv.blockPool hits = .ok p) :
    cfg.enableCaching = true → ∀ m ∈ kv.managers, m.AllPlaced p label := by
  intro enabled m member id c found
  obtain ⟨ledger, same⟩ := touchComputed_spec sound.balanced.ledger lookup done
  refine (sound.placed enabled m member id c found).frame (.of_same same fun b real none => ?_)
  -- Every real hit carries a hash.
  have absent : b ∉ hits.flatten := by
    intro hit
    obtain ⟨list, known, listed⟩ := mem_flatten.mp hit
    obtain ⟨g, here⟩ := lookup.hits list known
    obtain ⟨i, entry⟩ := getElem?_of_mem listed
    obtain ⟨h, _, hashed⟩ := (here i b entry).resolve_left real
    rw [none] at hashed
    cases hashed
  have after := ledger.pool.counted b real
  have before := sound.balanced.ledger.pool.counted b real
  rw [count_eq_zero_of_not_mem absent] at after
  rw [after, before]

end Sound

/-- The groups before the full blocks of a request are cached. -/
structure Extended (cfg : KVConfig) (label : RequestId → List H) (r : Request H) (args : AllocArgs)
    (p : BlockPool H) (ms : List Manager) : Prop where
  ledger : Ledger p ms fun _ => 0
  caching : p.enableCaching = cfg.enableCaching
  placed : cfg.enableCaching = true → ∀ m ∈ ms, m.AllPlaced p label
  null : cfg.enableCaching = true → (p.blocks nullBlock).blockHash = none
  cachable : cfg.enableCaching = true → args.delayCacheBlocks = false →
    ∀ m ∈ ms, m.Cachable r.requestId r.blockHashes (tokensToCache r args)

variable {numTokens : Int}

section

variable (accepted : Accepted cfg)

include accepted

/-- Touching, saving and extending lead to lists that can be cached. -/
theorem Sound.extended (sound : Sound cfg label kv)
    (named : label r.requestId = r.blockHashes) (distinct : r.blockHashes.Nodup)
    {news : List (List BlockId)} {p₁ p₃ : BlockPool H} {ms₂ ms₃ : List Manager}
    (aligned : GroupHits cfg kv.blockPool r.blockHashes hits)
    (commits : cfg.enableCaching = true → args.delayCacheBlocks = false → Commits cfg kv r args hits)
    (touched : KVCacheManager.touchComputed cfg kv.blockPool hits = .ok p₁)
    (saved : saveNewComputedBlocks r.requestId kv.managers hits = .ok ms₂)
    (allocated : allocateNewBlocks r.requestId (tokensNeedSlot cfg r args) args.numEncoderTokens
      ms₂ p₁ = .ok (news, ms₃, p₃)) : Extended cfg label r args p₃ ms₃ := by
  have lookup := aligned.lookup
  obtain ⟨ledger₁, same₁⟩ := touchComputed_spec sound.balanced.ledger lookup touched
  obtain ⟨ledger₂, saves, _⟩ := ledger₁.saveNewComputedBlocks
    (by rw [sound.balanced.groups]; exact lookup.length.le)
    (fun hit member b real => by
      obtain ⟨g, hits⟩ := lookup.hits hit member
      exact hits.count_le_one distinct real) saved
  obtain ⟨ledger₃, kept, extended, _, _⟩ := ledger₂.allocateNewBlocks allocated
  have kinds : cfg.enableCaching = true → ∀ m ∈ kv.managers, m.spec.kind ≠ .crossAttention :=
    fun enabled m member => accepted.uncrossed enabled _ (sound.balanced.spec_mem member)
  have hits₁ : AllHits p₁ r.blockHashes (kv.managers.map fun m => m.kvCacheGroupId) hits := by
    rw [sound.balanced.groupIds]
    exact List.Forall₂.imp (fun _ _ here => here.same same₁.hash) aligned
  have placed₁ := sound.touchComputed lookup touched
  have caching₃ : p₃.enableCaching = cfg.enableCaching :=
    kept.caching.trans (same₁.caching.trans sound.balanced.caching)
  have swept := fun enabled => (allocateNewBlocks_sweep allocated).placed r.requestId
    (fun m _ p p' m' rest _ books placed step => by
      obtain ⟨_, _, step⟩ := step
      exact Manager.allocateNewBlocks_step books placed step)
    rfl ledger₂ fun m member =>
      (saveNewComputedBlocks_placed (kinds enabled) (placed₁ enabled) named hits₁ saved m member).1
  refine ⟨ledger₃, caching₃, fun enabled => (swept enabled).1, fun enabled =>
    (swept enabled).2.2 ?_, fun enabled now m member => ?_⟩
  · rw [same₁.hash]
    exact sound.null enabled
  · have fits := commits enabled now
    obtain ⟨m₂, member₂, grown⟩ := exists_of_forall₂ extended member
    obtain ⟨_, i, m₀, found, layout, count⟩ :=
      saveNewComputedBlocks_placed (kinds enabled) (placed₁ enabled) named hits₁ saved m₂ member₂
    simp only [Manager.layout, Prod.mk.injEq] at layout
    have known₀ : m₀ ∈ kv.managers := mem_of_getElem? found
    have size : m.blockSize = m₀.blockSize := grown.blockSize.trans layout.2.1
    have spec : m.spec = m₀.spec := grown.spec.trans layout.1
    have kind : m.spec.kind ≠ .crossAttention := by
      rw [spec]
      exact kinds enabled m₀ known₀
    refine ⟨kind, ?_, fun c counted => ?_, ?_, ?_⟩
    · rw [grown.counts]
      exact PyDict.mem_keys_iff.mpr ⟨_, count⟩
    · rw [grown.counts, count] at counted
      cases counted
      rw [size]
      exact fits.more i m₀ found
    · -- The list covers all tokens with slots, and the tokens to cache are among them.
      have covers := allocateNewBlocks_covers allocated m member
      have slots : tokensToCache r args ≤ tokensNeedSlot cfg r args := by
        have short := fits.short
        have ahead := fits.ahead
        unfold tokensToCache tokensNeedSlot at *
        omega
      calc (tokensToCache r args).fdiv m.blockSize
          ≤ cdiv (tokensNeedSlot cfg r args) m.blockSize := fdiv_le_cdiv slots _
        _ ≤ m.required (tokensNeedSlot cfg r args) args.numEncoderTokens :=
          Manager.cdiv_le_required kind _ _
        _ ≤ (m.blocksOf r.requestId).length := covers
    · rw [size]
      exact fits.hashed m₀ known₀

omit accepted in
/-- Caching the full blocks of a request keeps all lists placed. -/
theorem cacheAll_placed {ms' : List Manager} {p' : BlockPool H}
    (caching : p.enableCaching = true) (ledger : Ledger p ms fun _ => 0)
    (placed : ∀ m ∈ ms, m.AllPlaced p label) (named : label r.requestId = r.blockHashes)
    (cachable : ∀ m ∈ ms, m.Cachable r.requestId r.blockHashes numTokens)
    (done : cacheAll (cfg.event r) r.requestId r.blockHashes numTokens ms p = .ok (ms', p')) :
    (∀ m ∈ ms', m.AllPlaced p' label) ∧
      ((p.blocks nullBlock).blockHash = none → (p'.blocks nullBlock).blockHash = none) := by
  obtain ⟨placed', _, null⟩ := (cacheAll_sweep done).placed r.requestId
    (fun m member _ _ _ _ enabled books placed step =>
      Manager.cacheBlocks_step books enabled placed named (cachable m member) step)
    caching ledger placed
  exact ⟨placed', null⟩

/-- A successful call behind the check of the free blocks keeps the cache sound. -/
theorem Sound.commitSlots (sound : Sound cfg label kv)
    (named : label r.requestId = r.blockHashes) (distinct : r.blockHashes.Nodup)
    {new : List (List BlockId)}
    (aligned : GroupHits cfg kv.blockPool r.blockHashes hits)
    (commits : cfg.enableCaching = true → args.delayCacheBlocks = false → Commits cfg kv r args hits)
    (done : KVCacheManager.commitSlots cfg kv r args hits = .ok (new, kv')) :
    Sound cfg label kv' := by
  obtain ⟨balanced, _⟩ := commitSlots_spec sound.balanced distinct (aligned.lookup) done
  obtain ⟨p₁, ms₂, ms₃, p₃, touched, saved, allocated, cached⟩ := commitSlots_cases done
  rcases kv' with ⟨p₄, ms₄⟩
  have extended := sound.extended accepted named distinct aligned commits touched saved allocated
  rcases cacheCommitted_cases cached with ⟨_, rfl, rfl⟩ | ⟨enabled, now, cached⟩
  · exact ⟨balanced, extended.placed, extended.null⟩
  · obtain ⟨placed, null⟩ := cacheAll_placed (extended.caching.trans enabled) extended.ledger
      (extended.placed enabled) named (extended.cachable enabled now) cached
    exact ⟨balanced, fun _ => placed, fun enabled => null (extended.null enabled)⟩

omit accepted in
/-- Caching blocks that arrived from elsewhere keeps the cache sound. -/
theorem Sound.cacheBlocks (sound : Sound cfg label kv) (named : label r.requestId = r.blockHashes)
    (cachable : cfg.enableCaching = true → ∀ m ∈ kv.managers,
      m.Cachable r.requestId r.blockHashes numTokens)
    (done : kv.cacheBlocks cfg r numTokens = .ok kv') : Sound cfg label kv' := by
  obtain ⟨balanced, _⟩ := sound.balanced.cacheBlocks done
  rcases cacheBlocks_cases done with ⟨_, rfl⟩ | ⟨enabled, cached⟩
  · exact sound
  · obtain ⟨placed, null⟩ := cacheAll_placed (sound.balanced.caching.trans enabled)
      sound.balanced.ledger (sound.placed enabled) named (cachable enabled) cached
    exact ⟨balanced, fun _ => placed, fun enabled => null (sound.null enabled)⟩

/-- A call of `allocate_slots` as the scheduler makes it. -/
structure Call (cfg : KVConfig) (label : RequestId → List H) (kv : KVCacheManager H) (r : Request H)
    (args : AllocArgs) : Prop where
  /-- There are tokens to compute. -/
  positive : 0 < args.numNewTokens
  /-- The hits were just looked up, or there are none. -/
  looked : kv.givenHits args = kv.createEmptyBlockList ∨
    (∃ n, kv.getComputedBlocks cfg r = .ok (kv.givenHits args, n)) ∧
      ∀ m ∈ kv.managers, r.requestId ∉ m.numCachedBlock.keys
  /-- Blocks of a request have different hashes, and a request keeps the hashes it has. -/
  distinct : r.blockHashes.Nodup
  grown : label r.requestId <+: r.blockHashes
  /-- The blocks that are skipped by now are blocks of the list, and cached ones with prefix caching. -/
  covered : ∀ m ∈ kv.managers, m.firstUsefulBlock r.requestId r.numComputedTokens ≤
    if cfg.enableCaching then (m.numCachedBlock.get? r.requestId).getD 0
    else (m.blocksOf r.requestId).length
  /-- What is cached now was not cached before, and has hashes. -/
  commits : cfg.enableCaching = true → args.delayCacheBlocks = false →
    Commits cfg kv r args (kv.givenHits args)

/-- One call of the scheduler for a request; it may change the hashes known of the request. -/
inductive Serves (cfg : KVConfig) (id : RequestId) : KVCacheManager H → (RequestId → List H) →
    KVCacheManager H → (RequestId → List H) → Prop
  | allocate {kv kv' : KVCacheManager H} {label : RequestId → List H} {r : Request H}
      {args : AllocArgs} {result : Option (List (List BlockId))} (mine : r.requestId = id)
      (call : Call cfg label kv r args)
      (done : kv.allocateSlots cfg r args = .ok (result, kv')) :
      Serves cfg id kv label kv' (Function.update label r.requestId r.blockHashes)
  | cache {kv kv' : KVCacheManager H} {label : RequestId → List H} {r : Request H} {numTokens : Int}
      (mine : r.requestId = id) (grown : label r.requestId <+: r.blockHashes)
      (cachable : cfg.enableCaching = true → ∀ m ∈ kv.managers,
        m.Cachable r.requestId r.blockHashes numTokens)
      (done : kv.cacheBlocks cfg r numTokens = .ok kv') :
      Serves cfg id kv label kv' (Function.update label r.requestId r.blockHashes)
  | free {kv : KVCacheManager H} {label : RequestId → List H} :
      Serves cfg id kv label (kv.free id) (Function.update label id [])
  | reset {kv : KVCacheManager H} {label : RequestId → List H} :
      Serves cfg id kv label kv.resetPrefixCache.2 label

/-- The states of the cache after calls of the scheduler, and the hashes of the requests in it. -/
inductive Served (cfg : KVConfig) : KVCacheManager H → (RequestId → List H) → Prop
  | init : Served cfg (.init cfg) fun _ => []
  | step {kv kv' : KVCacheManager H} {label label' : RequestId → List H} {id : RequestId}
      (before : Served cfg kv label) (serves : Serves cfg id kv label kv' label') :
      Served cfg kv' label'

/-- The hits of a call stand in the order of the groups. -/
theorem Call.aligned (balanced : Balanced cfg kv) (call : Call cfg label kv r args) :
    GroupHits cfg kv.blockPool r.blockHashes (kv.givenHits args) := by
  rcases call.looked with empty | ⟨⟨n, looked⟩, _⟩
  · rw [empty]
    exact createEmptyBlockList_groupHits balanced.groups
  · exact getComputedBlocks_groupHits accepted.ordered balanced.ledger.pool.table balanced.groups
      looked

omit accepted in
/-- Skipped blocks of a call are cached ones. -/
theorem Call.skips (call : Call cfg label kv r args) (enabled : cfg.enableCaching = true)
    {m : Manager} (member : m ∈ kv.managers) {c : Int}
    (found : m.numCachedBlock.get? r.requestId = some c) :
    m.firstUsefulBlock r.requestId r.numComputedTokens ≤ c := by
  have covered := call.covered m member
  rw [if_pos enabled, found] at covered
  exact covered

omit [DecidableEq H] accepted in
/-- What a call needs is not changed by the removal of skipped blocks. -/
theorem Commits.skipped (commits : Commits cfg kv r args hits) {n : Int}
    (skipped : List.Forall₂ (Manager.Skipped r.requestId n) kv.managers ms) :
    Commits cfg ⟨p, ms⟩ r args hits where
  ahead := commits.ahead
  short := commits.short
  more i m' found := by
    obtain ⟨m, before, here⟩ := forall₂_at skipped found
    rw [here.counts, here.blockSize]
    exact commits.more i m before
  hashed m' member := by
    obtain ⟨m, before, here⟩ := exists_of_forall₂ skipped member
    rw [here.blockSize]
    exact commits.hashed m before

/-- A call of `allocate_slots` that returns keeps the cache sound. -/
theorem Sound.allocateSlots {result : Option (List (List BlockId))}
    (sound : Sound cfg label kv) (call : Call cfg label kv r args)
    (done : kv.allocateSlots cfg r args = .ok (result, kv')) :
    Sound cfg (Function.update label r.requestId r.blockHashes) kv' := by
  obtain ⟨ms, p, skip, outcome⟩ := allocateSlots_cases done
  obtain ⟨_, _, same, skipped⟩ := sound.balanced.removeSkippedBlocks skip
  have after : Sound cfg (Function.update label r.requestId r.blockHashes) ⟨p, ms⟩ :=
    (sound.relabel call.grown).removeSkippedBlocks accepted
      (fun enabled m member c found => call.skips enabled member found) skip
  rcases outcome with ⟨_, rfl⟩ | ⟨new, _, commit⟩
  · exact after
  · have aligned : GroupHits cfg p r.blockHashes (kv.givenHits args) :=
      List.Forall₂.imp (fun _ _ here => here.same same.hash) (call.aligned accepted sound.balanced)
    exact after.commitSlots accepted (update_self ..) call.distinct aligned
      (fun enabled now => (call.commits enabled now).skipped skipped) commit

/-- Every call that returns keeps the cache sound. -/
theorem Serves.sound {label' : RequestId → List H}
    (serves : Serves cfg id kv label kv' label') (sound : Sound cfg label kv) :
    Sound cfg label' kv' := by
  cases serves with
  | allocate _ call done => exact sound.allocateSlots accepted call done
  | cache _ grown cachable done =>
    exact (sound.relabel grown).cacheBlocks (update_self ..) cachable done
  | free => exact sound.free id []
  | reset => exact sound.resetPrefixCache

/-- Every state of a run is sound. -/
theorem Served.sound (served : Served cfg kv label) : Sound cfg label kv := by
  induction served with
  | init => exact .init cfg
  | step _ serves ih => exact serves.sound accepted ih

omit accepted in
/-- Hits without prefix caching are empty. -/
theorem Call.hits_empty (call : Call cfg label kv r args) (disabled : cfg.enableCaching = false) :
    ∀ group ∈ kv.givenHits args, group = [] := by
  have none : kv.givenHits args = kv.createEmptyBlockList := by
    rcases call.looked with empty | ⟨⟨n, looked⟩, _⟩
    · exact empty
    · -- Without prefix caching a lookup finds nothing.
      unfold getComputedBlocks at looked
      rw [disabled] at looked
      simp only [Bool.not_false, Bool.true_or, if_true, Except.ok.injEq, Prod.mk.injEq] at looked
      exact looked.1.symm
  rw [none]
  intro group member
  obtain ⟨_, _, rfl⟩ := mem_map.mp member
  rfl

/-- The hits of a call can be saved. -/
theorem Call.savable (balanced : Balanced cfg kv)
    (call : Call cfg label kv r args) : Savable kv.managers r.requestId (kv.givenHits args) := by
  cases enabled : cfg.enableCaching with
  | false => exact .inl (call.hits_empty enabled)
  | true =>
    rcases call.looked with empty | ⟨_, unserved⟩
    · left
      rw [empty]
      intro hit member
      obtain ⟨_, _, rfl⟩ := mem_map.mp member
      rfl
    · exact .inr fun m member =>
        ⟨accepted.uncrossed enabled _ (balanced.spec_mem member), unserved m member⟩

omit accepted in
/-- The removal of skipped blocks succeeds in a call. -/
theorem Call.skips_ok (sound : Sound cfg label kv) (call : Call cfg label kv r args) :
    ∃ ms p, removeSkippedBlocks r.requestId r.numComputedTokens kv.managers kv.blockPool =
      .ok (ms, p) := by
  refine removeSkippedBlocks_ok fun m member => (call.covered m member).trans ?_
  cases enabled : cfg.enableCaching with
  | false => exact le_rfl
  | true =>
    rw [if_pos rfl]
    cases found : m.numCachedBlock.get? r.requestId with
    | none => exact Int.natCast_nonneg _
    | some c => exact (sound.placed enabled m member _ c found).within

/-- With enough free blocks, the part of `allocate_slots` behind the check takes just those asked for. -/
theorem commitSlots_ok (sound : Sound cfg label kv)
    (named : label r.requestId = r.blockHashes) (distinct : r.blockHashes.Nodup)
    (aligned : GroupHits cfg kv.blockPool r.blockHashes hits)
    (empty : cfg.enableCaching = false → ∀ group ∈ hits, group = [])
    (savable : Savable kv.managers r.requestId hits)
    (commits : cfg.enableCaching = true → args.delayCacheBlocks = false → Commits cfg kv r args hits)
    (silent : cfg.enableCaching = true → cfg.enableKvCacheEvents = false)
    (growing : Growing r.requestId (tokensNeedSlot cfg r args) args.numEncoderTokens kv.managers hits)
    (room : numBlocksToAllocate kv.blockPool r.requestId (tokensNeedSlot cfg r args)
      args.numEncoderTokens kv.managers hits ≤ kv.blockPool.getNumFreeBlocks) :
    ∃ new kv', commitSlots cfg kv r args hits = .ok (new, kv') ∧
      (∀ m ∈ kv'.managers, m.required (tokensNeedSlot cfg r args) args.numEncoderTokens ≤
        (m.blocksOf r.requestId).length) ∧
      (kv'.blockPool.getNumFreeBlocks : Int) = kv.blockPool.getNumFreeBlocks -
        numBlocksToAllocate kv.blockPool r.requestId (tokensNeedSlot cfg r args)
          args.numEncoderTokens kv.managers hits := by
  have lookup := aligned.lookup
  have ledger := sound.balanced.ledger
  -- Touching takes the free hits from the queue.
  obtain ⟨p₁, touched, length₁⟩ : ∃ p₁, touchComputed cfg kv.blockPool hits = .ok p₁ ∧
      p₁.freeBlockQueue.length + hits.flatten.countP kv.blockPool.evictable =
        kv.blockPool.freeBlockQueue.length := by
    unfold touchComputed
    cases enabled : cfg.enableCaching with
    | true =>
      rw [if_pos rfl, BlockPool.touch_eq]
      exact ledger.pool.touchBlocks_ok (lookup.below ledger.pool.positive ledger.pool.table)
        fun b real => aligned.count_flatten_le_one nodup_range distinct real
    | false =>
      rw [if_neg (by simp), require, if_pos (empty enabled)]
      refine ⟨kv.blockPool, rfl, ?_⟩
      rw [flatten_eq_nil_iff.mpr (empty enabled)]
      rfl
  obtain ⟨ms₂, saved⟩ := saveNewComputedBlocks_ok sound.balanced.tracked savable
  have count : hits.length ≤ kv.managers.length := by
    rw [sound.balanced.groups]
    exact lookup.length.le
  have needed := numBlocksToAllocate_eq (p := kv.blockPool) count growing saved
  rw [needed] at room ⊢
  -- What is missing then can be taken.
  obtain ⟨ledger₁, _⟩ := touchComputed_spec ledger lookup touched
  obtain ⟨ledger₂, _, _⟩ := ledger₁.saveNewComputedBlocks count
    (fun hit member b real => by
      obtain ⟨g, hits⟩ := lookup.hits hit member
      exact hits.count_le_one distinct real) saved
  unfold BlockPool.getNumFreeBlocks at room ⊢
  obtain ⟨news, ms₃, p₃, allocated, length₃⟩ := allocateNewBlocks_ok r.requestId
    (tokensNeedSlot cfg r args) args.numEncoderTokens ledger₂ (by omega)
  have covers := allocateNewBlocks_covers allocated
  have extended := sound.extended accepted named distinct aligned commits touched saved allocated
  obtain ⟨ms₄, p₄, cached, queue, lists⟩ : ∃ ms₄ p₄,
      cacheCommitted cfg r args ms₃ p₃ = .ok (ms₄, p₄) ∧
      p₄.freeBlockQueue = p₃.freeBlockQueue ∧
      ∀ m ∈ ms₄, m.required (tokensNeedSlot cfg r args) args.numEncoderTokens ≤
        (m.blocksOf r.requestId).length := by
    unfold cacheCommitted
    split
    · exact ⟨ms₃, p₃, rfl, rfl, covers⟩
    · rename_i now
      simp only [Bool.or_eq_true, Bool.not_eq_true', not_or, Bool.not_eq_false, Bool.not_eq_true]
        at now
      obtain ⟨enabled, now⟩ := now
      rw [KVConfig.event, if_neg (by simp [silent enabled])]
      obtain ⟨ms₄, p₄, cached, queue⟩ := cacheAll_ok (extended.caching.trans enabled)
        extended.ledger (extended.placed enabled) named (extended.cachable enabled now)
      obtain ⟨_, _, recached⟩ := extended.ledger.cacheAll (extended.caching.trans enabled) cached
      refine ⟨ms₄, p₄, cached, queue, forall_of_forall₂ (fun m m' here enough => ?_) recached covers⟩
      rw [Manager.required_eq here.spec here.blockSize, here.list]
      exact enough
  refine ⟨news, ⟨p₄, ms₄⟩, ?_, lists, ?_⟩
  · unfold commitSlots
    rw [touched]
    show (saveNewComputedBlocks _ _ _ >>= _) = _
    rw [saved]
    show (allocateNewBlocks _ _ _ _ _ >>= _) = _
    rw [allocated]
    show (cacheCommitted _ _ _ _ _ >>= _) = _
    rw [cached]
    rfl
  · show ((p₄.freeBlockQueue.length : Nat) : Int) = _
    rw [queue]
    omega

end

/-- Without KV cache events, a call that asks no group for fewer blocks than it has returns: it refuses and only
skipped blocks are gone, or it gives all slots and takes as many free blocks as it counted. -/
theorem allocateSlots_total (accepted : Accepted cfg) (served : Served cfg kv label)
    (call : Call cfg label kv r args)
    (silent : cfg.enableCaching = true → cfg.enableKvCacheEvents = false)
    (growing : Growing r.requestId (tokensNeedSlot cfg r args) args.numEncoderTokens kv.managers
      (kv.givenHits args)) :
    ∃ kv₁ : KVCacheManager H,
      removeSkippedBlocks r.requestId r.numComputedTokens kv.managers kv.blockPool =
        .ok (kv₁.managers, kv₁.blockPool) ∧
      let needed := numBlocksToAllocate kv₁.blockPool r.requestId (tokensNeedSlot cfg r args)
        args.numEncoderTokens kv₁.managers (kv.givenHits args)
      ((kv₁.blockPool.getNumFreeBlocks : Int) < needed ∧
          kv.allocateSlots cfg r args = .ok (none, kv₁)) ∨
        (needed ≤ (kv₁.blockPool.getNumFreeBlocks : Int) ∧
          ∃ new kv', kv.allocateSlots cfg r args = .ok (some new, kv') ∧
            (∀ m ∈ kv'.managers, m.spec.kind ≠ .crossAttention →
              cdiv (tokensNeedSlot cfg r args) m.blockSize ≤ (m.blocksOf r.requestId).length) ∧
            (kv'.blockPool.getNumFreeBlocks : Int) = kv₁.blockPool.getNumFreeBlocks - needed) := by
  have sound := served.sound accepted
  obtain ⟨ms, p, skip⟩ := call.skips_ok sound
  obtain ⟨_, _, same, skipped⟩ := sound.balanced.removeSkippedBlocks skip
  refine ⟨⟨p, ms⟩, skip, ?_⟩
  -- The call up to the check of the free blocks.
  have run : kv.allocateSlots cfg r args =
      if numBlocksToAllocate p r.requestId (tokensNeedSlot cfg r args) args.numEncoderTokens ms
          (kv.givenHits args) > (p.getNumFreeBlocks : Int) then .ok (none, ⟨p, ms⟩)
      else commitSlots cfg ⟨p, ms⟩ r args (kv.givenHits args) >>= fun out =>
        .ok (some out.1, out.2) := by
    unfold allocateSlots
    rw [require, if_pos (by have := call.positive; omega)]
    show (removeSkippedBlocks _ _ _ _ >>= _) = _
    rw [skip]
    rfl
  rw [run]
  by_cases short : numBlocksToAllocate p r.requestId (tokensNeedSlot cfg r args)
      args.numEncoderTokens ms (kv.givenHits args) > (p.getNumFreeBlocks : Int)
  · exact .inl ⟨short, if_pos short⟩
  · right
    have room := not_lt.mp short
    have after : Sound cfg (Function.update label r.requestId r.blockHashes) ⟨p, ms⟩ :=
      (sound.relabel call.grown).removeSkippedBlocks accepted
        (fun enabled m member c found => call.skips enabled member found) skip
    have aligned : GroupHits cfg p r.blockHashes (kv.givenHits args) :=
      List.Forall₂.imp (fun _ _ here => here.same same.hash) (call.aligned accepted sound.balanced)
    have savable : Savable ms r.requestId (kv.givenHits args) := by
      rcases call.savable accepted sound.balanced with none | free
      · exact .inl none
      · refine .inr (forall_of_forall₂ (fun m m' here free => ?_) skipped free)
        rw [here.spec, here.counts]
        exact free
    have growing' : Growing r.requestId (tokensNeedSlot cfg r args) args.numEncoderTokens ms
        (kv.givenHits args) := by
      intro i m' found
      obtain ⟨m, before, here⟩ := forall₂_at skipped found
      rw [here.length, Manager.required_eq here.spec here.blockSize]
      exact growing i m before
    obtain ⟨new, kv', commit, covers, count⟩ := commitSlots_ok accepted after
      (update_self ..) call.distinct aligned call.hits_empty savable
      (fun enabled now => (call.commits enabled now).skipped skipped) silent growing' room
    refine ⟨room, new, kv', ?_, fun m member kind => ?_, count⟩
    · rw [if_neg short, commit]
      rfl
    · exact (Manager.cdiv_le_required kind _ _).trans (covers m member)

/-- A decoder with self-attention and cross-attention, without prefix caching and with three blocks to give. -/
def crossConfig : KVConfig where
  groups := [⟨.fullAttention, 2, Nat.two_pos⟩, ⟨.crossAttention, 2, Nat.two_pos⟩]
  numBlocks := 4
  blocksPositive := by decide
  enableCaching := false
  useEagle := false
  maxModelLen := 8
  dcpWorldSize := 1

/-- A request with a prompt of two tokens that has computed some tokens. -/
def transcription (requestId : RequestId) (numComputedTokens : Int) : Request Nat where
  requestId := requestId
  promptTokenIds := [1, 2]
  samplingParams := some { maxTokens := 4 }
  maxTokens := 4
  numComputedTokens := numComputedTokens

/-- Its first call: the prompt, with four tokens of the encoder. -/
def prefillArgs : AllocArgs := { numNewTokens := 2, numEncoderTokens := 4 }

/-- Its next call: one token, and nothing for the encoder. -/
def decodeArgs : AllocArgs := { numNewTokens := 1 }

/-- A call without hits and without prefix caching, for a request without hashes. -/
theorem Call.plain (disabled : cfg.enableCaching = false) (positive : 0 < args.numNewTokens)
    (none : args.newComputedBlocks = none) (unhashed : r.blockHashes = [])
    (unlabelled : label r.requestId = [])
    (covered : ∀ m ∈ kv.managers, m.firstUsefulBlock r.requestId r.numComputedTokens ≤
      (m.blocksOf r.requestId).length) : Call cfg label kv r args where
  positive := positive
  looked := .inl (by rw [givenHits, none]; rfl)
  distinct := by rw [unhashed]; exact nodup_nil
  grown := by simp [unhashed, unlabelled]
  covered m member := by
    rw [if_neg (by simp [disabled])]
    exact covered m member
  commits enabled := absurd enabled (by simp [disabled])

/-- A third group with a sliding window, and eight blocks to give. -/
def mixedConfig : KVConfig :=
  { crossConfig with
    groups := ⟨.slidingWindow 2, 2, Nat.two_pos⟩ :: crossConfig.groups
    numBlocks := 9
    blocksPositive := by decide }

/-- A second request, beside one that has four of the blocks, finds four, needs four, and takes them all. -/
theorem allocateSlots_total_prefill : ∃ (kv : KVCacheManager Nat) (label : RequestId → List Nat),
    Served mixedConfig kv label ∧ (∀ m ∈ kv.managers, m.blocksOf 0 ≠ []) ∧
      ∃ new kv', kv.allocateSlots mixedConfig (transcription 1 0) prefillArgs = .ok (some new, kv') ∧
        kv'.blockPool.getNumFreeBlocks = 0 := by
  obtain ⟨_, kv, first, used, covered, growing, skips⟩ : ∃ result kv,
      (KVCacheManager.init mixedConfig : KVCacheManager Nat).allocateSlots mixedConfig
        (transcription 0 0) prefillArgs = .ok (result, kv) ∧ (∀ m ∈ kv.managers, m.blocksOf 0 ≠ []) ∧
      (∀ m ∈ kv.managers, m.firstUsefulBlock 1 0 ≤ (m.blocksOf 1).length) ∧
      Growing 1 2 4 kv.managers (kv.givenHits prefillArgs) ∧
      ∃ ms p, removeSkippedBlocks 1 0 kv.managers kv.blockPool = .ok (ms, p) ∧
        p.getNumFreeBlocks = 4 ∧
        numBlocksToAllocate p 1 2 4 ms (kv.givenHits prefillArgs) = 4 := by
    decide +kernel
  have served := Served.step .init (.allocate rfl
    (.plain rfl (by decide) rfl rfl rfl (by decide)) first)
  have call : Call mixedConfig (Function.update (fun _ => []) 0 []) kv (transcription 1 0) prefillArgs :=
    .plain rfl (by decide) rfl rfl rfl covered
  obtain ⟨kv₁, skip, outcome⟩ := allocateSlots_total (.of_disabled rfl) served call (fun _ => rfl) growing
  obtain ⟨ms', p', skip', free, needed⟩ := skips
  cases skip.symm.trans skip'
  refine ⟨kv, _, served, used, ?_⟩
  rcases outcome with ⟨short, _⟩ | ⟨_, new, kv', granted, _, count⟩
  · have short : (kv₁.blockPool.getNumFreeBlocks : Int) <
        numBlocksToAllocate kv₁.blockPool 1 2 4 kv₁.managers (kv.givenHits prefillArgs) := short
    omega
  · have count : (kv'.blockPool.getNumFreeBlocks : Int) = kv₁.blockPool.getNumFreeBlocks -
        numBlocksToAllocate kv₁.blockPool 1 2 4 kv₁.managers (kv.givenHits prefillArgs) := count
    exact ⟨new, kv', granted, by omega⟩

/-- The next call asks the encoder's group for two blocks fewer than it has, and dies for want of one. -/
theorem decode_raises : ∃ (kv : KVCacheManager Nat) (label : RequestId → List Nat),
    Accepted crossConfig ∧ Served crossConfig kv label ∧
      Call crossConfig label kv (transcription 0 2) decodeArgs ∧
      kv.allocateSlots crossConfig (transcription 0 2) decodeArgs =
        .error ⟨.value, .getNewBlocks⟩ := by
  have evaluated : (do
      let (_, kv) ← (KVCacheManager.init crossConfig : KVCacheManager Nat).allocateSlots crossConfig
        (transcription 0 0) prefillArgs
      .ok (decide (∀ m ∈ kv.managers, m.firstUsefulBlock 0 2 ≤ (m.blocksOf 0).length) &&
        match kv.allocateSlots crossConfig (transcription 0 2) decodeArgs with
        | .error e => decide (e = ⟨.value, .getNewBlocks⟩)
        | .ok _ => false)) = (.ok true : Except Err Bool) := by decide +kernel
  obtain ⟨⟨result, kv⟩, prefill, built⟩ := bind_eq_ok.mp evaluated
  simp only [Except.ok.injEq, Bool.and_eq_true, decide_eq_true_eq] at built
  obtain ⟨covered, raised⟩ := built
  refine ⟨kv, _, .of_disabled rfl, .step .init (.allocate rfl
      (.plain rfl (by decide) rfl rfl rfl (by decide)) prefill),
    .plain rfl (by decide) rfl rfl rfl covered, ?_⟩
  split at raised
  · rename_i e run
    rw [run, of_decide_eq_true raised]
  · cases raised

/-- With prefix caching, a block in a request's list has the request's own hash of its place, or it has no
hash and no other request of the group has it: requests share blocks only through the prefix cache. -/
theorem blocks_cached_or_own (accepted : Accepted cfg) (served : Served cfg kv label)
    (enabled : cfg.enableCaching = true) {m : Manager} (known : m ∈ kv.managers) {i : Nat} {b : BlockId}
    (real : b ≠ nullBlock) (found : (m.blocksOf id)[i]? = some b) :
    (∃ h, (label id)[i]? = some h ∧
        (kv.blockPool.blocks b).blockHash = some (h, m.kvCacheGroupId)) ∨
      ((kv.blockPool.blocks b).blockHash = none ∧ ∀ id', b ∈ m.blocksOf id' → id' = id) := by
  have sound := served.sound accepted
  have member := mem_of_getElem? found
  obtain ⟨c, count⟩ := PyDict.mem_keys_iff.mp (sound.balanced.tracked m known
    (accepted.uncrossed enabled _ (sound.balanced.spec_mem known)) id (ne_nil_of_mem member))
  have placed := sound.placed enabled m known id c count
  rcases lt_or_ge (i : Int) c with cached | beyond
  · exact .inl ((placed.cached i b cached found).resolve_left real)
  · obtain ⟨-, unhashed, single⟩ := placed.own i b beyond found
    refine .inr ⟨unhashed, fun id' theirs => ?_⟩
    -- A second list would count as a second user.
    by_contra apart
    have counted := sound.balanced.ledger.pool.counted b real
    have both := m.count_add_le_occurrences apart b
    have all : m.occurrences b ≤ occurrences kv.managers b :=
      le_sum_of_mem (mem_map_of_mem known)
    have here := count_pos_iff.mpr member
    have there := count_pos_iff.mpr theirs
    omega

/-- Self-attention alone, with prefix caching. -/
def cachingConfig : KVConfig :=
  { crossConfig with groups := [⟨.fullAttention, 2, Nat.two_pos⟩], enableCaching := true }

/-- Requests that have the hash of their first block, and tokens behind it. -/
def hashedPrompt (requestId : RequestId) : Request Nat :=
  { transcription requestId 0 with promptTokenIds := [1, 2, 3], blockHashes := [7] }

/-- The first of them computes all of its prompt. -/
def promptArgs : AllocArgs := { numNewTokens := 3 }

/-- The other one has found the first block in the cache. -/
def sharedArgs : AllocArgs :=
  { numNewTokens := 1, numNewComputedTokens := 2, newComputedBlocks := some [[1]] }

/-- Two requests share their first block, and the block behind it is each one's own. -/
theorem blocks_cached_or_own_hashedPrompt : ∃ (kv : KVCacheManager Nat) (label : RequestId → List Nat),
    Served cachingConfig kv label ∧ ∃ m ∈ kv.managers, m.blocksOf 0 = [1, 2] ∧ m.blocksOf 1 = [1, 3] ∧
      ∀ id, 3 ∈ m.blocksOf id → id = 1 := by
  obtain ⟨_, kv₁, first, ⟨_, n, looked, rfl⟩, each, more, _, kv, second, m, known, lists⟩ :
      ∃ result kv₁, (KVCacheManager.init cachingConfig : KVCacheManager Nat).allocateSlots cachingConfig
        (hashedPrompt 0) promptArgs = .ok (result, kv₁) ∧
      (∃ hits n, kv₁.getComputedBlocks cachingConfig (hashedPrompt 1) = .ok (hits, n) ∧
        kv₁.givenHits sharedArgs = hits) ∧
      (∀ m ∈ kv₁.managers, 1 ∉ m.numCachedBlock.keys ∧
        m.firstUsefulBlock 1 0 ≤ (m.numCachedBlock.get? 1).getD 0 ∧ Int.fdiv 3 m.blockSize ≤ 1) ∧
      (∀ i m, kv₁.managers[i]? = some m → (m.numCachedBlock.get? 1).getD 0 +
        ((kv₁.givenHits sharedArgs).getD i []).length ≤ Int.fdiv 3 m.blockSize) ∧
      ∃ result kv, kv₁.allocateSlots cachingConfig (hashedPrompt 1) sharedArgs = .ok (result, kv) ∧
      ∃ m ∈ kv.managers, m.blocksOf 0 = [1, 2] ∧ m.blocksOf 1 = [1, 3] ∧
        (kv.blockPool.blocks 3).blockHash = none := by
    set_option synthInstance.maxSize 512 in decide +kernel
  have served := Served.step (Served.step .init (.allocate rfl {
    positive := by decide
    looked := .inl rfl
    distinct := by decide
    grown := nil_prefix
    covered := by decide
    commits := fun _ _ => ⟨by decide, by decide, by decide, by decide⟩ } first)) (.allocate rfl {
    positive := by decide
    looked := .inr ⟨⟨n, looked⟩, fun m here => (each m here).1⟩
    distinct := by decide
    grown := nil_prefix
    covered := fun m here => (each m here).2.1
    commits := fun _ _ => ⟨by decide, by decide, more, fun m here => (each m here).2.2⟩ } second)
  have own := blocks_cached_or_own
    ⟨fun _ => .inl (by decide), fun _ => by decide, fun _ => by decide, fun _ => by decide⟩ served rfl
    known (b := 3) (by decide) (i := 1) (by rw [lists.2.1]; rfl)
  refine ⟨kv, _, served, m, known, lists.1, lists.2.1, (own.resolve_left ?_).2⟩
  rintro ⟨h, -, found⟩
  rw [lists.2.2] at found
  cases found

end KVCacheManager

end Mimir
