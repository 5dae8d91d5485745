import Mimir.Connector.Lookup
import Mimir.Sched.Inert
import Mimir.Sched.Pristine

/-! What the connector owes to the requests that a step starts, while the step is scheduled. -/

namespace Mimir

open Python Scheduler MimirConnector List

variable {H : Type} {blockSize : Nat} {kv : KVCacheManager H} {r : Ref} {computed : Scheduler.Computed}
  {n numLocal : Int}

section Attached

variable {K : Type} [DecidableEq K] {prefixHash : List TokenId → K}
  {cfg : MimirConfig H K}

/-- A scheduler around the connector: one attention group, in blocks of the connector's size. -/
structure Config.Attached (cfg : MimirConfig H K)
    (blockSize : Nat) (prefixHash : List TokenId → K) : Prop where
  connects : cfg.connector = some (ops blockSize prefixHash)
  group : ∃ spec, cfg.kv.groups = [spec] ∧ spec.kind.Sized ∧ spec.blockSize = blockSize
  single : cfg.kv.dcpWorldSize ≤ 1

namespace Config.Attached

variable (attached : cfg.Attached blockSize prefixHash)

include attached

/-- The connector loads within the step. -/
theorem loads : cfg.LoadsInStep := by
  intro ops connected c req numLocal
  rw [attached.connects] at connected
  cases connected
  obtain ⟨external, c', answer, _⟩ :=
    getNumNewMatchedTokens_spec blockSize prefixHash c req numLocal
  have eq : (ops blockSize prefixHash).getNumNewMatchedTokens c req numLocal =
      ((some external, false), c') := answer
  rw [eq]

/-- The connector ignores the ends of requests. -/
theorem inert : cfg.Inert := by
  intro ops connected
  rw [attached.connects] at connected
  cases connected
  refine ⟨fun c req blocks res c' answered => ?_, fun _ _ => rfl⟩
  cases answered
  rfl

/-- Blocks have a size. -/
theorem positive : 0 < blockSize := by
  obtain ⟨spec, _, _, size⟩ := attached.group
  rw [← size]
  exact spec.positive

variable [DecidableEq H]

/-- The manager of the only group. -/
theorem manager (balanced : kv.Balanced cfg.kv) :
    ∃ m, kv.managers = [m] ∧ m.spec.kind.Sized ∧ m.blockSize = blockSize := by
  obtain ⟨spec, groups, sized, size⟩ := attached.group
  have single := attached.single
  have layout := balanced.layout
  unfold KVCacheManager.init at layout
  simp only [groups, mapIdx_cons, mapIdx_nil, map_cons, map_nil] at layout
  obtain ⟨m, only, same⟩ := map_eq_singleton_iff.mp layout
  simp only [Manager.layout, Manager.init, Prod.mk.injEq] at same
  obtain ⟨rfl, blocks, _⟩ := same
  refine ⟨m, only, sized, ?_⟩
  rw [blocks, if_neg (by omega), size]

/-- The tokens found locally are those of the blocks found. -/
theorem hit_length (balanced : kv.Balanced cfg.kv) {req : Request H} {lists : List (List BlockId)}
    (found : kv.getComputedBlocks cfg.kv req = .ok (lists, numLocal)) :
    numLocal = ((lists.headD []).length : Int) * blockSize := by
  obtain ⟨m, only, _⟩ := attached.manager balanced
  obtain ⟨spec, groups, _, size⟩ := attached.group
  have single := attached.single
  have nothing : (kv.createEmptyBlockList.headD []).length = 0 := by
    simp [KVCacheManager.createEmptyBlockList, only]
  unfold KVCacheManager.getComputedBlocks at found
  split at found
  · cases found
    rw [nothing]
    simp
  · unfold KVCacheManager.findLongestHit at found
    split at found
    · rw [groups] at found
      obtain ⟨hit, _, built⟩ := bind_eq_ok.mp found
      cases built
      rw [if_neg (by omega), size]
    · cases found
      rw [nothing]
      simp

end Config.Attached

end Attached

section Execute

variable {K : Type} [DecidableEq K] {prefixHash : List TokenId → K}

namespace MimirConnector

omit [DecidableEq K] in
/-- Noting a load does not concern the store. -/
theorem updateStateAfterAlloc_store (c : MimirConnector H K) (request : Request H)
    (blocks : List (List BlockId)) (n : Int) :
    (c.updateStateAfterAlloc request blocks n).cpuKvStore = c.cpuKvStore := by
  unfold updateStateAfterAlloc
  split <;> rfl

omit [DecidableEq K] in
/-- Noting a load does not concern the lengths of hits. -/
theorem updateStateAfterAlloc_hitLengths (c : MimirConnector H K) (request : Request H)
    (blocks : List (List BlockId)) (n : Int) :
    (c.updateStateAfterAlloc request blocks n).hitLengths = c.hitLengths := by
  unfold updateStateAfterAlloc
  split <;> rfl

/-- Executing a step entry by entry. -/
theorem executeStep_cons (c : MimirConnector H K) (entry : RequestId × ReqMeta)
    (rest : MimirConnectorMetadata) :
    c.executeStep prefixHash (entry :: rest) =
      (c.storeEntry prefixHash entry).executeStep prefixHash rest := rfl

/-- Executing a step leaves the pending loads alone. -/
theorem executeStep_needLoad (c : MimirConnector H K) (metadata : MimirConnectorMetadata) :
    (c.executeStep prefixHash metadata).requestsNeedLoad = c.requestsNeedLoad := by
  induction metadata generalizing c with
  | nil => rfl
  | cons entry rest ih =>
    rw [executeStep_cons, ih]
    unfold storeEntry
    split <;> rfl

variable {c : MimirConnector H K}

/-- What is stored stays stored. -/
theorem storeEntry_grows {key : K} (entry : RequestId × ReqMeta)
    (present : key ∈ c.cpuKvStore.keys) : key ∈ (c.storeEntry prefixHash entry).cpuKvStore.keys := by
  unfold storeEntry
  split
  · exact present
  · exact PyDict.mem_keys_set.mpr (.inr present)

/-- What is stored stays stored while a step is executed. -/
theorem executeStep_grows {key : K} (metadata : MimirConnectorMetadata)
    (present : key ∈ c.cpuKvStore.keys) :
    key ∈ (c.executeStep prefixHash metadata).cpuKvStore.keys := by
  induction metadata generalizing c with
  | nil => exact present
  | cons entry rest ih =>
    rw [executeStep_cons]
    exact ih (storeEntry_grows entry present)

/-- Every store entry of a step with slots is stored when the step is executed. -/
theorem executeStep_stores (c : MimirConnector H K) {metadata : MimirConnectorMetadata}
    {entry : RequestId × ReqMeta} (member : entry ∈ metadata) (isStore : entry.2.isStore = true)
    (slots : entry.2.slotMapping ≠ []) :
    prefixHash entry.2.tokenIds ∈ (c.executeStep prefixHash metadata).cpuKvStore.keys := by
  induction metadata generalizing c with
  | nil => cases member
  | cons first rest ih =>
    rw [executeStep_cons]
    rcases mem_cons.mp member with rfl | later
    · apply executeStep_grows
      unfold storeEntry
      rw [if_neg (by simp [isStore, slots])]
      exact PyDict.mem_keys_set.mpr (.inl rfl)
    · exact ih _ later

end MimirConnector

end Execute

section Asking

variable {K : Type} [DecidableEq K] [DecidableEq H]
  {prefixHash : List TokenId → K} {cfg : MimirConfig H K}
  {s : Scheduler H (MimirConnector H K)} {c' : MimirConnector H K}

/-- A lookup for one request notes its hit and nothing else. -/
structure MimirConnector.Asked (c c' : MimirConnector H K) (id : RequestId) : Prop where
  needLoad : c'.requestsNeedLoad = c.requestsNeedLoad
  store : c'.cpuKvStore = c.cpuKvStore
  others : ∀ other, other ≠ id → c'.hitLengths.get? other = c.hitLengths.get? other

omit [DecidableEq K] [DecidableEq H] in
/-- Without a lookup nothing is noted. -/
theorem MimirConnector.Asked.refl (c : MimirConnector H K) (id : RequestId) : Asked c c id :=
  ⟨rfl, rfl, fun _ _ => rfl⟩

/-- What a waiting request is started with: nothing beyond what it has, or the result of a lookup. -/
structure Scheduler.Looked (cfg : MimirConfig H K)
    (blockSize : Nat) (prefixHash : List TokenId → K) (s : Scheduler H (MimirConnector H K)) (r : Ref)
    (computed : Scheduler.Computed) (c' : MimirConnector H K) : Prop where
  nonneg : 0 ≤ computed.numExternalComputedTokens
  fresh : (s.objs r).numComputedTokens = 0 →
    computed.numComputedTokens =
        computed.numNewLocalComputedTokens + computed.numExternalComputedTokens ∧
      computed.numNewLocalComputedTokens =
        ((computed.newComputedBlocks.headD []).length : Int) * blockSize
  external : 0 < computed.numExternalComputedTokens → (s.objs r).numComputedTokens = 0 ∧
    ∃ k : Nat, MimirConnector.Stored blockSize prefixHash s.connector (s.objs r).promptTokenIds k ∧
      computed.numNewLocalComputedTokens + computed.numExternalComputedTokens = k ∧
      c'.hitLengths.get? (s.objs r).requestId = some (k : Int)

/-- Looking up a waiting request asks the connector about it at most. -/
theorem computedTokens_asked (attached : cfg.Attached blockSize prefixHash)
    {answer : Option Scheduler.Computed} (asked : s.computedTokens cfg r = .ok (answer, c')) :
    MimirConnector.Asked s.connector c' (s.objs r).requestId := by
  unfold computedTokens at asked
  dsimp only at asked
  split at asked
  · obtain ⟨⟨lists, numLocal⟩, _, tail⟩ := bind_eq_ok.mp asked
    obtain ⟨external, c₁, told, _, unchanged, noted, _⟩ :=
      getNumNewMatchedTokens_spec blockSize prefixHash s.connector (s.objs r) numLocal
    have eq : (ops blockSize prefixHash).getNumNewMatchedTokens s.connector (s.objs r)
        numLocal = ((some external, false), c₁) := told
    rw [attached.connects] at tail
    simp only [eq, Except.ok.injEq, Prod.mk.injEq] at tail
    obtain ⟨_, rfl⟩ := tail
    by_cases zero : external = 0
    · rw [unchanged zero]
      exact .refl _ _
    · obtain ⟨n, _, _, rfl⟩ := noted (by omega)
      exact ⟨rfl, rfl, fun other apart => PyDict.get?_set_ne _ _ apart⟩
  · cases asked
    exact .refl _ _

/-- What the answer of a lookup is made of. -/
theorem computedTokens_looked (attached : cfg.Attached blockSize prefixHash)
    (balanced : s.kvCacheManager.Balanced cfg.kv)
    (asked : s.computedTokens cfg r = .ok (some computed, c')) :
    Scheduler.Looked cfg blockSize prefixHash s r computed c' := by
  unfold computedTokens at asked
  dsimp only at asked
  split at asked
  · rename_i unstarted
    obtain ⟨⟨lists, numLocal⟩, found, tail⟩ := bind_eq_ok.mp asked
    obtain ⟨external, c₁, told, nonneg, _, noted, _⟩ :=
      getNumNewMatchedTokens_spec blockSize prefixHash s.connector (s.objs r) numLocal
    have eq : (ops blockSize prefixHash).getNumNewMatchedTokens s.connector (s.objs r)
        numLocal = ((some external, false), c₁) := told
    rw [attached.connects] at tail
    simp only [eq, Except.ok.injEq, Prod.mk.injEq, Option.some.injEq] at tail
    obtain ⟨rfl, rfl⟩ := tail
    refine ⟨nonneg, fun _ => ⟨rfl, attached.hit_length balanced found⟩, fun some' => ⟨unstarted, ?_⟩⟩
    obtain ⟨n, stored, sum, rfl⟩ := noted some'
    exact ⟨n, stored, sum, PyDict.get?_set_self _ _ _⟩
  · rename_i started
    cases asked
    exact ⟨le_refl _, fun zero => absurd zero started, fun some' => absurd some' (lt_irrefl 0)⟩

end Asking

section Promises

variable {K : Type} {prefixHash : List TokenId → K}
  {cfg : MimirConfig H K}
  {f f' : Frame H (MimirConnector H K)}

/-- What the plan and the connector hold for a request that a step starts with `numLocal` cached
tokens, `external` stored ones and `n` tokens to compute. -/
structure Frame.Promised (cfg : MimirConfig H K)
    (blockSize : Nat) (prefixHash : List TokenId → K) (f : Frame H (MimirConnector H K)) (r : Ref)
    (numLocal external n : Int) (blocks : List BlockId) : Prop where
  listed : r ∈ f.plan.scheduledNewReqs ++ f.plan.scheduledResumedReqs
  running : r ∈ f.sched.running
  scheduled : f.plan.numScheduledTokens.get? (f.sched.objs r).requestId = some n
  positive : 0 < n
  fits : (f.sched.objs r).numComputedTokens + n ≤ (f.sched.objs r).numTokens
  newBlocks : f.plan.reqToNewBlocks.get? (f.sched.objs r).requestId = some [blocks]
  held : f.sched.kvCacheManager.getBlocks (f.sched.objs r).requestId = [blocks]
  nonneg : 0 ≤ external
  /-- New requests were looked up, and so was every request with stored tokens. -/
  looked : r ∈ f.plan.scheduledNewReqs ∨ 0 < external →
    (f.sched.objs r).numComputedTokens = numLocal + external ∧
    ∃ hits : Nat, numLocal = hits * blockSize ∧ (blocks.length : Int) =
      max (hits : Int) (cdiv (min (numLocal + external + n) cfg.kv.maxModelLen) blockSize)
  load : 0 < external → ∃ (request : Request H) (k : Nat),
    f.sched.connector.requestsNeedLoad.get? (f.sched.objs r).requestId = some request ∧
    request.toEngineCoreRequest = (f.sched.objs r).toEngineCoreRequest ∧
    request.outputTokenIds = (f.sched.objs r).outputTokenIds ∧
    f.sched.connector.hitLengths.get? (f.sched.objs r).requestId = some (k : Int) ∧
    MimirConnector.Stored blockSize prefixHash f.sched.connector (f.sched.objs r).promptTokenIds k ∧
    numLocal + external = k
  store : external = 0 →
    (f.sched.objs r).requestId ∉ f.sched.connector.requestsNeedLoad.keys

/-- A step that leaves a started request and what the connector holds for it. -/
theorem Frame.Promised.keep {external : Int} {blocks : List BlockId}
    (promised : f.Promised cfg blockSize prefixHash r numLocal external n blocks)
    (keeps : f.Keeps f' r)
    (new : r ∈ f'.plan.scheduledNewReqs ↔ r ∈ f.plan.scheduledNewReqs)
    (resumed : r ∈ f.plan.scheduledResumedReqs → r ∈ f'.plan.scheduledResumedReqs)
    (needLoad : f'.sched.connector.requestsNeedLoad.get? (f.sched.objs r).requestId =
      f.sched.connector.requestsNeedLoad.get? (f.sched.objs r).requestId)
    (hits : f'.sched.connector.hitLengths.get? (f.sched.objs r).requestId =
      f.sched.connector.hitLengths.get? (f.sched.objs r).requestId)
    (store : f'.sched.connector.cpuKvStore = f.sched.connector.cpuKvStore) :
    f'.Promised cfg blockSize prefixHash r numLocal external n blocks := by
  refine ⟨?_, keeps.running, ?_, promised.positive, ?_, ?_, ?_, promised.nonneg, ?_, ?_, ?_⟩
  · rcases mem_append.mp promised.listed with isNew | isResumed
    · exact mem_append_left _ (new.mpr isNew)
    · exact mem_append_right _ (resumed isResumed)
  · rw [keeps.object, keeps.scheduled]
    exact promised.scheduled
  · rw [keeps.object]
    exact promised.fits
  · rw [keeps.object, keeps.newBlocks]
    exact promised.newBlocks
  · rw [keeps.object, keeps.blocks]
    exact promised.held
  · rw [keeps.object, new]
    exact promised.looked
  · intro some'
    obtain ⟨request, k, found, sent, output, hit, stored, sum⟩ := promised.load some'
    rw [keeps.object, needLoad, hits]
    refine ⟨request, k, found, sent, output, hit, ⟨stored.positive, stored.aligned, stored.fits, ?_⟩, sum⟩
    rw [store]
    exact stored.present
  · intro none'
    rw [keeps.object, ← PyDict.get?_eq_none_iff, needLoad, PyDict.get?_eq_none_iff]
    exact promised.store none'

/-- Along the scheduling loops: every request started since `base` has what it was promised. -/
structure Frame.Promises (cfg : MimirConfig H K)
    (blockSize : Nat) (prefixHash : List TokenId → K) (base : List Effect)
    (f : Frame H (MimirConnector H K)) (notes : List Effect) : Prop where
  history : f.sched.history = notes ++ base
  kept : ∀ r numLocal external, .started r numLocal external ∈ notes →
    ∃ n blocks, f.Promised cfg blockSize prefixHash r numLocal external n blocks
  noted : ∀ r ∈ f.plan.scheduledNewReqs ++ f.plan.scheduledResumedReqs,
    ∃ numLocal external, .started r numLocal external ∈ notes
  distinct : (f.plan.scheduledNewReqs ++ f.plan.scheduledResumedReqs).Nodup
  owners : ∀ id ∈ f.sched.connector.requestsNeedLoad.keys,
    ∃ r ∈ f.plan.scheduledNewReqs ++ f.plan.scheduledResumedReqs, (f.sched.objs r).requestId = id

variable {base notes : List Effect}

/-- A started request is running. -/
theorem Frame.Promises.running (promises : f.Promises cfg blockSize prefixHash base notes)
    (listed : r ∈ f.plan.scheduledNewReqs ++ f.plan.scheduledResumedReqs) :
    r ∈ f.sched.running := by
  obtain ⟨numLocal, external, started⟩ := promises.noted r listed
  obtain ⟨n, blocks, promised⟩ := promises.kept r numLocal external started
  exact promised.running

variable [DecidableEq H] [DecidableEq K]

variable (attached : cfg.Attached blockSize prefixHash)

include attached

variable {connector : MimirConnector H K} {encoderTokens : Int}
  {newBlocks : List (List BlockId)}

omit [DecidableEq H] in
/-- The connector notes the started request under its own id. -/
theorem Frame.Started.informed
    (started : (f.granted cfg r computed connector newBlocks kv).Started cfg f' r computed n) :
    f'.sched.connector = connector.updateStateAfterAlloc (f.sched.objs r)
      (obtainedBlocks computed newBlocks) computed.numExternalComputedTokens := by
  obtain ⟨numCached, state⟩ := started.state
  rw [state]
  show cfg.informed connector (f.sched.objs r) computed newBlocks = _
  rw [Config.informed, attached.connects]
  rfl

/-- The request at the front gets what it is promised when it is started. -/
theorem Frame.Started.promised
    (balanced : f.sched.kvCacheManager.Balanced cfg.kv) (unslotted : Unslotted f.flat)
    (pristine : Mimir.Pristine f.sched)
    (absent : (f.sched.objs r).requestId ∉ f.sched.connector.requestsNeedLoad.keys)
    (starts : f.sched.Starts cfg r computed connector n encoderTokens newBlocks kv)
    (started : (f.granted cfg r computed connector newBlocks kv).Started cfg f' r computed n)
    (unlisted : r ∉ f.plan.scheduledNewReqs) :
    ∃ blocks, f'.Promised cfg blockSize prefixHash r computed.numNewLocalComputedTokens
      computed.numExternalComputedTokens n blocks := by
  have looked := computedTokens_looked attached balanced starts.asked
  have told := computedTokens_asked attached starts.asked
  obtain ⟨m, only, sized, size⟩ := attached.manager balanced
  obtain ⟨m', only', _, length⟩ := KVCacheManager.allocateSlots_length only sized.1 starts.alloc
  obtain ⟨numCached, state⟩ := started.state
  have object : f'.sched.objs r = { f.sched.objs r with
      status := .running
      numComputedTokens := computed.numComputedTokens
      numCachedTokens := numCached } := by
    rw [state]
    exact Function.update_self ..
  have id : (f'.sched.objs r).requestId = (f.sched.objs r).requestId := by rw [object]
  -- A waiting request has no blocks, so all of them are hits or new.
  have none' : m.blocksOf (f.sched.objs r).requestId = [] := by
    by_contra some'
    have member : m ∈ f.sched.kvCacheManager.managers := by simp [only]
    exact unslotted r (mem_append_right _ started.waits) m member
      (balanced.tracked m member sized.1 _ some')
  have blocks : kv.getBlocks (f.sched.objs r).requestId =
      [m'.blocksOf (f.sched.objs r).requestId] := by
    simp [KVCacheManager.getBlocks, only']
  have informed := started.informed attached
  refine ⟨m'.blocksOf (f.sched.objs r).requestId, ?_, ?_, ?_, starts.positive, ?_, ?_, ?_, looked.nonneg,
    ?_, ?_, ?_⟩
  · rcases started.noted with ⟨_, new, _⟩ | ⟨_, _, resumed⟩
    · rw [new]
      simp
    · rw [resumed]
      simp
  · rw [state]
    simp
  · rw [id, started.scheduled]
    exact PyDict.get?_set_self ..
  · rw [object]
    show computed.numComputedTokens + n ≤ ((f.sched.objs r).numTokens : Int)
    have bound := starts.bound
    omega
  · rw [id, started.newBlocks]
    exact (PyDict.get?_set_self ..).trans (congrArg some blocks)
  · rw [id, state]
    exact blocks
  · -- A new request has computed nothing, so it was looked up.
    intro which
    have unstarted : (f.sched.objs r).numComputedTokens = 0 := by
      rcases which with new | some'
      · rcases started.noted with ⟨status, _, _⟩ | ⟨_, same, _⟩
        · exact pristine.idle r (congrArg _ status)
        · rw [same] at new
          exact absurd new unlisted
      · exact (looked.external some').1
    obtain ⟨sum, localHits⟩ := looked.fresh unstarted
    refine ⟨by rw [object]; exact sum, (computed.newComputedBlocks.headD []).length, localHits, ?_⟩
    have need : KVCacheManager.tokensNeedSlot cfg.kv (f.sched.objs r)
        (waitingAllocArgs cfg (f.sched.objs r) computed n encoderTokens) =
        min (computed.numNewLocalComputedTokens + computed.numExternalComputedTokens + n)
          cfg.kv.maxModelLen := by
      simp only [KVCacheManager.tokensNeedSlot, waitingAllocArgs, unstarted, if_true]
      congr 1
      omega
    rw [Manager.tokensNeeded_sized sized, need, size, none'] at length
    simpa [waitingAllocArgs] using length
  · intro some'
    obtain ⟨_, k, stored, sum, hit⟩ := looked.external some'
    have noted : f'.sched.connector = { connector with
        requestsNeedLoad := connector.requestsNeedLoad.set (f.sched.objs r).requestId
          (f.sched.objs r) } := by
      rw [informed, updateStateAfterAlloc, if_pos some']
    refine ⟨f.sched.objs r, k, ?_, by rw [object], by rw [object], ?_, ?_, sum⟩
    · rw [id, noted, PyDict.get?_set_self]
    · rw [id, noted]
      exact hit
    · rw [object]
      refine ⟨stored.positive, stored.aligned, stored.fits, ?_⟩
      rw [noted]
      show _ ∈ connector.cpuKvStore.keys
      rw [told.store]
      exact stored.present
  · intro zero
    rw [id, informed, updateStateAfterAlloc, if_neg (by omega), told.needLoad]
    exact absent

/-- Scheduling reads the store and never writes it. -/
theorem LoopStep.Progress.store (progress : LoopStep.Progress cfg f f') :
    f'.sched.connector.cpuKvStore = f.sched.connector.cpuKvStore := by
  cases progress with
  | early before after history connector => rw [connector]
  | stay new resumed history keeps connector =>
    rcases connector with same | ⟨w, answer, waits, asked⟩
    · rw [same]
    · exact (computedTokens_asked attached asked).store
  | start r computed connector n encoderTokens newBlocks kv starts started =>
    rw [started.informed attached, updateStateAfterAlloc_store,
      (computedTokens_asked attached starts.asked).store]

/-- Every step of the loops keeps the promises made so far. -/
theorem Frame.Promises.step (inv : QueueInv f.flat)
    (link : Link f.flat) (balanced : f.sched.kvCacheManager.Balanced cfg.kv)
    (unslotted : Unslotted f.flat) (pristine : Mimir.Pristine f.sched)
    (promises : f.Promises cfg blockSize prefixHash base notes)
    (progress : LoopStep.Progress cfg f f') :
    ∃ notes', f'.Promises cfg blockSize prefixHash base notes' := by
  -- A started request and a waiting one have different ids.
  have apart : ∀ {x w : Ref}, x ∈ f.plan.scheduledNewReqs ++ f.plan.scheduledResumedReqs →
      w ∈ f.sched.waiting → x ≠ w ∧ (f.sched.objs x).requestId ≠ (f.sched.objs w).requestId :=
    fun listed waits => link.apart inv (promises.running listed) waits
  cases progress with
  | early before after history connector =>
    obtain ⟨more, eq, quiet⟩ := history
    have empty : f.plan.scheduledNewReqs ++ f.plan.scheduledResumedReqs = [] := by
      rw [before.1, before.2]
      rfl
    have empty' : f'.plan.scheduledNewReqs ++ f'.plan.scheduledResumedReqs = [] := by
      rw [after.1, after.2]
      rfl
    refine ⟨more ++ notes, by rw [eq, promises.history, append_assoc], ?_, ?_, ?_, ?_⟩
    · -- Nothing has been started yet.
      intro r numLocal external started
      rcases mem_append.mp started with recent | old
      · have never := quiet _ recent
        cases never
      · obtain ⟨_, _, promised⟩ := promises.kept r numLocal external old
        have listed := promised.listed
        rw [empty] at listed
        cases listed
    · rw [empty']
      simp
    · rw [empty']
      exact nodup_nil
    · rw [connector]
      intro id member
      obtain ⟨r, listed, _⟩ := promises.owners id member
      rw [empty] at listed
      cases listed
  | stay new resumed history keeps connector =>
    -- The connector was asked about a waiting request at most.
    have same : f'.sched.connector.requestsNeedLoad = f.sched.connector.requestsNeedLoad ∧
        f'.sched.connector.cpuKvStore = f.sched.connector.cpuKvStore ∧
        ∀ x ∈ f.plan.scheduledNewReqs ++ f.plan.scheduledResumedReqs,
          f'.sched.connector.hitLengths.get? (f.sched.objs x).requestId =
            f.sched.connector.hitLengths.get? (f.sched.objs x).requestId := by
      rcases connector with eq | ⟨w, answer, waits, asked⟩
      · rw [eq]
        exact ⟨rfl, rfl, fun _ _ => rfl⟩
      · have told := computedTokens_asked attached asked
        exact ⟨told.needLoad, told.store, fun x listed => told.others _ (apart listed waits).2⟩
    obtain ⟨needLoad, store, hits⟩ := same
    refine ⟨notes, by rw [history, promises.history], ?_, ?_, ?_, ?_⟩
    · intro r numLocal external started
      obtain ⟨n, blocks, promised⟩ := promises.kept r numLocal external started
      have listed := promised.listed
      exact ⟨n, blocks, promised.keep (keeps r listed promised.running) (by rw [new])
        (fun isResumed => by rw [resumed]; exact isResumed) (by rw [needLoad]) (hits r listed) store⟩
    · rw [new, resumed]
      exact promises.noted
    · rw [new, resumed]
      exact promises.distinct
    · rw [needLoad, new, resumed]
      intro id member
      obtain ⟨r, listed, own⟩ := promises.owners id member
      refine ⟨r, listed, ?_⟩
      rw [(keeps r listed (promises.running listed)).object]
      exact own
  | start r computed connector n encoderTokens newBlocks kv starts started keeps =>
    have told := computedTokens_asked attached starts.asked
    have unlisted : r ∉ f.plan.scheduledNewReqs ++ f.plan.scheduledResumedReqs := by
      intro listed
      exact (apart listed started.waits).1 rfl
    have absent : (f.sched.objs r).requestId ∉ f.sched.connector.requestsNeedLoad.keys := by
      intro member
      obtain ⟨x, listed, own⟩ := promises.owners _ member
      exact (apart listed started.waits).2 own
    obtain ⟨blocks, promised⟩ := started.promised attached balanced unslotted pristine absent starts
      fun isNew => unlisted (mem_append_left _ isNew)
    have lists : (f'.plan.scheduledNewReqs ++ f'.plan.scheduledResumedReqs).Perm
        (r :: (f.plan.scheduledNewReqs ++ f.plan.scheduledResumedReqs)) := by
      rcases started.noted with ⟨_, new, resumed⟩ | ⟨_, new, resumed⟩
      · rw [new, resumed, append_assoc]
        exact perm_middle
      · rw [new, resumed, ← append_assoc]
        exact perm_append_singleton r _
    have informed := started.informed attached
    obtain ⟨numCached, state⟩ := started.state
    have store : f'.sched.connector.cpuKvStore = f.sched.connector.cpuKvStore := by
      rw [informed, updateStateAfterAlloc_store, told.store]
    have hits : f'.sched.connector.hitLengths = connector.hitLengths := by
      rw [informed, updateStateAfterAlloc_hitLengths]
    have needLoad : ∀ id, id ≠ (f.sched.objs r).requestId →
        f'.sched.connector.requestsNeedLoad.get? id =
          f.sched.connector.requestsNeedLoad.get? id := by
      intro id other
      rw [informed, ← told.needLoad]
      unfold updateStateAfterAlloc
      split
      · exact PyDict.get?_set_ne _ _ other
      · rfl
    refine ⟨.started r computed.numNewLocalComputedTokens computed.numExternalComputedTokens ::
      .granted r (obtainedBlocks computed newBlocks) :: notes, ?_, ?_, ?_, ?_, ?_⟩
    · rw [state, cons_append, cons_append, ← promises.history]
      rfl
    · intro x numLocal external noted
      simp only [mem_cons, Effect.started.injEq, reduceCtorEq, false_or] at noted
      rcases noted with ⟨rfl, rfl, rfl⟩ | old
      · exact ⟨n, blocks, promised⟩
      · obtain ⟨n', blocks', before⟩ := promises.kept x numLocal external old
        obtain ⟨other, ids⟩ := apart before.listed started.waits
        refine ⟨n', blocks', before.keep (keeps x before.listed before.running) ?_ ?_
          (needLoad _ ids) (by rw [hits]; exact told.others _ ids) store⟩
        · rcases started.noted with ⟨_, new, _⟩ | ⟨_, new, _⟩
          · rw [new, mem_append, mem_singleton]
            exact or_iff_left other
          · rw [new]
            rfl
        · rcases started.noted with ⟨_, _, resumed⟩ | ⟨_, _, resumed⟩
          · rw [resumed]
            exact fun isResumed => isResumed
          · rw [resumed]
            exact fun isResumed => mem_append_left _ isResumed
    · intro x listed
      rcases mem_cons.mp (lists.mem_iff.mp listed) with rfl | old
      · exact ⟨_, _, mem_cons_self ..⟩
      · obtain ⟨numLocal, external, started⟩ := promises.noted x old
        exact ⟨numLocal, external, mem_cons_of_mem _ (mem_cons_of_mem _ started)⟩
    · rw [lists.nodup_iff]
      exact nodup_cons.mpr ⟨unlisted, promises.distinct⟩
    · intro id member
      by_cases same : id = (f.sched.objs r).requestId
      · refine ⟨r, lists.mem_iff.mpr (mem_cons_self ..), ?_⟩
        rw [same, state]
        simp only [Function.update_self]
        rfl
      · obtain ⟨request, found⟩ := PyDict.mem_keys_iff.mp member
        rw [needLoad id same] at found
        obtain ⟨x, listed, own⟩ := promises.owners id (PyDict.mem_keys_iff.mpr ⟨request, found⟩)
        refine ⟨x, lists.mem_iff.mpr (mem_cons_of_mem _ listed), ?_⟩
        rw [(keeps x listed (promises.running listed)).object]
        exact own

end Promises

namespace Engine

variable {K : Type} [DecidableEq H] [DecidableEq K]
  {prefixHash : List TokenId → K} {cfg : MimirConfig H K}
  {connector : MimirConnector H K}
  {allowed : MimirEngine H K → Op → Prop}
  {e : MimirEngine H K}

omit [DecidableEq H] in
/-- Executing a batch shows its metadata to the connector. -/
theorem executeBatch_connector (attached : cfg.Attached blockSize prefixHash)
    (s : Scheduler H (MimirConnector H K)) (batch : SchedulerOutput MimirConnectorMetadata) :
    (executeBatch cfg s batch).connector =
      s.connector.executeStep prefixHash (batch.kvConnectorMetadata.getD []) := by
  unfold executeBatch
  rw [attached.connects]
  cases batch.kvConnectorMetadata with
  | none => rfl
  | some => rfl

/-- Between operations no load is pending. -/
theorem Reachable.nothingPending (attached : cfg.Attached blockSize prefixHash)
    (start : connector.requestsNeedLoad = .empty)
    (reached : Reachable cfg connector allowed e) :
    e.sched.connector.requestsNeedLoad = .empty := by
  refine Steps.invariant (I := fun x => x.sched.connector.requestsNeedLoad = .empty) reached start ?_
  intro a b op before _ done
  rcases exec_connector attached.inert done with same | ⟨env, out, _, scheduled, _⟩ |
    ⟨batch, rest, _, _, rfl⟩
  · rw [same.1]
    exact before
  · -- Building the metadata of a step clears the pending loads.
    obtain ⟨f, _, finished⟩ := bind_eq_ok.mp scheduled
    obtain ⟨waiting, out₀, s₁, s₂, _, _, _, _, attachedMeta, advanced, eq⟩ :=
      finishSchedule_parts finished
    unfold attachConnectorMeta at attachedMeta
    rw [attached.connects] at attachedMeta
    obtain ⟨⟨metadata, c⟩, built, out'⟩ := bind_eq_ok.mp attachedMeta
    cases out'
    obtain ⟨new, _, tail⟩ := bind_eq_ok.mp built
    obtain ⟨cached, _, cleared⟩ := bind_eq_ok.mp tail
    cases cleared
    rw [eq]
    show s₂.connector.requestsNeedLoad = .empty
    rw [(updateAfterSchedule_untouched advanced).connector]
  · show (executeBatch cfg a.sched batch).connector.requestsNeedLoad = .empty
    rw [executeBatch_connector attached, executeStep_needLoad]
    exact before

end Engine

end Mimir
