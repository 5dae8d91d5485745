import Mimir.Connector.Promise

/-! What a step loads and stores, against the tokens it counts as computed. -/

namespace Mimir

open Python Scheduler MimirConnector List

variable {H : Type} {blockSize : Nat} {entry : RequestId × ReqMeta} {row : CachedRequestData} {r : Ref}
  {numLocal external n : Int} {blocks : List BlockId} {out : SchedulerOutput MimirConnectorMetadata}

section Metadata

variable {K : Type} {c : MimirConnector H K}

namespace MimirConnector

variable {entries es : MimirConnectorMetadata} {q : NewRequestData}
  {numbers : PyDict RequestId Int} {rows : List CachedRequestData}

/-- The entries for new requests are those of each of them. -/
theorem newReqsMeta_mem {reqs : List NewRequestData}
    (done : c.newReqsMeta blockSize reqs = .ok entries) (entry : RequestId × ReqMeta) :
    entry ∈ entries ↔ ∃ q ∈ reqs, ∃ es, c.newReqMeta blockSize q = .ok es ∧ entry ∈ es := by
  induction reqs generalizing entries with
  | nil =>
    cases done
    simp
  | cons q rest ih =>
    obtain ⟨es, first, tail⟩ := bind_eq_ok.mp done
    obtain ⟨later, others, built⟩ := bind_eq_ok.mp tail
    cases built
    rw [mem_append, ih others]
    simp only [mem_cons, exists_eq_or_imp, first, Except.ok.injEq, exists_eq_left']

/-- The entry of a new request loads when a load is pending for it, and else it stores. -/
theorem newReqMeta_mem (done : c.newReqMeta blockSize q = .ok es) (member : entry ∈ es) :
    ∃ blockIds isStore hit, q.blockIds.head? = some blockIds ∧
      (isStore = true ↔ q.reqId ∉ c.requestsNeedLoad.keys) ∧ (isStore = true → hit = none) ∧
      entry = (q.reqId, .makeMeta q.promptTokenIds blockIds blockSize isStore
        (q.mmFeatures.map (·.identifier)) hit) := by
  unfold newReqMeta at done
  dsimp only at done
  rw [← PyDict.contains_iff]
  split at done
  · next pending =>
    obtain ⟨ids, found, built⟩ := bind_eq_ok.mp done
    cases built
    exact ⟨ids, false, _, orRaise_eq_ok.mp found, by simp [pending], by simp,
      mem_singleton.mp member⟩
  · next absent =>
    split at done
    · obtain ⟨ids, found, built⟩ := bind_eq_ok.mp done
      cases built
      exact ⟨ids, true, none, orRaise_eq_ok.mp found, by simp [absent], fun _ => rfl,
        mem_singleton.mp member⟩
    · cases done
      cases member

/-- An entry for a cached request is that of a resumed one. -/
theorem cachedReqsMeta_mem (done : c.cachedReqsMeta blockSize numbers rows = .ok entries)
    (member : entry ∈ entries) :
    ∃ row ∈ rows, row.resumedFromPreemption = true ∧
      ∃ es, c.resumedReqMeta blockSize numbers row = .ok es ∧ entry ∈ es := by
  induction rows generalizing entries with
  | nil =>
    cases done
    cases member
  | cons row rest ih =>
    unfold cachedReqsMeta at done
    split at done
    · cases done
      cases member
    · rename_i resumed
      obtain ⟨es, first, tail⟩ := bind_eq_ok.mp done
      obtain ⟨later, others, built⟩ := bind_eq_ok.mp tail
      cases built
      rcases mem_append.mp member with here | there
      · exact ⟨row, mem_cons_self .., by simpa using resumed, es, first, here⟩
      · obtain ⟨row', listed, found⟩ := ih others there
        exact ⟨row', mem_cons_of_mem _ listed, found⟩

/-- When all cached requests were resumed, each of them has its entries. -/
theorem cachedReqsMeta_resumed (done : c.cachedReqsMeta blockSize numbers rows = .ok entries)
    (resumed : ∀ row ∈ rows, row.resumedFromPreemption = true)
    (listed : row ∈ rows) :
    ∃ es, c.resumedReqMeta blockSize numbers row = .ok es ∧ ∀ entry ∈ es, entry ∈ entries := by
  induction rows generalizing entries with
  | nil => cases listed
  | cons first rest ih =>
    have isResumed := resumed first (mem_cons_self ..)
    unfold cachedReqsMeta at done
    rw [if_neg (by simp [isResumed])] at done
    obtain ⟨es, built, tail⟩ := bind_eq_ok.mp done
    obtain ⟨later, others, eq⟩ := bind_eq_ok.mp tail
    cases eq
    rcases mem_cons.mp listed with rfl | there
    · exact ⟨es, built, fun entry member => mem_append_left _ member⟩
    · obtain ⟨es', found, all⟩ := ih others (fun x h => resumed x (mem_cons_of_mem _ h)) there
      exact ⟨es', found, fun entry member => mem_append_right _ (all entry member)⟩

/-- A resumed request is never stored. -/
theorem resumedReqMeta_isLoad (done : c.resumedReqMeta blockSize numbers row = .ok es)
    (member : entry ∈ es) : entry.2.isStore = false := by
  unfold resumedReqMeta at done
  split at done
  · cases done
    cases member
  · obtain ⟨_, _, tail⟩ := bind_eq_ok.mp done
    obtain ⟨_, _, tail⟩ := bind_eq_ok.mp tail
    obtain ⟨_, _, built⟩ := bind_eq_ok.mp tail
    cases built
    rw [mem_singleton.mp member, ReqMeta.makeMeta_eq]

/-- The loop ends at once when the first cached request was running. -/
theorem cachedReqsMeta_running (done : c.cachedReqsMeta blockSize numbers (row :: rows) = .ok entries)
    (running : row.resumedFromPreemption = false) : entries = [] := by
  unfold cachedReqsMeta at done
  rw [if_pos running] at done
  cases done
  rfl

end MimirConnector

/-- What the end of `schedule` builds from the last frame of the loops. -/
structure Frame.Built (cfg : MimirConfig H K) (blockSize : Nat)
    (f : Frame H (MimirConnector H K)) (out : SchedulerOutput MimirConnectorMetadata)
    (s' : Scheduler H (MimirConnector H K)) : Prop where
  new : List.Forall₂ (fun r row => newRequestData f r = .ok row) f.plan.scheduledNewReqs
    out.scheduledNewReqs
  cached : ∃ running resumed,
    List.Forall₂ (fun r row => cachedRequestData cfg f false r = .ok row)
      f.plan.scheduledRunningReqs running ∧
    List.Forall₂ (fun r row => cachedRequestData cfg f true r = .ok row)
      f.plan.scheduledResumedReqs resumed ∧ out.scheduledCachedReqs = running ++ resumed
  numbers : out.numScheduledTokens = f.plan.numScheduledTokens
  metadata : ∃ new cached,
    f.sched.connector.newReqsMeta blockSize out.scheduledNewReqs = .ok new ∧
    f.sched.connector.cachedReqsMeta blockSize out.numScheduledTokens out.scheduledCachedReqs =
      .ok cached ∧ out.kvConnectorMetadata = some (new ++ cached)
  history : s'.history = f.sched.history
  blocks : s'.kvCacheManager = f.sched.kvCacheManager
  store : s'.connector.cpuKvStore = f.sched.connector.cpuKvStore
  sent : ∀ r, (s'.objs r).toEngineCoreRequest = (f.sched.objs r).toEngineCoreRequest

variable [DecidableEq K] {prefixHash : List TokenId → K}
  {cfg : MimirConfig H K}

/-- The end of `schedule` with the connector, part by part. -/
theorem finishSchedule_built (attached : cfg.Attached blockSize prefixHash)
    {f : Frame H (MimirConnector H K)}
    {s' : Scheduler H (MimirConnector H K)}
    (own : ∀ k r, f.sched.requests.get? k = some r → (f.sched.objs r).requestId = k)
    (done : finishSchedule cfg f = .ok (out, s')) : f.Built cfg blockSize out s' := by
  obtain ⟨_, _, waiting', cache, c', _, eq⟩ := finishSchedule_spec own done
  obtain ⟨waiting, out₀, s₁, s₂, _, _, _, built, attachedMeta, advanced, rfl⟩ :=
    finishSchedule_parts done
  -- The connector sees the output as it was built.
  unfold attachConnectorMeta at attachedMeta
  rw [attached.connects] at attachedMeta
  obtain ⟨⟨metadata, c⟩, made, out'⟩ := bind_eq_ok.mp attachedMeta
  cases out'
  obtain ⟨new, newDone, tail⟩ := bind_eq_ok.mp made
  obtain ⟨cached, cachedDone, cleared⟩ := bind_eq_ok.mp tail
  cases cleared
  obtain ⟨_, _, tail⟩ := bind_eq_ok.mp built
  obtain ⟨newRows, newBuilt, tail⟩ := bind_eq_ok.mp tail
  obtain ⟨cachedRows, cachedBuilt, eq₀⟩ := bind_eq_ok.mp tail
  cases eq₀
  obtain ⟨running, runningBuilt, tail⟩ := bind_eq_ok.mp cachedBuilt
  obtain ⟨resumed, resumedBuilt, eq₁⟩ := bind_eq_ok.mp tail
  cases eq₁
  have store : s₂.connector.cpuKvStore = f.sched.connector.cpuKvStore := by
    rw [(updateAfterSchedule_untouched advanced).connector]
  refine ⟨mapM_eq_ok.mp newBuilt, ⟨running, resumed, mapM_eq_ok.mp runningBuilt,
    mapM_eq_ok.mp resumedBuilt, rfl⟩, rfl, ⟨new, cached, newDone, cachedDone, rfl⟩, ?_, ?_, store, ?_⟩
  · rw [eq]
  · rw [eq]
  · intro r
    rw [eq]
    rfl

end Metadata

section Entries

variable {K : Type} {prefixHash : List TokenId → K}

/-- An entry that loads the first `n` tokens of a prompt, all in the store, into some blocks. -/
structure ReqMeta.Loads (blockSize : Nat) (prefixHash : List TokenId → K) (c : MimirConnector H K)
    (prompt : List TokenId) (blocks : List BlockId) (n : Nat) (entry : ReqMeta) : Prop where
  isLoad : entry.isStore = false
  hit : entry.hitTokenCount = n
  tokens : entry.tokenIds.take n = prompt.take n
  /-- The slot of a position is in the block of the position, at its offset. -/
  slots : ∀ i < n, ∃ block, blocks[i / blockSize]? = some block ∧
    entry.slotMapping[i]? = some (i % blockSize + block * blockSize)
  key : prefixHash (entry.tokenIds.take n) ∈ c.cpuKvStore.keys

/-- A whole number of blocks within a length is within the aligned length. -/
theorem le_alignToBlockSize {n length : Nat} (aligned : blockSize ∣ n) (within : n ≤ length) :
    n ≤ alignToBlockSize length blockSize := by
  obtain ⟨count, rfl⟩ := aligned
  rcases Nat.eq_zero_or_pos blockSize with zero | positive
  · subst zero
    simp
  · have whole : count ≤ length / blockSize := by
      rw [Nat.le_div_iff_mul_le positive, Nat.mul_comm]
      exact within
    unfold alignToBlockSize
    rw [Nat.mul_comm]
    exact Nat.mul_le_mul_right _ whole

/-- An entry made for a stored prefix loads it, when tokens and blocks reach that far. -/
theorem ReqMeta.makeMeta_loads {c : MimirConnector H K} {prompt : List TokenId} {n : Nat}
    (tokens : List TokenId) (blocks : List BlockId) (mmHashes : List String) (size : 0 < blockSize)
    (stored : MimirConnector.Stored blockSize prefixHash c prompt n)
    (same : tokens.take n = prompt.take n) (reach : n ≤ tokens.length)
    (enough : n ≤ blocks.length * blockSize) :
    (makeMeta tokens blocks blockSize false mmHashes (some n)).Loads blockSize prefixHash c prompt
      blocks n := by
  have valid : n ≤ validNumTokens tokens.length blocks.length blockSize :=
    Nat.le_min.mpr ⟨le_alignToBlockSize stored.aligned reach, enough⟩
  have positive := stored.positive
  have cut : ((tokens.take (validNumTokens tokens.length blocks.length blockSize)).take n) =
      prompt.take n := by
    rw [take_take, Nat.min_eq_left valid, same]
  rw [makeMeta_eq]
  refine ⟨rfl, ?_, cut, ?_, ?_⟩
  · dsimp only
    rw [if_neg (by omega), Option.getD_some]
    omega
  · intro i below
    have inside : i / blockSize < blocks.length := by
      rw [Nat.div_lt_iff_lt_mul size]
      omega
    refine ⟨blocks[i / blockSize], getElem?_eq_getElem inside, ?_⟩
    dsimp only
    rw [getElem?_take_of_lt (by omega), slotsOf_getElem? size, getElem?_eq_getElem inside]
    rfl
  · dsimp only
    rw [cut]
    exact stored.present

end Entries

section Rows

variable {K : Type} {prefixHash : List TokenId → K}
  {cfg : MimirConfig H K} {f : Frame H (MimirConnector H K)}

/-- The row of a new request, read off the request and the plan. -/
theorem newRequestData_fields {row : NewRequestData} (done : newRequestData f r = .ok row) :
    row.reqId = (f.sched.objs r).requestId ∧
      row.promptTokenIds = (f.sched.objs r).promptTokenIds ∧
      row.numComputedTokens = (f.sched.objs r).numComputedTokens ∧
      f.plan.reqToNewBlocks.get? (f.sched.objs r).requestId = some row.blockIds := by
  obtain ⟨ids, found, built⟩ := bind_eq_ok.mp done
  cases built
  exact ⟨rfl, rfl, rfl, orRaise_eq_ok.mp found⟩

/-- The row of a cached request, read off the request and the plan. -/
theorem cachedRequestData_fields {resumed : Bool}
    (done : cachedRequestData cfg f resumed r = .ok row) :
    row.reqId = (f.sched.objs r).requestId ∧ row.resumedFromPreemption = resumed ∧
      row.numComputedTokens = (f.sched.objs r).numComputedTokens ∧
      ∀ lists, f.plan.reqToNewBlocks.get? (f.sched.objs r).requestId = some lists →
        row.newBlockIds = if lists.all List.isEmpty then none else some lists := by
  obtain ⟨numScheduled, _, tail⟩ := bind_eq_ok.mp done
  obtain ⟨newBlocks, found, built⟩ := bind_eq_ok.mp tail
  cases built
  refine ⟨rfl, rfl, rfl, ?_⟩
  intro lists held
  rw [orRaise_eq_ok.mp found] at held
  cases held
  rfl

/-- A started request has blocks for all tokens that the step counts as computed. -/
theorem Frame.Promised.enough (size : 0 < blockSize)
    (promised : f.Promised cfg blockSize prefixHash r numLocal external n blocks)
    (looked : r ∈ f.plan.scheduledNewReqs ∨ 0 < external) {m : Nat}
    (within : (m : Int) ≤ numLocal + external + n) (fits : (m : Int) ≤ cfg.kv.maxModelLen) :
    m ≤ blocks.length * blockSize := by
  obtain ⟨_, hits, _, length⟩ := promised.looked looked
  have most : cdiv (min (numLocal + external + n) cfg.kv.maxModelLen) blockSize ≤
      (blocks.length : Int) := by
    rw [length]
    exact le_max_right ..
  rw [cdiv_le_iff (by exact_mod_cast size)] at most
  have inside : (m : Int) ≤ blocks.length * blockSize := le_trans (le_min within fits) most
  exact_mod_cast inside

/-- A new request with stored tokens gets its load. -/
theorem Frame.Promised.newLoad (size : 0 < blockSize)
    (promised : f.Promised cfg blockSize prefixHash r numLocal external n blocks)
    (some' : 0 < external)
    (admitted : ((f.sched.objs r).promptTokenIds.length : Int) ≤ cfg.kv.maxModelLen)
    {row : NewRequestData} (done : newRequestData f r = .ok row) :
    ∃ entry k, f.sched.connector.newReqMeta blockSize row =
        .ok [((f.sched.objs r).requestId, entry)] ∧ numLocal + external = (k : Nat) ∧
      entry.Loads blockSize prefixHash f.sched.connector (f.sched.objs r).promptTokenIds blocks k := by
  obtain ⟨id, prompt, _, ids⟩ := newRequestData_fields done
  obtain ⟨request, k, pending, _, _, hit, stored, sum⟩ := promised.load some'
  have held : row.blockIds = [blocks] := by
    rw [promised.newBlocks] at ids
    exact (Option.some.inj ids).symm
  have isPending : f.sched.connector.requestsNeedLoad.contains row.reqId = true := by
    rw [PyDict.contains_iff, id]
    exact PyDict.mem_keys_iff.mpr ⟨request, pending⟩
  have positive := promised.positive
  have reach := stored.fits
  refine ⟨_, k, ?_, sum, ReqMeta.makeMeta_loads row.promptTokenIds blocks
    (row.mmFeatures.map (·.identifier)) size stored (by rw [prompt]) (by rw [prompt]; exact reach)
    (promised.enough size (.inr some') (by omega) (by omega))⟩
  unfold newReqMeta
  dsimp only
  rw [if_pos isPending, held, id, hit]
  rfl

/-- A resumed request with stored tokens would get its load. -/
theorem Frame.Promised.resumedLoad (size : 0 < blockSize)
    (promised : f.Promised cfg blockSize prefixHash r numLocal external n blocks)
    (some' : 0 < external)
    (admitted : ((f.sched.objs r).promptTokenIds.length : Int) ≤ cfg.kv.maxModelLen)
    (done : cachedRequestData cfg f true r = .ok row) :
    ∃ entry k, f.sched.connector.resumedReqMeta blockSize f.plan.numScheduledTokens row =
        .ok [((f.sched.objs r).requestId, entry)] ∧ numLocal + external = (k : Nat) ∧
      entry.Loads blockSize prefixHash f.sched.connector (f.sched.objs r).promptTokenIds blocks k := by
  obtain ⟨id, _, computed, ids⟩ := cachedRequestData_fields done
  obtain ⟨request, k, pending, sent, output, hit, stored, sum⟩ := promised.load some'
  have positive := promised.positive
  have reach := stored.fits
  have some'' := stored.positive
  have enough := promised.enough size (.inr some') (m := k) (by omega) (by omega)
  -- The row has the whole block list, which is not empty.
  have held : row.newBlockIds = some [blocks] := by
    rw [ids _ promised.newBlocks]
    have filled : blocks ≠ [] := by
      rintro rfl
      simp only [length_nil] at enough
      omega
    simp [filled]
  have counted := (promised.looked (.inr some')).1
  have fits := promised.fits
  have tokens : request.allTokenIds = (f.sched.objs r).allTokenIds := by
    unfold Request.allTokenIds
    rw [sent, output]
  -- The tokens of the row reach behind the stored ones.
  obtain ⟨total, eq⟩ : ∃ total : Nat, row.numComputedTokens + n = total :=
    ⟨(row.numComputedTokens + n).toNat, by omega⟩
  have slice : pySlice request.allTokenIds 0 (row.numComputedTokens + n) =
      (f.sched.objs r).allTokenIds.take total := by
    rw [eq, tokens]
    exact pySlice_nonneg _ 0 total
  have long : k ≤ ((f.sched.objs r).allTokenIds.take total).length := by
    have whole : ((f.sched.objs r).allTokenIds.length : Int) = (f.sched.objs r).numTokens := rfl
    rw [length_take]
    omega
  have same : ((f.sched.objs r).allTokenIds.take total).take k =
      (f.sched.objs r).promptTokenIds.take k := by
    rw [take_take, Nat.min_eq_left (by omega)]
    unfold Request.allTokenIds
    rw [take_append_of_le_length reach]
  refine ⟨_, k, ?_, sum, ReqMeta.makeMeta_loads _ blocks request.mmHashes size stored same long
    enough⟩
  unfold resumedReqMeta
  rw [id, pending]
  simp only [promised.scheduled, held, hit, slice, orRaise, Bind.bind, Except.bind, head?_cons,
    Option.getD_some]

end Rows

/-- The processor admits prompts up to the model length. -/
def Config.Admits {H C M : Type} (cfg : Config H C M) : Op → Prop
  | .addRequest req => (req.promptTokenIds.length : Int) ≤ cfg.kv.maxModelLen
  | _ => True

instance {H C M : Type} (cfg : Config H C M) (op : Op) : Decidable (cfg.Admits op) :=
  match op with
  | .addRequest req =>
    inferInstanceAs (Decidable ((req.promptTokenIds.length : Int) ≤ cfg.kv.maxModelLen))
  | .updateFromOutput _ _ | .finishRequests _ _ _ | .schedule _ | .execute | .updateDraftTokenIds _
  | .resetPrefixCache => inferInstanceAs (Decidable True)

/-- The operations of a run with unique ids and admitted prompts. -/
def Engine.Admitted {H C M : Type} (cfg : Config H C M) (e : Engine H C M) (op : Op) : Prop :=
  e.UniqueIds op ∧ cfg.Admits op

instance {H C M : Type} (cfg : Config H C M) (e : Engine H C M) (op : Op) :
    Decidable (e.Admitted cfg op) := inferInstanceAs (Decidable (_ ∧ _))

section SmallRuns

/-- The small engine with a store is built as the connector needs it. -/
theorem storeConfig_attached : storeConfig.Attached 2 id where
  connects := rfl
  group := ⟨_, rfl, ⟨by simp, by simp⟩, rfl⟩
  single := by decide

/-- The small engine with a store, five blocks and no prefix cache. -/
def crampedConfig : MimirConfig FreeHash (List TokenId) :=
  { storeConfig with
    kv := { storeConfig.kv with numBlocks := 6, blocksPositive := by decide, enableCaching := false } }

/-- The small engine with a store and a smaller token budget. -/
def narrowConfig (budget : Int) :
    MimirConfig FreeHash (List TokenId) :=
  { storeConfig with maxNumScheduledTokens := budget, maxNumRunningReqs := 2 }

/-- A clock that stands still. -/
def stoppedClock : Ref → PyFloat := fun _ => .fin 0

end SmallRuns

namespace Engine

variable {K : Type} [DecidableEq H] [DecidableEq K]
  {prefixHash : List TokenId → K} {cfg : MimirConfig H K}
  {connector : MimirConnector H K} {e : MimirEngine H K}
  {env : ScheduleEnv}
  {s' : Scheduler H (MimirConnector H K)}

/-- The last frame of a step from a reachable state, with its promises and what is built from it. -/
theorem Reachable.step (attached : cfg.Attached blockSize prefixHash)
    (acyclic : cfg.hasher.Acyclic) (start : connector.requestsNeedLoad = .empty)
    {allowed : MimirEngine H K → Op → Prop}
    (admitted : ∀ a op, allowed a op → a.Admitted cfg op) (permitted : allowed e (.schedule env))
    (reached : Reachable cfg connector allowed e)
    (scheduled : e.sched.schedule cfg env = .ok (out, s')) :
    ∃ (f : Frame H (MimirConnector H K)) (notes : List Effect),
      Visited cfg connector allowed f.flat ∧
      f.Promises cfg blockSize prefixHash e.sched.history notes ∧ f.Built cfg blockSize out s' ∧
      f.sched.connector.cpuKvStore = e.sched.connector.cpuKvStore := by
  have unique : ∀ a op, allowed a op → a.UniqueIds op := fun a op h => (admitted a op h).1
  have fresh : ∀ a op, allowed a op → a.FreshIds op := fun a op h => (unique a op h).freshIds
  have pristine := reached.pristine attached.loads unique
  have pending := reached.nothingPending attached start
  obtain ⟨f, visited, ⟨frame, store, notes, promises⟩, finished⟩ := reached.visited.frames
    (P := fun f => Frame.Pristine e.sched f ∧
      f.sched.connector.cpuKvStore = e.sched.connector.cpuKvStore ∧
      ∃ notes, f.Promises cfg blockSize prefixHash e.sched.history notes) permitted scheduled
    (fun s₁ _ expired untouched => by
      obtain ⟨sched, worn⟩ := pristine.sched.moves (fun r _ touched => False.elim touched) expired
      obtain ⟨notes, history, quiet⟩ := expiry_history expired
      refine ⟨⟨sched, worn, fun r ⟨id, member, _⟩ => absurd member (by simp [initialPlan]),
        fun _ _ found => expired.requests_sub found⟩, by rw [untouched], notes, history, ?_, ?_, ?_, ?_⟩
      · intro r numLocal external started
        have never := quiet _ started
        cases never
      · intro r listed
        cases listed
      · exact nodup_nil
      · intro id member
        rw [untouched, pending] at member
        cases member)
    (fun f f' passed both step => by
      obtain ⟨frame, store, notes, promises⟩ := both
      have inv := passed.queueInv
      have link := passed.link fresh
      have balanced : f.flat.kvCacheManager.Balanced cfg.kv := passed.balanced acyclic
      have progress := step.progress inv link balanced
        (fun r => (passed.chained r).nodup acyclic) attached.loads
      exact ⟨frame.step inv link attached.loads step, (progress.store attached).trans store,
        promises.step attached inv link balanced
          (passed.unslotted acyclic attached.loads fresh) frame.sched progress⟩)
  exact ⟨f, notes, visited, promises, finishSchedule_built attached visited.queueInv.own finished,
    store⟩

/-- The metadata of a step loads the first `numTokens` tokens of a request into the blocks it has. -/
def StepLoads (blockSize : Nat) (prefixHash : List TokenId → K)
    (out : SchedulerOutput MimirConnectorMetadata) (s' : Scheduler H (MimirConnector H K)) (r : Ref)
    (numTokens : Int) : Prop :=
  ∃ metadata entry blocks, ∃ n : Nat, out.kvConnectorMetadata = some metadata ∧
    ((s'.objs r).requestId, entry) ∈ metadata ∧ numTokens = n ∧
    s'.kvCacheManager.getBlocks (s'.objs r).requestId = [blocks] ∧
    entry.Loads blockSize prefixHash s'.connector (s'.objs r).promptTokenIds blocks n

variable {f : Frame H (MimirConnector H K)} {base notes : List Effect}

variable (attached : cfg.Attached blockSize prefixHash) (acyclic : cfg.hasher.Acyclic)
  (start : connector.requestsNeedLoad = .empty)
  (reached : Reachable cfg connector (Engine.Admitted cfg) e)
  (scheduled : e.sched.schedule cfg env = .ok (out, s'))

include attached acyclic start reached scheduled in
/-- A request that a step starts, in the last frame of the loops: it has its promised blocks, and a row
of a new request with its id is its own. -/
theorem Reachable.started (started : (r, numLocal, external) ∈ s'.startsSince e.sched) :
    ∃ (f : Frame H (MimirConnector H K)) (n : Int) (blocks : List BlockId), f.Built cfg blockSize out s' ∧
      f.Promised cfg blockSize prefixHash r numLocal external n blocks ∧
      f.sched.connector.cpuKvStore = e.sched.connector.cpuKvStore ∧
      ((f.sched.objs r).promptTokenIds.length : Int) ≤ cfg.kv.maxModelLen ∧
      ((∃ row ∈ out.scheduledNewReqs, row.reqId = (s'.objs r).requestId) →
        r ∈ f.plan.scheduledNewReqs) := by
  obtain ⟨f, notes, visited, promises, built, store⟩ :=
    reached.step attached acyclic start (fun _ _ h => h) ⟨trivial, trivial⟩ scheduled
  have link := visited.link fun a op h => h.1.freshIds
  rw [mem_startsSince (built.history.trans promises.history)] at started
  obtain ⟨n, blocks, promised⟩ := promises.kept r numLocal external started
  refine ⟨f, n, blocks, built, promised, store, ?_, ?_⟩
  · exact visited.sent (Q := fun req => (req.promptTokenIds.length : Int) ≤ cfg.kv.maxModelLen)
      (fun _ _ h => h.2) r (visited.queueInv.queued r (mem_append_right _ promised.running))
  · -- Both requests run in this step, and running requests have different ids.
    rintro ⟨row, listed, own⟩
    obtain ⟨x, isNew, made⟩ := exists_of_forall₂ built.new listed
    have sameId : (f.sched.objs x).requestId = (f.sched.objs r).requestId := by
      rw [← (newRequestData_fields made).1, own, built.sent]
    have same : x = r := link.queued_inj
      (mem_append_right _ (promises.running (mem_append_left _ isNew)))
      (mem_append_right _ promised.running) sameId
    rwa [same] at isNew

include attached acyclic start reached scheduled in
/-- A request that a step starts with stored tokens gets the load of exactly its cached tokens, in
the metadata of that step, if and only if it is new or the step schedules no running request. -/
theorem promised_load_iff {r : Ref} {numLocal external : Int}
    (started : (r, numLocal, external) ∈ s'.startsSince e.sched) (some' : 0 < external) :
    StepLoads blockSize prefixHash out s' r (numLocal + external) ↔
      (∃ row ∈ out.scheduledNewReqs, row.reqId = (s'.objs r).requestId) ∨
        ∀ row ∈ out.scheduledCachedReqs, row.resumedFromPreemption = true := by
  obtain ⟨f, n, blocks, built, promised, _, admitted, isOwn⟩ :=
    reached.started attached acyclic start scheduled started
  have size := attached.positive
  have id : (s'.objs r).requestId = (f.sched.objs r).requestId := by rw [built.sent]
  obtain ⟨new, cached, newDone, cachedDone, eq⟩ := built.metadata
  obtain ⟨runningRows, resumedRows, runningBuilt, resumedBuilt, rows⟩ := built.cached
  -- The load, once its entry is known to be among those of the step.
  have serve : ∀ entry k, numLocal + external = (k : Nat) →
      entry.Loads blockSize prefixHash f.sched.connector (f.sched.objs r).promptTokenIds blocks k →
      ((f.sched.objs r).requestId, entry) ∈ new ++ cached →
      StepLoads blockSize prefixHash out s' r (numLocal + external) := by
    intro entry k sum loads member
    refine ⟨new ++ cached, entry, blocks, k, eq, by rw [id]; exact member, sum, ?_, ?_⟩
    · rw [id, built.blocks]
      exact promised.held
    · exact ⟨loads.isLoad, loads.hit, by rw [built.sent]; exact loads.tokens, loads.slots,
        by rw [built.store]; exact loads.key⟩
  have serveNew : r ∈ f.plan.scheduledNewReqs →
      StepLoads blockSize prefixHash out s' r (numLocal + external) := by
    intro isNew
    obtain ⟨row, listed, made⟩ := exists_of_forall₂ built.new.flip isNew
    obtain ⟨entry, k, loaded, sum, loads⟩ := promised.newLoad size some' admitted made
    exact serve entry k sum loads (mem_append_left _
      ((newReqsMeta_mem newDone _).mpr ⟨row, listed, _, loaded, mem_singleton_self _⟩))
  constructor
  · rintro ⟨metadata, entry, _, _, found, member, _, _, _⟩
    rw [eq] at found
    cases found
    rcases mem_append.mp member with isNew | isCached
    · -- Entries of new requests carry the ids of their rows.
      obtain ⟨row, listed, es, made, inside⟩ := (newReqsMeta_mem newDone _).mp isNew
      obtain ⟨_, _, _, _, _, _, built⟩ := newReqMeta_mem made inside
      exact .inl ⟨row, listed, (congrArg Prod.fst built).symm⟩
    · right
      intro row listed
      by_contra running
      rw [rows] at listed cachedDone
      -- A running row is at the head, and the loop over the cached requests ends there.
      cases runningRows with
      | nil =>
        obtain ⟨x, _, made⟩ := exists_of_forall₂ resumedBuilt listed
        exact running (cachedRequestData_fields made).2.1
      | cons =>
        obtain ⟨x, _, made⟩ := exists_of_forall₂ runningBuilt (mem_cons_self ..)
        have none := cachedReqsMeta_running cachedDone (cachedRequestData_fields made).2.1
        rw [none] at isCached
        cases isCached
  · rintro (isNew | resumed)
    · exact serveNew (isOwn isNew)
    · rcases mem_append.mp promised.listed with isNew | isResumed
      · exact serveNew isNew
      · obtain ⟨row, listed, made⟩ := exists_of_forall₂ resumedBuilt.flip isResumed
        obtain ⟨entry, k, loaded, sum, loads⟩ := promised.resumedLoad size some' admitted made
        have inside : row ∈ out.scheduledCachedReqs := by
          rw [rows]
          exact mem_append_right _ listed
        obtain ⟨es, found, all⟩ := cachedReqsMeta_resumed cachedDone resumed inside
        rw [built.numbers, loaded] at found
        cases found
        exact serve entry k sum loads (mem_append_right _ (all _ (mem_singleton_self _)))

/-- A longer prompt is started with the stored one, and its load is in the metadata of the step. -/
theorem promised_load_iff_longerPrompt :
    ∃ e out s',
      Reachable storeConfig {} (Engine.Admitted storeConfig) e ∧
      e.sched.schedule storeConfig (atTime 1) = .ok (out, s') ∧
      (1, 0, 4) ∈ s'.startsSince e.sched ∧ StepLoads 2 id out s' 1 (0 + 4) := by
  obtain ⟨e, before, out, s', scheduled, started, noRows⟩ : ∃ e, (init storeConfig {}).run storeConfig
      (Engine.Admitted storeConfig)
      (storedPrompt ++ [.addRequest (plainRequest 1 [1, 2, 3, 4, 5] 4)]) = .ok e ∧
      ∃ out s', e.sched.schedule storeConfig (atTime 1) = .ok (out, s') ∧
        (1, 0, 4) ∈ s'.startsSince e.sched ∧ out.scheduledCachedReqs.length = 0 := by
    decide +kernel
  have reached : Reachable storeConfig {} (Engine.Admitted storeConfig) e := steps_of_run before
  refine ⟨e, out, s', reached, scheduled, started, ?_⟩
  refine (promised_load_iff storeConfig_attached freeHasher_collisionFree.acyclic rfl reached scheduled
    started (by decide)).mpr (.inr ?_)
  rw [length_eq_zero_iff.mp noRows]
  simp

/-- Three requests share five blocks; the youngest starts with stored tokens, is preempted, and can
go on once the second is aborted. -/
def resumedBesideRunning : List Op :=
  [.addRequest (plainRequest 0 [1, 2, 3, 4] 4), .schedule (atTime 0), .execute,
    .finishRequests stoppedClock [0] .finishedAborted,
    .updateFromOutput stoppedClock (sampledOutput [(0, [7])]),
    .addRequest (plainRequest 1 [9, 9] 8), .addRequest (plainRequest 2 [8] 8),
    .addRequest (plainRequest 3 [1, 2, 3, 4, 5] 8), .schedule (atTime 1), .execute,
    .updateFromOutput stoppedClock (sampledOutput [(1, [7]), (2, [7]), (3, [7])]),
    .schedule (atTime 2), .execute,
    .updateFromOutput stoppedClock (sampledOutput [(1, [7]), (2, [7])]),
    .finishRequests stoppedClock [2] .finishedAborted]

/-- Beside a running request, the resumed one counts four stored tokens as computed, and the
metadata of the step is empty. -/
theorem resumedBesideRunning_not_loaded :
    ∃ e out s',
      Reachable crampedConfig {} (Engine.Admitted crampedConfig) e ∧
      e.sched.schedule crampedConfig (atTime 3) = .ok (out, s') ∧
      s'.startsSince e.sched = [(3, 0, 4)] ∧
      out.scheduledCachedReqs.map (fun row => (row.reqId, row.numComputedTokens)) =
        [(1, 3), (3, 4)] ∧
      out.kvConnectorMetadata = some [] :=
  exists_scheduled resumedBesideRunning (by decide +kernel)

omit [DecidableEq H] [DecidableEq K] in
/-- What a step stores for a new request: the whole blocks of its prompt among its first blocks. -/
theorem stored_entry
    (promises : f.Promises cfg blockSize prefixHash base notes) (built : f.Built cfg blockSize out s')
    {metadata : MimirConnectorMetadata} (found : out.kvConnectorMetadata = some metadata)
    (member : entry ∈ metadata) (isStore : entry.2.isStore = true) :
    ∃ row ∈ out.scheduledNewReqs, ∃ r numLocal n blocks mmHashes hit, row.reqId = entry.1 ∧
      row.numComputedTokens = numLocal ∧ out.numScheduledTokens.get? entry.1 = some n ∧
      r ∈ f.plan.scheduledNewReqs ∧
      f.Promised cfg blockSize prefixHash r numLocal 0 n blocks ∧ row.blockIds = [blocks] ∧
      entry.2 = .makeMeta row.promptTokenIds blocks blockSize true mmHashes hit := by
  obtain ⟨new, cached, newDone, cachedDone, eq⟩ := built.metadata
  rw [eq] at found
  cases found
  rcases mem_append.mp member with isNew | isCached
  · obtain ⟨row, listed, es, made, inside⟩ := (newReqsMeta_mem newDone _).mp isNew
    obtain ⟨ids, stores, hit, first, absent, _, rfl⟩ := newReqMeta_mem made inside
    rw [ReqMeta.makeMeta_eq] at isStore
    have absent := absent.mp isStore
    obtain ⟨r, isNew', rowMade⟩ := exists_of_forall₂ built.new listed
    obtain ⟨id, prompt, computed, newBlocks⟩ := newRequestData_fields rowMade
    obtain ⟨numLocal, external, started⟩ := promises.noted r (mem_append_left _ isNew')
    obtain ⟨n, blocks, promised⟩ := promises.kept r numLocal external started
    -- Without a pending load nothing comes from the store.
    have none : external = 0 := by
      have nonneg := promised.nonneg
      by_contra some'
      obtain ⟨request, _, pending, _⟩ := promised.load (by omega)
      rw [id] at absent
      exact absent (PyDict.mem_keys_iff.mpr ⟨request, pending⟩)
    subst none
    have held : row.blockIds = [blocks] := by
      rw [promised.newBlocks] at newBlocks
      exact (Option.some.inj newBlocks).symm
    rw [held] at first
    cases first
    cases show stores = true from isStore
    refine ⟨row, listed, r, numLocal, n, _, _, hit, rfl, ?_, ?_, isNew', promised, held, rfl⟩
    · rw [computed, (promised.looked (.inl isNew')).1, add_zero]
    · rw [built.numbers, id]
      exact promised.scheduled
  · obtain ⟨row, listed, _, es, made, inside⟩ := cachedReqsMeta_mem cachedDone isCached
    rw [resumedReqMeta_isLoad made inside] at isStore
    cases isStore

/-- Every slot of an entry holds, at the end of a step, the prompt position of its token: the position is
computed by then, and the slot is that of the position in the request's blocks, none of them the null block. -/
def SlotsHold (blockSize : Nat) (blocks : List BlockId) (computed : Int) (m : ReqMeta) : Prop :=
  ∀ k < m.tokenIds.length, (k : Int) < computed ∧ ∃ block, blocks[k / blockSize]? = some block ∧
    block ≠ nullBlock ∧ m.slotMapping[k]? = some (k % blockSize + block * blockSize)

/-- An entry of `make_meta` is held when its tokens are computed and its blocks are real. -/
theorem makeMeta_slotsHold_iff (size : 0 < blockSize) {tokenIds : List TokenId}
    {isStore : Bool} {mmHashes : List String} {hit : Option Int} {computed : Int} (some' : 0 ≤ computed) :
    SlotsHold blockSize blocks computed
        (.makeMeta tokenIds blocks blockSize isStore mmHashes hit) ↔
      (ReqMeta.validNumTokens tokenIds.length blocks.length blockSize : Int) ≤ computed ∧
        nullBlock ∉ blocks.take (tokenIds.length / blockSize) := by
  have valid : ∀ k, k < ReqMeta.validNumTokens tokenIds.length blocks.length blockSize ↔
      k / blockSize < tokenIds.length / blockSize ∧ k / blockSize < blocks.length := fun k => by
    unfold ReqMeta.validNumTokens alignToBlockSize
    rw [lt_min_iff, Nat.div_lt_iff_lt_mul size, Nat.div_lt_iff_lt_mul size]
  unfold SlotsHold
  rw [ReqMeta.makeMeta_length.2, ReqMeta.makeMeta_eq]
  dsimp only
  constructor
  · intro holds
    refine ⟨?_, fun null => ?_⟩
    · cases count : ReqMeta.validNumTokens tokenIds.length blocks.length blockSize with
      | zero => exact some'
      | succ last =>
        have := (holds last (by omega)).1
        push_cast
        omega
    · -- The first slot of the null block would hold a position.
      obtain ⟨i, below, eq⟩ := mem_take_iff_getElem.mp null
      have start : i * blockSize / blockSize = i := Nat.mul_div_cancel i size
      obtain ⟨_, block, found, real, _⟩ := holds (i * blockSize) ((valid _).mpr (by omega))
      rw [start, getElem?_eq_getElem (by omega), eq] at found
      exact real (Option.some.inj found).symm
  · rintro ⟨enough, real⟩ k below
    obtain ⟨early, inside⟩ := (valid k).mp below
    refine ⟨by omega, blocks[k / blockSize], getElem?_eq_getElem inside, fun null => ?_, ?_⟩
    · exact real (null ▸ mem_take_iff_getElem.mpr ⟨_, by omega, rfl⟩)
    · rw [getElem?_take_of_lt below, slotsOf_getElem? size, getElem?_eq_getElem inside]
      rfl

include attached acyclic start reached scheduled in
/-- The slots that a step stores for a request hold the tokens of its prompt at the end of the step, if the
tokens computed by then fill whole blocks or cover the aligned prompt and no block of the prompt is the null
block; within the model length, only then. -/
theorem stored_computed_iff {metadata : MimirConnectorMetadata}
    (found : out.kvConnectorMetadata = some metadata) {entry : RequestId × ReqMeta}
    (member : entry ∈ metadata) (isStore : entry.2.isStore = true) :
    ∃ row ∈ out.scheduledNewReqs, row.reqId = entry.1 ∧
      ∃ n blocks, out.numScheduledTokens.get? entry.1 = some n ∧ row.blockIds = [blocks] ∧
      entry.2.tokenIds <+: row.promptTokenIds ∧
      entry.2.slotMapping.length = entry.2.tokenIds.length ∧
      (((row.numComputedTokens + n) % blockSize = 0 ∨
          (alignToBlockSize row.promptTokenIds.length blockSize : Int) ≤ row.numComputedTokens + n) ∧
          nullBlock ∉ blocks.take (row.promptTokenIds.length / blockSize) →
        SlotsHold blockSize blocks (row.numComputedTokens + n) entry.2) ∧
      (row.numComputedTokens + n ≤ cfg.kv.maxModelLen →
        SlotsHold blockSize blocks (row.numComputedTokens + n) entry.2 →
        ((row.numComputedTokens + n) % blockSize = 0 ∨
          (alignToBlockSize row.promptTokenIds.length blockSize : Int) ≤ row.numComputedTokens + n) ∧
          nullBlock ∉ blocks.take (row.promptTokenIds.length / blockSize)) := by
  obtain ⟨f, notes, _, promises, built, _⟩ :=
    reached.step attached acyclic start (fun _ _ h => h) ⟨trivial, trivial⟩ scheduled
  obtain ⟨row, listed, r, numLocal, n, blocks, mmHashes, hit, id, computed, scheduled', isNew, promised, held,
    made⟩ := stored_entry promises built found member isStore
  have size : (0 : Int) < blockSize := by exact_mod_cast attached.positive
  have positive := promised.positive
  obtain ⟨_, hits, localHits, count⟩ := promised.looked (.inl isNew)
  rw [add_zero] at count
  have cached : 0 ≤ numLocal := by
    rw [localHits]
    positivity
  refine ⟨row, listed, id, n, blocks, scheduled', held, ?_, ?_, ?_⟩
  · rw [made, ReqMeta.makeMeta_eq]
    exact take_prefix ..
  · rw [made, ReqMeta.makeMeta_length.1, ReqMeta.makeMeta_length.2]
  rw [made, makeMeta_slotsHold_iff attached.positive (by omega), computed]
  unfold ReqMeta.validNumTokens
  push_cast
  refine ⟨fun enough => ⟨?_, enough.2⟩, fun inside stored => ⟨?_, stored.2⟩⟩
  · rcases enough.1 with whole | covered
    · -- The blocks hold no more than the whole blocks computed.
      have exact' : (numLocal + n) / blockSize * blockSize = numLocal + n :=
        Int.ediv_mul_cancel (Int.dvd_of_emod_eq_zero whole)
      have few : (blocks.length : Int) ≤ (numLocal + n) / blockSize := by
        rw [count]
        refine max_le ?_ ?_
        · rw [Int.le_ediv_iff_mul_le size]
          omega
        · rw [cdiv_le_iff size, exact']
          exact min_le_left ..
      have bound := Int.mul_le_mul_of_nonneg_right few size.le
      rw [exact'] at bound
      exact le_trans (min_le_right ..) bound
    · exact le_trans (min_le_left ..) covered
  · by_cases covered : (alignToBlockSize row.promptTokenIds.length blockSize : Int) ≤ numLocal + n
    · exact .inr covered
    · -- The blocks reach at least as far as the tokens, so they end exactly there.
      left
      have most : cdiv (min (numLocal + n) cfg.kv.maxModelLen) blockSize ≤ (blocks.length : Int) := by
        rw [count]
        exact le_max_right ..
      rw [cdiv_le_iff size, min_eq_left inside] at most
      have eq : numLocal + n = blocks.length * blockSize := by omega
      rw [eq]
      exact Int.mul_emod_left ..

/-- A prompt of two blocks computed in one step is stored and held as a whole. -/
theorem stored_computed_iff_wholePrompt :
    ∃ e out s' entry,
      Reachable storeConfig {} (Engine.Admitted storeConfig) e ∧
      e.sched.schedule storeConfig (atTime 0) = .ok (out, s') ∧
      out.kvConnectorMetadata = some [entry] ∧ entry.2.isStore = true ∧ entry.2.tokenIds = [1, 2, 3, 4] ∧
      ∃ row ∈ out.scheduledNewReqs, ∃ n blocks, out.numScheduledTokens.get? entry.1 = some n ∧
        SlotsHold 2 blocks (row.numComputedTokens + n) entry.2 := by
  obtain ⟨e, before, out, s', scheduled, metadata, numbers, rows⟩ : ∃ e,
      (init storeConfig {}).run storeConfig (Engine.Admitted storeConfig)
        [.addRequest (plainRequest 0 [1, 2, 3, 4] 4)] = .ok e ∧
      ∃ out s', e.sched.schedule storeConfig (atTime 0) = .ok (out, s') ∧
        out.kvConnectorMetadata = some [(0, ⟨[1, 2, 3, 4], [2, 3, 4, 5], true, [], 4⟩)] ∧
        out.numScheduledTokens.get? 0 = some 4 ∧
        ∀ row ∈ out.scheduledNewReqs, row.numComputedTokens = 0 ∧ row.blockIds = [[1, 2]] := by
    decide +kernel
  have reached : Reachable storeConfig {} (Engine.Admitted storeConfig) e := steps_of_run before
  obtain ⟨row, listed, _, n, blocks, found, ids, _, _, holds, _⟩ := stored_computed_iff storeConfig_attached
    freeHasher_collisionFree.acyclic rfl reached scheduled metadata (mem_singleton_self _) rfl
  refine ⟨e, out, s', _, reached, scheduled, metadata, rfl, rfl, row, listed, n, blocks, found,
    holds ⟨.inl ?_, fun null => ?_⟩⟩
  · rw [Option.some.inj (found.symm.trans numbers), (rows row listed).1]
    decide
  · cases ids.symm.trans (rows row listed).2
    exact absurd (mem_of_mem_take null) (by decide)

/-- A step with a budget of three tokens stores the four tokens of two blocks. -/
theorem partialBlock_stored :
    ∃ e out s',
      Reachable (narrowConfig 3) {} (Engine.Admitted (narrowConfig 3)) e ∧
      e.sched.schedule (narrowConfig 3) (atTime 0) = .ok (out, s') ∧
      out.kvConnectorMetadata = some [(0, ⟨[1, 2, 3, 4], [2, 3, 4, 5], true, [], 4⟩)] ∧
      out.scheduledNewReqs.map (fun row => (row.reqId, row.numComputedTokens)) = [(0, 0)] ∧
      out.numScheduledTokens.get? 0 = some 3 :=
  exists_scheduled [.addRequest (plainRequest 0 [1, 2, 3, 4] 4)] (by decide +kernel)

omit [DecidableEq H] [DecidableEq K] in
/-- A new request without stored tokens has its aligned prompt stored, when its blocks reach that far. -/
theorem covered_prompt_stored (promised : f.Promised cfg blockSize prefixHash r numLocal 0 n blocks)
    (isNew : r ∈ f.plan.scheduledNewReqs) (built : f.Built cfg blockSize out s') {aligned : Nat}
    (length : aligned = alignToBlockSize (f.sched.objs r).promptTokenIds.length blockSize)
    (size : 0 < blockSize) (whole : blockSize ≤ aligned) (reach : aligned ≤ blocks.length * blockSize) :
    ∃ metadata entry, out.kvConnectorMetadata = some metadata ∧ entry ∈ metadata ∧
      entry.2.isStore = true ∧ entry.2.slotMapping ≠ [] ∧
      entry.2.tokenIds = (f.sched.objs r).promptTokenIds.take aligned := by
  obtain ⟨new, cached, newDone, _, eq⟩ := built.metadata
  obtain ⟨row, listed, made⟩ := exists_of_forall₂ built.new.flip isNew
  obtain ⟨id, prompt, _, ids⟩ := newRequestData_fields made
  have held : row.blockIds = [blocks] := by
    rw [promised.newBlocks] at ids
    exact (Option.some.inj ids).symm
  have valid : ReqMeta.validNumTokens row.promptTokenIds.length blocks.length blockSize = aligned := by
    unfold ReqMeta.validNumTokens
    rw [prompt, ← length]
    exact Nat.min_eq_left reach
  have stores : f.sched.connector.newReqMeta blockSize row = .ok [(row.reqId,
      .makeMeta row.promptTokenIds blocks blockSize true (row.mmFeatures.map (·.identifier)) none)] := by
    have absent := promised.store rfl
    unfold newReqMeta
    dsimp only
    rw [if_neg (by rw [PyDict.contains_iff, id]; exact absent), prompt, ← length, if_pos whole, held]
    rfl
  refine ⟨new ++ cached, _, eq, mem_append_left _
    ((newReqsMeta_mem newDone _).mpr ⟨row, listed, _, stores, mem_singleton_self _⟩),
    ?_, ?_, ?_⟩
  · rw [ReqMeta.makeMeta_eq]
  · intro empty
    have slots := congrArg List.length empty
    rw [ReqMeta.makeMeta_length.1, valid] at slots
    simp only [length_nil] at slots
    omega
  · rw [ReqMeta.makeMeta_eq]
    dsimp only
    rw [valid, prompt]

include attached acyclic start reached in
/-- What is in the store stays there. -/
theorem Reachable.store_grows {e' : MimirEngine H K}
    (steps : Steps cfg (Engine.Admitted cfg) e e') {key : K}
    (present : key ∈ e.sched.connector.cpuKvStore.keys) :
    key ∈ e'.sched.connector.cpuKvStore.keys := by
  -- Reachability is carried along, since a scheduled step is known only from a reachable state.
  have both : Reachable cfg connector (Engine.Admitted cfg) e' ∧
      key ∈ e'.sched.connector.cpuKvStore.keys := by
    refine Steps.invariant (I := fun x => Reachable cfg connector (Engine.Admitted cfg) x ∧
      key ∈ x.sched.connector.cpuKvStore.keys) steps ⟨reached, present⟩ ?_
    intro a b op before permitted done
    refine ⟨before.1.tail ⟨op, permitted, done⟩, ?_⟩
    rcases exec_connector attached.inert done with same | ⟨env, out, _, scheduled, _⟩ |
      ⟨batch, rest, _, _, rfl⟩
    · rw [same.1]
      exact before.2
    · obtain ⟨f, _, _, _, built, store⟩ :=
        before.1.step attached acyclic start (fun _ _ h => h) ⟨trivial, trivial⟩ scheduled
      rw [built.store, store]
      exact before.2
    · show key ∈ (executeBatch cfg a.sched batch).connector.cpuKvStore.keys
      rw [executeBatch_connector attached]
      exact executeStep_grows _ before.2
  exact both.2

/-- The first step of a new request puts its whole aligned prompt into the store: all of it is
there already, or nothing is loaded and the blocks of the step reach to its end. -/
def FirstStepCovers (blockSize : Nat) (out : SchedulerOutput MimirConnectorMetadata)
    (id : RequestId) (aligned : Nat) (numLocal external : Int) : Prop :=
  numLocal + external = aligned ∨ external = 0 ∧ ∃ n, out.numScheduledTokens.get? id = some n ∧
    (aligned : Int) < numLocal + n + blockSize

include attached acyclic start reached scheduled in
/-- When the first step of a request covers its aligned prompt and has been executed, every prompt
that extends it is found in the store with at least that length. -/
theorem extended_prompt_found {r : Ref} {numLocal external : Int}
    (started : (r, numLocal, external) ∈ s'.startsSince e.sched)
    (first : ∃ row ∈ out.scheduledNewReqs, row.reqId = (s'.objs r).requestId)
    {aligned : Nat} (length : aligned = alignToBlockSize (s'.objs r).promptTokenIds.length blockSize)
    (whole : blockSize ≤ aligned)
    (covers : FirstStepCovers blockSize out (s'.objs r).requestId aligned numLocal external)
    {mid after last : MimirEngine H K}
    {rest : List (SchedulerOutput MimirConnectorMetadata)}
    (before : Steps cfg (Engine.Admitted cfg)
      { e with sched := s', scheduled := e.scheduled ++ [out] } mid)
    (next : mid.scheduled = out :: rest) (executed : mid.exec cfg .execute = .ok after)
    (later : Steps cfg (Engine.Admitted cfg) after last) (request : Request H)
    (extends' : (s'.objs r).promptTokenIds.take aligned <+: request.promptTokenIds) :
    ∃ key n, last.sched.connector.lookupPrefixHit blockSize prefixHash request = some (key, n) ∧
      aligned ≤ n := by
  obtain ⟨f, n, blocks, built, promised, store, admitted, isOwn⟩ :=
    reached.started attached acyclic start scheduled started
  have size := attached.positive
  have id : (s'.objs r).requestId = (f.sched.objs r).requestId := by rw [built.sent]
  have prompt : (s'.objs r).promptTokenIds = (f.sched.objs r).promptTokenIds := by rw [built.sent]
  have within : aligned ≤ (f.sched.objs r).promptTokenIds.length := by
    rw [length, prompt]
    exact alignToBlockSize_le ..
  have scheduledStep : Steps cfg (Engine.Admitted cfg) e
      { e with sched := s', scheduled := e.scheduled ++ [out] } := by
    refine .single ⟨.schedule env, ⟨trivial, trivial⟩, ?_⟩
    simp [Engine.exec, scheduled, Bind.bind, Except.bind]
  have executedStep : Steps cfg (Engine.Admitted cfg) mid after :=
    .single ⟨.execute, ⟨trivial, trivial⟩, executed⟩
  have reachedMid : Reachable cfg connector (Engine.Admitted cfg) mid :=
    (reached.trans scheduledStep).trans before
  have reachedAfter := reachedMid.trans executedStep
  -- The key of the aligned prompt is in the store once the batch has been executed.
  have key : prefixHash ((f.sched.objs r).promptTokenIds.take aligned) ∈
      after.sched.connector.cpuKvStore.keys := by
    rcases promised.nonneg.eq_or_lt with zero | some'
    · -- Nothing is loaded, so the step stores what its blocks hold.
      subst zero
      have isNew := isOwn first
      have positive := promised.positive
      have reaches : (aligned : Int) < numLocal + n + blockSize := by
        rcases covers with all | ⟨_, n', numbers, reaches⟩
        · omega
        · rw [built.numbers, id, promised.scheduled] at numbers
          cases numbers
          exact reaches
      have reach : aligned ≤ blocks.length * blockSize := by
        -- The blocks go beyond the last whole block but one, so they include the last.
        have beyond := promised.enough size (.inl isNew) (m := aligned - blockSize + 1)
          (by omega) (by omega)
        rw [length] at beyond whole ⊢
        unfold alignToBlockSize at beyond whole ⊢
        refine Nat.mul_le_mul_right _ ?_
        by_contra few
        have bound := Nat.mul_le_mul_right blockSize (Nat.le_sub_one_of_lt (Nat.lt_of_not_le few))
        rw [Nat.sub_one_mul] at bound
        omega
      obtain ⟨metadata, entry, found, member, isStore, slots, tokens⟩ :=
        covered_prompt_stored promised isNew built (by rw [length, prompt]) size whole reach
      simp only [Engine.exec, next, Except.ok.injEq] at executed
      subst executed
      show _ ∈ (executeBatch cfg mid.sched out).connector.cpuKvStore.keys
      rw [executeBatch_connector attached, found, ← tokens]
      exact executeStep_stores _ member isStore slots
    · -- All of it was found in the store.
      obtain ⟨_, k, _, _, _, _, stored, sum⟩ := promised.load some'
      have eq : k = aligned := by
        rcases covers with all | ⟨none, _⟩ <;> omega
      subst eq
      refine Reachable.store_grows attached acyclic start reached
        ((scheduledStep.trans before).trans executedStep) ?_
      rw [← store]
      exact stored.present
  have present := Reachable.store_grows attached acyclic start reachedAfter later key
  -- The extending prompt starts with the same tokens.
  have cut : request.promptTokenIds.take aligned = (f.sched.objs r).promptTokenIds.take aligned := by
    rw [prompt] at extends'
    have eq := prefix_iff_eq_take.mp extends'
    rw [length_take, Nat.min_eq_left within] at eq
    exact eq.symm
  have fits : aligned ≤ request.promptTokenIds.length := by
    have bound := extends'.length_le
    rw [prompt, length_take, Nat.min_eq_left within] at bound
    exact bound
  have stored : MimirConnector.Stored blockSize prefixHash last.sched.connector
      request.promptTokenIds aligned := by
    refine ⟨by omega, ⟨(s'.objs r).promptTokenIds.length / blockSize, ?_⟩, fits, by rw [cut]; exact present⟩
    rw [length]
    exact Nat.mul_comm ..
  cases lookup : last.sched.connector.lookupPrefixHit blockSize prefixHash request with
  | none => exact absurd stored (lookupPrefixHit_none lookup aligned)
  | some hit =>
    obtain ⟨key', m⟩ := hit
    exact ⟨key', m, rfl, (lookupPrefixHit_some lookup).2.2 aligned stored⟩

/-- A prompt of two blocks computed in one step is found by a prompt that extends it. -/
theorem extended_prompt_found_oneStep :
    ∃ after, ∃ request : Request FreeHash,
      Reachable storeConfig {} (Engine.Admitted storeConfig) after ∧
      request.promptTokenIds = [1, 2, 3, 4, 5] ∧
      ∃ key n, after.sched.connector.lookupPrefixHit 2 id request = some (key, n) ∧ 4 ≤ n := by
  obtain ⟨e, before, out, s', scheduled, starts, numbers, first, own, prompt, empty⟩ : ∃ e,
      (init storeConfig {}).run storeConfig (Engine.Admitted storeConfig)
        [.addRequest (plainRequest 0 [1, 2, 3, 4] 4)] = .ok e ∧
      ∃ out s', e.sched.schedule storeConfig (atTime 0) = .ok (out, s') ∧
        s'.startsSince e.sched = [(0, 0, 0)] ∧ out.numScheduledTokens.get? 0 = some 4 ∧
        (∃ row ∈ out.scheduledNewReqs, row.reqId = (s'.objs 0).requestId) ∧
        (s'.objs 0).requestId = 0 ∧ (s'.objs 0).promptTokenIds = [1, 2, 3, 4] ∧
        e.scheduled.length = 0 := by
    decide +kernel
  have reached : Reachable storeConfig {} (Engine.Admitted storeConfig) e := steps_of_run before
  have idle := length_eq_zero_iff.mp empty
  -- The scheduled batch is the only one, and it is executed next.
  have next : ({ e with sched := s', scheduled := e.scheduled ++ [out] } :
      MimirEngine FreeHash (List TokenId)).scheduled =
        out :: [] := by
    simp [idle]
  have stepped : Step storeConfig (Engine.Admitted storeConfig) e
      { e with sched := s', scheduled := e.scheduled ++ [out] } := by
    refine ⟨.schedule (atTime 0), ⟨trivial, trivial⟩, ?_⟩
    simp [Engine.exec, scheduled, Bind.bind, Except.bind]
  have executed : ({ e with sched := s', scheduled := e.scheduled ++ [out] } :
      MimirEngine FreeHash (List TokenId)).exec storeConfig
        .execute = .ok ⟨executeBatch storeConfig s' out, [], e.executed ++ [out]⟩ := by
    simp [Engine.exec, idle]
  refine ⟨⟨executeBatch storeConfig s' out, [], e.executed ++ [out]⟩,
    { requestId := 1, promptTokenIds := [1, 2, 3, 4, 5], samplingParams := none, maxTokens := 0 },
    (reached.tail stepped).tail ⟨.execute, ⟨trivial, trivial⟩, executed⟩, rfl, ?_⟩
  exact extended_prompt_found storeConfig_attached freeHasher_collisionFree.acyclic rfl reached scheduled
    (by rw [starts]; exact mem_singleton_self _) first (by rw [prompt]; rfl) (by decide)
    (.inr ⟨rfl, 4, by rw [own]; exact numbers, by decide⟩) .refl next executed .refl _
    (by rw [prompt]; decide)

/-- A prompt of two blocks is computed in two steps of one block each. -/
def chunkedPrompt : List Op :=
  [.addRequest (plainRequest 0 [1, 2, 3, 4] 4), .schedule (atTime 0), .execute,
    .updateFromOutput stoppedClock (sampledOutput [(0, [])]), .schedule (atTime 1), .execute,
    .updateFromOutput stoppedClock (sampledOutput [(0, [7])]),
    .addRequest (plainRequest 1 [1, 2, 3, 4, 5] 4)]

/-- After both steps all four tokens are computed, and a longer prompt finds the first two. -/
theorem chunkedPrompt_found_in_part :
    ∃ e,
      Reachable (narrowConfig 2) {} (Engine.Admitted (narrowConfig 2)) e ∧
      (e.sched.objs 0).promptTokenIds = [1, 2, 3, 4] ∧ (e.sched.objs 0).numComputedTokens = 4 ∧
      e.scheduled.length = 0 ∧ e.executed.length = 0 ∧
      (e.sched.objs 1).promptTokenIds = [1, 2, 3, 4, 5] ∧
      e.sched.connector.lookupPrefixHit 2 id (e.sched.objs 1) = some ([1, 2], 2) :=
  exists_reachable chunkedPrompt (by decide +kernel)

end Engine

end Mimir
