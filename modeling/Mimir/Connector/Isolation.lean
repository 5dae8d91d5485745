import Mimir.Connector.Steps

/-! Whose prompt a stored prefix comes from, and whose prompt it is loaded for. -/

namespace Mimir

open Python MimirConnector List

variable {H : Type} {blockSize n : Nat} {out : SchedulerOutput MimirConnectorMetadata}
  {family : EngineCoreRequest → Prop} {entry : RequestId × ReqMeta} {metadata : MimirConnectorMetadata}
  {request : Request H}

/-- Two requests agree on what the KV of their first `n` tokens depends on beside the tokens. -/
structure EngineCoreRequest.Alike (n : Nat) (a b : EngineCoreRequest) : Prop where
  lora : a.loraRequest = b.loraRequest
  salt : a.cacheSalt = b.cacheSalt
  /-- The multimodal items that begin within these tokens. -/
  items : (a.mmFeatures.filter fun item => item.offset < n).map (·.identifier) =
    (b.mmFeatures.filter fun item => item.offset < n).map (·.identifier)

/-- Prompts whose whole blocks tell adapter, salt and items: requests with a common prefix of whole blocks
agree on them. -/
def KeyedByTokens (blockSize : Nat) (family : EngineCoreRequest → Prop) : Prop :=
  -- The key of the store has the tokens only, so nothing else may tell these requests apart.
  ∀ a b, family a → family b → ∀ n, 0 < n → blockSize ∣ n → n ≤ a.promptTokenIds.length →
    a.promptTokenIds.take n = b.promptTokenIds.take n → a.Alike n b

/-- An entry made for a request of a family: its hit is a prefix of that request's prompt. -/
def Stems (blockSize : Nat) (family : EngineCoreRequest → Prop) (entry : RequestId × ReqMeta) : Prop :=
  ∃ req n, family req ∧ req.requestId = entry.1 ∧ entry.2.hitTokenCount = (n : Nat) ∧ blockSize ∣ n ∧
    n ≤ req.promptTokenIds.length ∧ entry.2.tokenIds.take n = req.promptTokenIds.take n ∧
    -- A store entry has no tokens beyond its hit.
    (entry.2.isStore = true → entry.2.tokenIds.length = n)

section Store

variable {K : Type} [DecidableEq K] {prefixHash : List TokenId → K}

/-- What is in the store after a step was there before, or is an entry of the step. -/
theorem MimirConnector.executeStep_origin {c : MimirConnector H K} {key : K}
    (found : (c.executeStep prefixHash metadata).cpuKvStore.get? key = some entry) :
    c.cpuKvStore.get? key = some entry ∨
      entry ∈ metadata ∧ entry.2.isStore = true ∧ key = prefixHash entry.2.tokenIds := by
  induction metadata generalizing c with
  | nil => exact .inl found
  | cons first rest ih =>
    rw [executeStep_cons] at found
    rcases ih found with before | ⟨later, isStore, isKey⟩
    · unfold storeEntry at before
      split at before
      · exact .inl before
      · rename_i stores
        dsimp only at before
        rw [PyDict.get?_set] at before
        split at before
        · rename_i same
          cases before
          exact .inr ⟨mem_cons_self .., by simpa using fun no => stores (.inl no), same⟩
        · exact .inl before
    · exact .inr ⟨mem_cons_of_mem _ later, isStore, isKey⟩

/-- The lookup reads the store under the keys of the prompt's whole blocks only. -/
theorem MimirConnector.lookupPrefixHit_congr {c c' : MimirConnector H K}
    (same : ∀ n, 0 < n → blockSize ∣ n → n ≤ request.promptTokenIds.length →
      c.cpuKvStore.get? (prefixHash (request.promptTokenIds.take n)) =
        c'.cpuKvStore.get? (prefixHash (request.promptTokenIds.take n))) :
    c.lookupPrefixHit blockSize prefixHash request = c'.lookupPrefixHit blockSize prefixHash request := by
  have scan : ∀ blocks, blocks * blockSize ≤ request.promptTokenIds.length → (0 < blocks → 0 < blockSize) →
      c.scanPrefixes blockSize prefixHash request.promptTokenIds blocks =
        c'.scanPrefixes blockSize prefixHash request.promptTokenIds blocks := by
    intro blocks
    induction blocks with
    | zero => exact fun _ _ => rfl
    | succ blocks ih =>
      intro fits size
      have size := size (Nat.succ_pos _)
      have here := same ((blocks + 1) * blockSize) (Nat.mul_pos (Nat.succ_pos _) size)
        (Nat.dvd_mul_left ..) fits
      rw [Nat.succ_mul] at fits
      unfold scanPrefixes PyDict.contains
      dsimp only
      rw [here, ih (by omega) fun _ => size]
  refine scan _ (Nat.div_mul_le_self ..) fun some => Nat.pos_of_ne_zero fun zero => ?_
  rw [zero, Nat.div_zero] at some
  cases some

/-- After the step that stores whole blocks of one prompt, every request that starts with these tokens finds
them, whoever it is from. -/
theorem MimirConnector.executeStep_found (positive : 0 < n) (aligned : blockSize ∣ n)
    {a : EngineCoreRequest} (fits : n ≤ a.promptTokenIds.length) (c : MimirConnector H K)
    (same : a.promptTokenIds.take n = request.promptTokenIds.take n) :
    ∃ blocks entry, entry = ReqMeta.makeMeta a.promptTokenIds blocks blockSize true
        (a.mmFeatures.map (·.identifier)) none ∧
      (c.executeStep prefixHash [(a.requestId, entry)]).cpuKvStore.get?
        (prefixHash (request.promptTokenIds.take n)) = some (a.requestId, entry) ∧
      ∃ key m, n ≤ m ∧ (c.executeStep prefixHash [(a.requestId, entry)]).lookupPrefixHit blockSize
        prefixHash request = some (key, m) := by
  obtain ⟨count, rfl⟩ := aligned
  rw [Nat.mul_comm] at positive fits same ⊢
  have size : 0 < blockSize := Nat.pos_of_mul_pos_left positive
  have valid : ReqMeta.validNumTokens a.promptTokenIds.length (List.range count).length blockSize =
      count * blockSize := by
    unfold ReqMeta.validNumTokens alignToBlockSize
    rw [length_range]
    exact Nat.min_eq_right (Nat.mul_le_mul_right _ ((Nat.le_div_iff_mul_le size).mpr fits))
  refine ⟨List.range count, _, rfl, ?_⟩
  generalize made : ReqMeta.makeMeta a.promptTokenIds (List.range count) blockSize true
    (a.mmFeatures.map (·.identifier)) none = entry
  have tokens : entry.tokenIds = request.promptTokenIds.take (count * blockSize) := by
    rw [← made, ReqMeta.makeMeta_eq, valid, same]
  have slots : ¬ (entry.isStore = false ∨ entry.slotMapping = []) := by
    rw [← length_eq_zero_iff, ← made, ReqMeta.makeMeta_length.1, valid, ReqMeta.makeMeta_eq]
    simp [positive.ne']
  have found : (c.executeStep prefixHash [(a.requestId, entry)]).cpuKvStore.get?
      (prefixHash (request.promptTokenIds.take (count * blockSize))) = some (a.requestId, entry) := by
    rw [executeStep_cons]
    show (c.storeEntry prefixHash (a.requestId, entry)).cpuKvStore.get? _ = _
    rw [storeEntry, if_neg slots, tokens, PyDict.get?_set_self]
  refine ⟨found, ?_⟩
  have stored : Stored blockSize prefixHash (c.executeStep prefixHash [(a.requestId, entry)])
      request.promptTokenIds (count * blockSize) :=
    ⟨positive, Nat.dvd_mul_left .., by
      have := congrArg List.length same
      simp only [length_take] at this
      omega, PyDict.mem_keys_iff.mpr ⟨_, found⟩⟩
  cases hit : (c.executeStep prefixHash [(a.requestId, entry)]).lookupPrefixHit blockSize prefixHash
      request with
  | none => exact absurd stored (lookupPrefixHit_none hit _)
  | some => exact ⟨_, _, (lookupPrefixHit_some hit).2.2 _ stored, rfl⟩

end Store

section Entries

variable {K : Type} {prefixHash : List TokenId → K}
  {cfg : MimirConfig H K} {f : Frame H (MimirConnector H K)}
  {s' : Scheduler H (MimirConnector H K)}

variable {c : MimirConnector H K} {req : EngineCoreRequest}

/-- A store entry of a request stems from it. -/
theorem stems_store (member : family req) (blocks : List BlockId) (mmHashes : List String) :
    Stems blockSize family (req.requestId,
      .makeMeta req.promptTokenIds blocks blockSize true mmHashes none) := by
  have short := alignToBlockSize_le req.promptTokenIds.length blockSize
  refine ⟨req, ReqMeta.validNumTokens req.promptTokenIds.length blocks.length blockSize, member, rfl,
    ?_, ?_, ?_, ?_, fun _ => ReqMeta.makeMeta_length.2⟩
  · rw [ReqMeta.makeMeta_eq]
    dsimp only
    split
    · rename_i zero
      rw [zero]
      rfl
    · simp
  · -- Both bounds are whole blocks.
    unfold ReqMeta.validNumTokens alignToBlockSize
    rcases Nat.le_total (req.promptTokenIds.length / blockSize * blockSize)
      (blocks.length * blockSize) with less | more
    · rw [Nat.min_eq_left less]
      exact Nat.dvd_mul_left ..
    · rw [Nat.min_eq_right more]
      exact Nat.dvd_mul_left ..
  · exact le_trans (Nat.min_le_left ..) short
  · rw [ReqMeta.makeMeta_eq]
    dsimp only
    rw [take_take, Nat.min_self]

/-- A load entry with a hit in the store stems from its request. -/
theorem stems_load (member : family req) {blocks : List BlockId} {entry : ReqMeta}
    (loads : entry.Loads blockSize prefixHash c req.promptTokenIds blocks n)
    (stored : MimirConnector.Stored blockSize prefixHash c req.promptTokenIds n) :
    Stems blockSize family (req.requestId, entry) := by
  refine ⟨req, n, member, rfl, loads.hit, stored.aligned, stored.fits, loads.tokens, ?_⟩
  intro isStore
  rw [loads.isLoad] at isStore
  cases isStore

/-- Every entry that a step builds stems from the request it is made for. -/
theorem built_stems {base notes : List Effect} (size : 0 < blockSize)
    (promises : f.Promises cfg blockSize prefixHash base notes) (built : f.Built cfg blockSize out s')
    (admitted : ∀ r ∈ f.sched.running,
      ((f.sched.objs r).promptTokenIds.length : Int) ≤ cfg.kv.maxModelLen)
    (sent : ∀ r ∈ f.sched.running, family (f.sched.objs r).toEngineCoreRequest)
    (found : out.kvConnectorMetadata = some metadata)
    (member : entry ∈ metadata) : Stems blockSize family entry := by
  obtain ⟨new, cached, newDone, cachedDone, eq⟩ := built.metadata
  rw [eq] at found
  cases found
  -- With stored tokens there is one entry, a load of them.
  have pending : ∀ {r numLocal external n blocks},
      f.Promised cfg blockSize prefixHash r numLocal external n blocks →
      (f.sched.objs r).requestId ∈ f.sched.connector.requestsNeedLoad.keys → 0 < external := by
    intro r numLocal external n blocks promised listed
    have nonneg := promised.nonneg
    by_contra zero
    exact promised.store (by omega) listed
  rcases mem_append.mp member with isNew | isCached
  · obtain ⟨row, listed, es, made, inside⟩ := (newReqsMeta_mem newDone _).mp isNew
    obtain ⟨r, isNew', rowMade⟩ := exists_of_forall₂ built.new listed
    obtain ⟨id, prompt, _, _⟩ := newRequestData_fields rowMade
    obtain ⟨numLocal, external, started⟩ := promises.noted r (mem_append_left _ isNew')
    obtain ⟨n, blocks, promised⟩ := promises.kept r numLocal external started
    obtain ⟨ids, isStore, _, _, absent, hit, eq⟩ := newReqMeta_mem made inside
    cases isStore with
    | true =>
      rw [eq, hit rfl, id, prompt]
      exact stems_store (sent r promised.running) ids _
    | false =>
      rw [id] at absent
      have some' := pending promised (by simpa using absent)
      obtain ⟨made', k, loaded, sum, loads⟩ :=
        promised.newLoad size some' (admitted r promised.running) rowMade
      obtain ⟨_, k', _, _, _, _, stored, sum'⟩ := promised.load some'
      have same : k' = k := by omega
      subst same
      rw [loaded] at made
      cases made
      rw [mem_singleton.mp inside]
      exact stems_load (sent r promised.running) loads stored
  · obtain ⟨row, listed, resumed, es, made, inside⟩ :=
      cachedReqsMeta_mem cachedDone isCached
    obtain ⟨runningRows, resumedRows, runningBuilt, resumedBuilt, rows⟩ := built.cached
    rw [rows] at listed
    rcases mem_append.mp listed with isRunning | isResumed
    · -- A running row is not marked as resumed.
      obtain ⟨x, _, rowMade⟩ := exists_of_forall₂ runningBuilt isRunning
      rw [(cachedRequestData_fields rowMade).2.1] at resumed
      cases resumed
    · obtain ⟨r, isResumed', rowMade⟩ := exists_of_forall₂ resumedBuilt isResumed
      have id := (cachedRequestData_fields rowMade).1
      obtain ⟨numLocal, external, started⟩ := promises.noted r (mem_append_right _ isResumed')
      obtain ⟨n, blocks, promised⟩ := promises.kept r numLocal external started
      have loading : (f.sched.objs r).requestId ∈ f.sched.connector.requestsNeedLoad.keys := by
        unfold resumedReqMeta at made
        split at made
        · cases made
          cases inside
        · rename_i request held
          rw [id] at held
          exact PyDict.mem_keys_iff.mpr ⟨request, held⟩
      have some' := pending promised loading
      obtain ⟨made', k, loaded, sum, loads⟩ :=
        promised.resumedLoad size some' (admitted r promised.running) rowMade
      obtain ⟨_, k', _, _, _, _, stored, sum'⟩ := promised.load some'
      have same : k' = k := by omega
      subst same
      rw [built.numbers, loaded] at made
      cases made
      rw [mem_singleton.mp inside]
      exact stems_load (sent r promised.running) loads stored

end Entries

namespace Engine

variable {K : Type} [DecidableEq H] [DecidableEq K]
  {prefixHash : List TokenId → K} {cfg : MimirConfig H K}
  {connector : MimirConnector H K} {e : MimirEngine H K}

/-- The operations of a run whose requests all belong to a family. -/
def SentFrom {C M : Type} (family : EngineCoreRequest → Prop) (cfg : Config H C M)
    (e : Engine H C M) (op : Op) : Prop :=
  e.Admitted cfg op ∧
    match op with
    | .addRequest req => family req
    | _ => True

instance {C M : Type} (family : EngineCoreRequest → Prop) [DecidablePred family]
    (cfg : Config H C M) (e : Engine H C M) : (op : Op) → Decidable (SentFrom family cfg e op)
  | .addRequest req => inferInstanceAs (Decidable (e.Admitted cfg (.addRequest req) ∧ family req))
  | .schedule env => inferInstanceAs (Decidable (e.Admitted cfg (.schedule env) ∧ True))
  | .execute => inferInstanceAs (Decidable (e.Admitted cfg .execute ∧ True))
  | .updateFromOutput clock model =>
    inferInstanceAs (Decidable (e.Admitted cfg (.updateFromOutput clock model) ∧ True))
  | .finishRequests clock ids status =>
    inferInstanceAs (Decidable (e.Admitted cfg (.finishRequests clock ids status) ∧ True))
  | .updateDraftTokenIds drafts =>
    inferInstanceAs (Decidable (e.Admitted cfg (.updateDraftTokenIds drafts) ∧ True))
  | .resetPrefixCache => inferInstanceAs (Decidable (e.Admitted cfg .resetPrefixCache ∧ True))

/-- All entries, on their way to the workers and in the store, stem from requests of a family. -/
structure Sound (blockSize : Nat) (prefixHash : List TokenId → K) (family : EngineCoreRequest → Prop)
    (e : MimirEngine H K) : Prop where
  flying : ∀ batch ∈ e.scheduled, ∀ metadata, batch.kvConnectorMetadata = some metadata →
    ∀ entry ∈ metadata, Stems blockSize family entry
  stored : ∀ key entry, e.sched.connector.cpuKvStore.get? key = some entry →
    entry.2.isStore = true ∧ key = prefixHash entry.2.tokenIds ∧ Stems blockSize family entry

section

variable (attached : cfg.Attached blockSize prefixHash)

include attached

/-- A step of the scheduler adds entries of its own requests. -/
theorem Sound.schedule (acyclic : cfg.hasher.Acyclic) (start : connector.requestsNeedLoad = .empty)
    (reached : Reachable cfg connector (SentFrom family cfg) e) (sound : Sound blockSize prefixHash family e)
    {env : ScheduleEnv} (permitted : SentFrom family cfg e (.schedule env))
    {s' : Scheduler H (MimirConnector H K)}
    (scheduled : e.sched.schedule cfg env = .ok (out, s')) :
    Sound blockSize prefixHash family ⟨s', e.scheduled ++ [out], e.executed⟩ := by
  obtain ⟨f, notes, visited, promises, built, store⟩ :=
    reached.step attached acyclic start (fun _ _ h => h.1) permitted scheduled
  have below : ∀ r ∈ f.sched.running, r < f.flat.nextRef :=
    fun r runs => visited.queueInv.queued r (mem_append_right _ runs)
  refine ⟨?_, ?_⟩
  · intro batch member metadata found entry inside
    rcases mem_append.mp member with old | new
    · exact sound.flying batch old metadata found entry inside
    · rw [mem_singleton.mp new] at found
      refine built_stems attached.positive promises built ?_ ?_ found inside
      · intro r runs
        exact visited.sent (Q := fun req => (req.promptTokenIds.length : Int) ≤ cfg.kv.maxModelLen)
          (fun _ _ h => h.1.2) r (below r runs)
      · intro r runs
        exact visited.sent (Q := family) (fun _ _ h => h.2) r (below r runs)
  · -- Scheduling reads the store only.
    intro key entry found
    apply sound.stored key entry
    rw [← store, ← built.store]
    exact found

omit [DecidableEq H] in
/-- Executing a batch moves its store entries into the store. -/
theorem Sound.execute
    (sound : Sound blockSize prefixHash family e) {batch : SchedulerOutput MimirConnectorMetadata}
    {rest : List (SchedulerOutput MimirConnectorMetadata)} (waiting : e.scheduled = batch :: rest) :
    Sound blockSize prefixHash family ⟨executeBatch cfg e.sched batch, rest, e.executed ++ [batch]⟩ := by
  refine ⟨?_, ?_⟩
  · intro other member
    apply sound.flying other
    rw [waiting]
    exact mem_cons_of_mem _ member
  · intro key entry found
    dsimp only at found
    rw [executeBatch_connector attached] at found
    rcases executeStep_origin found with old | ⟨inside, isStore, isKey⟩
    · exact sound.stored key entry old
    · refine ⟨isStore, isKey, ?_⟩
      cases metadata : batch.kvConnectorMetadata with
      | none =>
        rw [metadata] at inside
        cases inside
      | some entries =>
        rw [metadata] at inside
        apply sound.flying batch _ entries metadata entry inside
        rw [waiting]
        exact mem_cons_self ..

/-- In every run from an empty store, all entries stem from requests of the run. -/
theorem Reachable.sound (acyclic : cfg.hasher.Acyclic) (start : connector.requestsNeedLoad = .empty)
    (empty : connector.cpuKvStore = .empty)
    (reached : Reachable cfg connector (SentFrom family cfg) e) :
    Sound blockSize prefixHash family e := by
  have both : Reachable cfg connector (SentFrom family cfg) e ∧ Sound blockSize prefixHash family e := by
    refine Steps.invariant (I := fun x => Reachable cfg connector (SentFrom family cfg) x ∧
      Sound blockSize prefixHash family x) reached ⟨.refl, ⟨?_, ?_⟩⟩ ?_
    · intro batch member
      cases member
    · intro key entry found
      have absent : connector.cpuKvStore.get? key = some entry := found
      rw [empty] at absent
      cases absent
    · intro a b op before permitted done
      refine ⟨before.1.tail ⟨op, permitted, done⟩, ?_⟩
      rcases exec_connector attached.inert done with ⟨same, waits⟩ |
        ⟨env, out, rfl, scheduled, waits, runs⟩ | ⟨batch, rest, _, waiting, rfl⟩
      · refine ⟨?_, ?_⟩
        · rw [waits]
          exact before.2.flying
        · rw [same]
          exact before.2.stored
      · have after := before.2.schedule attached acyclic start before.1 permitted scheduled
        rw [← waits, ← runs] at after
        exact after
      · exact before.2.execute attached waiting
  exact both.2

end

omit [DecidableEq H] in
/-- An entry under the key of a prompt's first tokens was made for a request of the family with these tokens. -/
theorem Sound.source (sound : Sound blockSize prefixHash family e) (injective : Function.Injective prefixHash)
    {b : EngineCoreRequest} (fits : n ≤ b.promptTokenIds.length) {source : RequestId × ReqMeta}
    (found : e.sched.connector.cpuKvStore.get? (prefixHash (b.promptTokenIds.take n)) = some source) :
    ∃ a, family a ∧ a.requestId = source.1 ∧ blockSize ∣ n ∧ n ≤ a.promptTokenIds.length ∧
      a.promptTokenIds.take n = b.promptTokenIds.take n := by
  obtain ⟨isStore, key, a, l, isA, idA, _, aligned, fitsA, tokensA, length⟩ := sound.stored _ _ found
  -- An injective key gives back the tokens, all of them from the prompt of the request that stored them.
  have tokens := injective key
  have sameLength : l = n := by
    rw [← length isStore, ← tokens, length_take]
    omega
  subst sameLength
  have whole : source.2.tokenIds.take l = source.2.tokenIds :=
    take_of_length_le (length isStore).le
  exact ⟨a, isA, idA, aligned, fitsA, by rw [← tokensA, whole, ← tokens]⟩

/-- Every load that waits takes its tokens from an entry of a request that agrees with its own. -/
def LoadsAlike (prefixHash : List TokenId → K) (family : EngineCoreRequest → Prop)
    (e : MimirEngine H K) : Prop :=
  ∀ batch ∈ e.scheduled, ∀ metadata, batch.kvConnectorMetadata = some metadata →
    ∀ entry ∈ metadata, ∀ n source, entry.2.hitTokenCount = (n : Nat) → 0 < n →
    e.sched.connector.cpuKvStore.get? (prefixHash (entry.2.tokenIds.take n)) = some source →
    ∃ a b, family a ∧ family b ∧ a.requestId = source.1 ∧ b.requestId = entry.1 ∧
      a.promptTokenIds.take n = b.promptTokenIds.take n ∧ a.Alike n b

/-- Two stores have the same entries, under the keys of a prompt, that were made for requests which agree with
its own. -/
def AlikeEntries (prefixHash : List TokenId → K) (family : EngineCoreRequest → Prop)
    (b : EngineCoreRequest) (c c' : MimirConnector H K) : Prop :=
  ∀ n source, (∃ a, family a ∧ a.requestId = source.1 ∧ a.Alike n b) →
    (c.cpuKvStore.get? (prefixHash (b.promptTokenIds.take n)) = some source ↔
      c'.cpuKvStore.get? (prefixHash (b.promptTokenIds.take n)) = some source)

/-- If whole blocks of prompts tell adapter, salt and items, loads come from requests that agree on them, and
two runs whose stores differ only in entries of other requests give a request the same tokens. If they do not,
there are two requests that differ in one of them, and the store of the one serves the other. -/
theorem loaded_from_alike (attached : cfg.Attached blockSize prefixHash)
    (acyclic : cfg.hasher.Acyclic) (injective : Function.Injective prefixHash)
    (start : connector.requestsNeedLoad = .empty) (empty : connector.cpuKvStore = .empty) :
    (KeyedByTokens blockSize family →
      ∀ e, Reachable cfg connector (SentFrom family cfg) e → LoadsAlike prefixHash family e ∧
        ∀ e', Reachable cfg connector (SentFrom family cfg) e' →
          ∀ request : Request H, family request.toEngineCoreRequest →
          AlikeEntries prefixHash family request.toEngineCoreRequest e.sched.connector
            e'.sched.connector →
          e.sched.connector.lookupPrefixHit blockSize prefixHash request =
            e'.sched.connector.lookupPrefixHit blockSize prefixHash request ∧
          ∀ n, 0 < n → n ≤ request.promptTokenIds.length →
            e.sched.connector.cpuKvStore.get? (prefixHash (request.promptTokenIds.take n)) =
              e'.sched.connector.cpuKvStore.get? (prefixHash (request.promptTokenIds.take n))) ∧
    (¬ KeyedByTokens blockSize family → ∃ a b n, family a ∧ family b ∧ ¬ a.Alike n b ∧
      ∀ (c : MimirConnector H K) (request : Request H), request.toEngineCoreRequest = b →
        ∃ blocks entry, entry = ReqMeta.makeMeta a.promptTokenIds blocks blockSize true
            (a.mmFeatures.map (·.identifier)) none ∧
          (c.executeStep prefixHash [(a.requestId, entry)]).cpuKvStore.get?
            (prefixHash (b.promptTokenIds.take n)) = some (a.requestId, entry) ∧
          ∃ key m, n ≤ m ∧ (c.executeStep prefixHash [(a.requestId, entry)]).lookupPrefixHit blockSize
            prefixHash request = some (key, m)) := by
  refine ⟨fun keyed e reached => ?_, fun unkeyed => ?_⟩
  · have sound := reached.sound attached acyclic start empty
    have alike : ∀ {x : MimirEngine H K} {b n source},
        Sound blockSize prefixHash family x → family b → 0 < n → n ≤ b.promptTokenIds.length →
        x.sched.connector.cpuKvStore.get? (prefixHash (b.promptTokenIds.take n)) = some source →
        ∃ a, family a ∧ a.requestId = source.1 ∧ a.promptTokenIds.take n = b.promptTokenIds.take n ∧
          a.Alike n b := by
      intro x b n source sound isB positive fits found
      obtain ⟨a, isA, idA, aligned, fitsA, same⟩ := sound.source injective fits found
      exact ⟨a, isA, idA, same, keyed a b isA isB n positive aligned fitsA same⟩
    refine ⟨fun batch waits metadata found entry member n source hit positive loaded => ?_,
      fun e' reached' request isB agree => ?_⟩
    · obtain ⟨b, m, isB, idB, hitB, _, fits, tokensB, _⟩ :=
        sound.flying batch waits metadata found entry member
      have sameHit : m = n := by omega
      subst sameHit
      rw [tokensB] at loaded
      obtain ⟨a, isA, idA, same, both⟩ := alike sound isB positive fits loaded
      exact ⟨a, b, isA, isB, idA, idB, same, both⟩
    · have sound' := reached'.sound attached acyclic start empty
      -- What either store has under a key of the prompt is from a request that agrees, so both have it.
      have entries : ∀ n, 0 < n → n ≤ request.promptTokenIds.length →
          e.sched.connector.cpuKvStore.get? (prefixHash (request.promptTokenIds.take n)) =
            e'.sched.connector.cpuKvStore.get? (prefixHash (request.promptTokenIds.take n)) := by
        intro n positive fits
        refine Option.ext fun source => ⟨fun found => ?_, fun found => ?_⟩
        · obtain ⟨a, isA, idA, _, both⟩ := alike sound isB positive fits found
          exact (agree n source ⟨a, isA, idA, both⟩).mp found
        · obtain ⟨a, isA, idA, _, both⟩ := alike sound' isB positive fits found
          exact (agree n source ⟨a, isA, idA, both⟩).mpr found
      exact ⟨lookupPrefixHit_congr fun n positive _ fits => entries n positive fits, entries⟩
  · unfold KeyedByTokens at unkeyed
    push Not at unkeyed
    obtain ⟨a, b, isA, isB, n, positive, aligned, fits, same, differ⟩ := unkeyed
    refine ⟨a, b, n, isA, isB, differ, fun c request isRequest => ?_⟩
    subst isRequest
    exact executeStep_found positive aligned fits c same

/-- Requests with text only, without adapter and salt. -/
def PlainText (req : EngineCoreRequest) : Prop :=
  req.loraRequest = none ∧ req.cacheSalt = none ∧ req.mmFeatures = []

instance : DecidablePred PlainText := fun req =>
  inferInstanceAs (Decidable (req.loraRequest = none ∧ req.cacheSalt = none ∧ req.mmFeatures = []))

/-- Nothing but tokens tells plain requests apart. -/
theorem plainText_keyed : KeyedByTokens blockSize PlainText := by
  intro a b ⟨loraA, saltA, itemsA⟩ ⟨loraB, saltB, itemsB⟩ n _ _ _ _
  refine ⟨by rw [loraA, loraB], by rw [saltA, saltB], ?_⟩
  rw [itemsA, itemsB]

/-- A plain prompt is loaded from the entry of the plain prompt that it extends. -/
theorem loaded_from_alike_plainText :
    ∃ (e : MimirEngine FreeHash (List TokenId))
      (batch : SchedulerOutput MimirConnectorMetadata),
      Reachable storeConfig {} (SentFrom PlainText storeConfig) e ∧ e.scheduled = [batch] ∧
      batch.kvConnectorMetadata.map (·.map fun entry => (entry.1, entry.2.hitTokenCount)) =
        some [(1, 4)] ∧
      ∃ a b, PlainText a ∧ PlainText b ∧ a.requestId = 0 ∧ b.requestId = 1 ∧
        a.promptTokenIds.take 4 = b.promptTokenIds.take 4 ∧ a.Alike 4 b := by
  obtain ⟨e, before, batches, stored⟩ : ∃ e,
      (init storeConfig {}).run storeConfig (SentFrom PlainText storeConfig)
        (storedPrompt ++ [.addRequest (plainRequest 1 [1, 2, 3, 4, 5] 4), .schedule (atTime 1)]) =
        .ok e ∧
      e.scheduled.map (fun batch => batch.kvConnectorMetadata) =
        [some [(1, ⟨[1, 2, 3, 4], [6, 7, 8, 9], false, [], 4⟩)]] ∧
      e.sched.connector.cpuKvStore.get? [1, 2, 3, 4] =
        some (0, ⟨[1, 2, 3, 4], [2, 3, 4, 5], true, [], 4⟩) := by
    decide +kernel
  obtain ⟨batch, waits, metadata⟩ := map_eq_singleton_iff.mp batches
  have reached : Reachable storeConfig {} (SentFrom PlainText storeConfig) e := steps_of_run before
  refine ⟨e, batch, reached, waits, by rw [metadata]; rfl, ?_⟩
  have loads := ((loaded_from_alike storeConfig_attached freeHasher_collisionFree.acyclic (fun _ _ h => h)
    rfl rfl).1 plainText_keyed e reached).1
  exact loads batch (by rw [waits]; exact mem_singleton_self _) _ metadata _
    (mem_singleton_self _) 4 _ rfl (by decide) stored

/-- The small engine with a store, for two adapters. -/
def adaptersConfig : MimirConfig FreeHash (List TokenId) :=
  { storeConfig with maxLoras := some 2 }

/-- A request for an adapter. -/
def adapterRequest (id : RequestId) (prompt : List TokenId) (adapter : Int) : EngineCoreRequest :=
  { plainRequest id prompt 4 with loraRequest := some adapter }

/-- A prompt is stored under one adapter; a longer one for another adapter loads its four tokens. -/
theorem otherAdapter_loaded :
    ∃ (e : MimirEngine FreeHash (List TokenId)),
      Reachable adaptersConfig {} (Engine.Admitted adaptersConfig) e ∧
      e.scheduled.map (fun batch => batch.kvConnectorMetadata) =
        [some [(1, ⟨[1, 2, 3, 4], [6, 7, 8, 9], false, [], 4⟩)]] ∧
      e.sched.connector.cpuKvStore.get? [1, 2, 3, 4] =
        some (0, ⟨[1, 2, 3, 4], [2, 3, 4, 5], true, [], 4⟩) ∧
      (e.sched.objs 0).requestId = 0 ∧ (e.sched.objs 0).loraRequest = some 1 ∧
      (e.sched.objs 1).requestId = 1 ∧ (e.sched.objs 1).loraRequest = some 2 := by
  exact exists_reachable
    [.addRequest (adapterRequest 0 [1, 2, 3, 4] 1), .schedule (atTime 0), .execute,
      .finishRequests stoppedClock [0] .finishedAborted,
      .updateFromOutput stoppedClock (sampledOutput [(0, [7])]),
      .addRequest (adapterRequest 1 [1, 2, 3, 4, 5] 2), .schedule (atTime 1)]
    (by decide +kernel)

end Engine

end Mimir
