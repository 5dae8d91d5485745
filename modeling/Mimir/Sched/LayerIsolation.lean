import Mimir.Kv.LayoutLaws
import Mimir.Kv.Separation
import Mimir.Sched.Balance

/-! Layers never share bytes: the layout of the workers' memory together with every run of the scheduler. -/

namespace Mimir

open Python List

variable {H C M : Type} {cfg : Config H C M} {connector : C} {allowed : Engine H C M → Op → Prop}

section Runs

variable [DecidableEq H] {s : Scheduler H C}

variable {kv : KVCacheManager H}

/-- Looked-up hits lie at their groups' places. -/
theorem KVCacheManager.LookedUp.groupHits {cfg : KVConfig} {req : Request H}
    {hits : List (List BlockId)} (found : kv.LookedUp cfg req hits)
    (contiguous : cfg.enableCaching = true → Contiguous cfg) (balanced : kv.Balanced cfg) :
    GroupHits cfg kv.blockPool req.blockHashes hits := by
  rcases found with rfl | ⟨numLocal, found⟩
  · exact createEmptyBlockList_groupHits balanced.groups
  · exact getComputedBlocks_groupHits contiguous balanced.ledger.pool.table balanced.groups found

/-- A change of the KV cache keeps the groups apart. -/
theorem CacheChange.separate (step : CacheChange cfg s kv)
    (contiguous : cfg.kv.enableCaching = true → KVCacheManager.Contiguous cfg.kv)
    (nodup : ∀ r, (s.objs r).blockHashes.Nodup) (balanced : s.kvCacheManager.Balanced cfg.kv)
    (separate : s.kvCacheManager.Separate) : kv.Separate := by
  cases step with
  | same eq => rw [eq]; exact separate
  | free r eq => rw [eq]; exact separate.free balanced _
  | refuse r args queued done => exact separate.allocateSlots_refused balanced done
  | grant r args new queued hits done =>
    exact separate.allocateSlots_granted balanced (nodup r)
      (fun found given => (hits found given).groupHits contiguous balanced) done
  | cache req numTokens done => exact separate.cacheBlocks balanced done

/-- In every state of a run each real block is listed by one group. -/
theorem Engine.Visited.separate (acyclic : cfg.hasher.Acyclic)
    (contiguous : cfg.kv.enableCaching = true → KVCacheManager.Contiguous cfg.kv)
    (visited : Visited cfg connector allowed s) : s.kvCacheManager.Separate := by
  induction visited with
  | start => exact .init cfg.kv
  | add _ _ done ih =>
    obtain ⟨_, _, _, _, rfl⟩ := Scheduler.addRequest_spec done
    exact ih
  | reset before _ ih => exact ih.resetPrefixCache (before.balanced acyclic)
  | change before _ step ih =>
    exact step.cache.separate contiguous (fun r => (before.chained r).nodup acyclic)
      (before.balanced acyclic) ih

end Runs

/-- The class of the specs that a manager is for, by its place among the class names. -/
def SpecKind.className : SpecKind → Nat
  | .chunkedLocal _ => 0
  | .crossAttention => 1
  | .fullAttention => 3
  | .mamba _ => 4
  | .slidingWindow _ => 5

/-- A manager class serves one class of specs. -/
theorem LayerSpec.className_of_managerKind {spec : LayerSpec} {kind : SpecKind}
    (serves : spec.managerKind = some kind) : spec.className = kind.className := by
  cases spec with
  | attention fields attention =>
    cases attention <;> first | (cases serves; rfl) | cases serves
  | mamba => cases serves; rfl

/-- The scheduler's KV cache configuration is made from a worker's. -/
structure KVCacheConfig.Manages {L : Type} (config : KVCacheConfig L) (kv : KVConfig) : Prop where
  numBlocks : kv.numBlocks = config.numBlocks
  groups : List.Forall₂ (fun group spec => group.kvCacheSpec.managerKind = some spec.kind ∧
    group.kvCacheSpec.blockSize = spec.blockSize) config.kvCacheGroups kv.groups

variable {kv : KVConfig}

/-- The managers of sorted groups are sorted. -/
theorem KVCacheConfig.Manages.sorted {L : Type} {config : KVCacheConfig L}
    (manages : config.Manages kv)
    (sorted : config.kvCacheGroups.Pairwise
      fun a b => a.kvCacheSpec.className ≤ b.kvCacheSpec.className) :
    kv.groups.Pairwise fun a b => a.kind.className ≤ b.kind.className := by
  have classes : kv.groups.map (fun spec => spec.kind.className) =
      config.kvCacheGroups.map fun group => group.kvCacheSpec.className := by
    have served := manages.groups
    generalize config.kvCacheGroups = groups at served ⊢
    generalize kv.groups = specs at served ⊢
    induction served with
    | nil => rfl
    | cons here _ ih =>
      rw [map_cons, map_cons, ih, LayerSpec.className_of_managerKind here.1]
  have pairs := pairwise_map.mpr sorted
  rw [← classes] at pairs
  exact pairwise_map.mp pairs

/-- A group among those with a property. -/
theorem KVCacheManager.mem_groupIdsWhere {test : SpecKind → Bool} {i : Nat}
    (member : i ∈ groupIdsWhere kv test) :
    ∃ below : i < kv.groups.length, test kv.groups[i].kind = true := by
  obtain ⟨inside, passes⟩ := mem_filter.mp member
  have below := mem_range.mp inside
  rw [getElem?_eq_getElem below] at passes
  exact ⟨below, passes⟩

/-- Sorted groups of two kinds do not interleave. -/
theorem KVCacheManager.contiguous_of_sorted
    (sorted : kv.groups.Pairwise fun a b => a.kind.className ≤ b.kind.className)
    (verified : Verified kv) (enabled : kv.enableCaching = true) : Contiguous kv := by
  have order := pairwise_iff_getElem.mp sorted
  by_cases some : ∃ j, j ∈ groupIdsWhere kv fun kind => !isFull kind
  · obtain ⟨j₀, first⟩ := some
    obtain ⟨below₀, other₀⟩ := mem_groupIdsWhere first
    -- All groups without full attention are alike, so they are of one class.
    have alike : ∀ j ∈ groupIdsWhere kv fun kind => !isFull kind, ∃ below : j < kv.groups.length,
        kv.groups[j] = kv.groups[j₀] := by
      intro j member
      obtain ⟨below, other⟩ := mem_groupIdsWhere member
      refine ⟨below, verified enabled _ (getElem_mem below) _ (getElem_mem below₀) ?_⟩
      simp only [Bool.not_eq_true'] at other other₀
      rw [other, other₀]
    have full : ∀ i ∈ groupIdsWhere kv isFull, ∃ below : i < kv.groups.length,
        kv.groups[i].kind = .fullAttention := by
      intro i member
      obtain ⟨below, passes⟩ := mem_groupIdsWhere member
      exact ⟨below, by simpa [isFull] using passes⟩
    by_cases behind : SpecKind.className .fullAttention < kv.groups[j₀].kind.className
    · refine .inl fun i member j member' => ?_
      obtain ⟨below, kind⟩ := full i member
      obtain ⟨below', same⟩ := alike j member'
      by_contra late
      have apart : j ≠ i := fun eq => by
        subst eq
        rw [← same, kind] at behind
        exact Nat.lt_irrefl _ behind
      have ranked := order j i below' below (by omega)
      rw [same, kind] at ranked
      omega
    · refine .inr fun i member j member' => ?_
      obtain ⟨below, kind⟩ := full i member
      obtain ⟨below', same⟩ := alike j member'
      by_contra late
      have apart : i ≠ j := fun eq => by
        subst eq
        rw [← same, kind] at other₀
        simp [isFull] at other₀
      have ranked := order i j below below' (by omega)
      rw [same, kind] at ranked
      -- Only full attention has the class of full attention.
      have equal : kv.groups[j₀].kind.className = SpecKind.className .fullAttention := by omega
      cases kind₀ : kv.groups[j₀].kind <;> rw [kind₀] at equal other₀ <;>
        simp [SpecKind.className, isFull] at equal other₀
  · exact .inl fun i _ j member => (some ⟨j, member⟩).elim

section Layers

variable {L : Type} [DecidableEq L] [DecidableEq H]
  {e : Engine H C M}

/-- The block list of a request in one group. -/
def KVCacheManager.blocksIn (kv : KVCacheManager H) (g : Nat) (id : RequestId) : List BlockId :=
  (kv.getBlocks id)[g]?.getD []

/-- Block lists of two groups have nothing but the placeholder in common. -/
theorem KVCacheManager.Separate.blocksIn_disjoint {kv : KVCacheManager H} (separate : kv.Separate)
    {cfg : KVConfig} (balanced : kv.Balanced cfg) {g g' : Nat} (apart : g ≠ g') {id id' : RequestId}
    {b : BlockId} (listed : b ∈ kv.blocksIn g id) (listed' : b ∈ kv.blocksIn g' id') :
    b = nullBlock := by
  have manager : ∀ {g : Nat} {id : RequestId}, b ∈ kv.blocksIn g id →
      ∃ m ∈ kv.managers, m.kvCacheGroupId = g ∧ b ∈ m.blocksOf id := by
    intro g id listed
    unfold blocksIn getBlocks at listed
    rw [getElem?_map] at listed
    cases found : kv.managers[g]? with
    | none => simp [found] at listed
    | some m =>
      rw [found] at listed
      have ids := congrArg (·[g]?) balanced.groupIds
      simp only [getElem?_map, found, Option.map_some] at ids
      have inside := (List.getElem?_eq_some_iff.mp ids.symm)
      obtain ⟨below, eq⟩ := inside
      rw [getElem_range] at eq
      exact ⟨m, mem_of_getElem? found, eq.symm, listed⟩
  obtain ⟨m, known, group, inList⟩ := manager listed
  obtain ⟨m', known', group', inList'⟩ := manager listed'
  exact separate.disjoint known known' (by rw [group, group']; exact apart) inList inList'

/-- Layers never share bytes, whatever the workers' layers and memory and whatever has been scheduled:
each layer has one group and one tensor, the tensors fit into the memory and every block into the
tensors, and the groups of two layers of one tensor never list the same block. -/
theorem layers_share_no_bytes {disableHybrid : Bool} {fieldsBefore : LayerSpec → LayerSpec → Bool}
    {workers : List (PyDict L LayerSpec × Int)} {configs unified : List (KVCacheConfig L)}
    {first : KVCacheConfig L}
    (laid : List.Forall₂ (fun worker config =>
      getKvCacheConfig disableHybrid worker.1 worker.2 = .ok config) workers configs)
    (alike : unifyKvCacheConfigs fieldsBefore configs = .ok unified)
    (scheduler : unified.head? = some first) (manages : first.Manages cfg.kv)
    (verified : KVCacheManager.Verified cfg.kv) (acyclic : cfg.hasher.Acyclic)
    (reached : Engine.Reachable cfg connector allowed e) :
    List.Forall₂ (fun worker config => worker.1.keys ≠ [] → ∃ pageSize,
      (∀ spec ∈ worker.1.values, spec.pageSizeBytes = .ok pageSize) ∧
      (∀ layer ∈ worker.1.keys,
        (config.kvCacheGroups.flatMap (·.layerNames)).count layer = 1 ∧
        (config.kvCacheTensors.flatMap (·.sharedBy)).count layer = 1) ∧
      (((config.kvCacheTensors.map (·.size)).sum : Nat) : Int) ≤ worker.2 ∧
      config.numBlocks = cfg.kv.numBlocks ∧
      (∀ tensor ∈ config.kvCacheTensors, ∀ b < config.numBlocks,
        (b + 1) * pageSize ≤ tensor.size) ∧
      ∀ tensor ∈ config.kvCacheTensors, ∀ layer ∈ tensor.sharedBy, ∀ layer' ∈ tensor.sharedBy,
        layer ≠ layer' → ∀ g g' group group', config.kvCacheGroups[g]? = some group →
          config.kvCacheGroups[g']? = some group' → layer ∈ group.layerNames →
          layer' ∈ group'.layerNames → ∀ id id',
            ∀ b ∈ e.sched.kvCacheManager.blocksIn g id,
              b ∈ e.sched.kvCacheManager.blocksIn g' id' → b = nullBlock) workers unified := by
  obtain ⟨numBlocks, each⟩ := unifyKvCacheConfigs_spec alike
  -- The groups of the first worker are sorted, so the hits of a lookup lie at their groups' places.
  have made : ∃ before ∈ configs, first = { sortGroups fieldsBefore before with numBlocks := numBlocks } := by
    obtain ⟨before, known, -, eq⟩ := exists_of_forall₂ each (mem_of_head? scheduler)
    exact ⟨before, known, eq⟩
  obtain ⟨before, -, eq⟩ := made
  have blocks : numBlocks = cfg.kv.numBlocks := by rw [manages.numBlocks, eq]
  have sorted := manages.sorted (by rw [eq]; exact (sortGroups_spec fieldsBefore before).2)
  have visited := reached.visited
  have balanced := visited.balanced acyclic
  have separate := visited.separate acyclic (KVCacheManager.contiguous_of_sorted sorted verified)
  clear eq scheduler manages alike
  induction laid generalizing unified with
  | nil =>
    cases each
    exact .nil
  | @cons worker config workers configs here _ ih =>
    cases each with
    | @cons _ after _ unified shaped others =>
      refine .cons (fun nonempty => ?_) (ih others)
      obtain ⟨fewer, rfl⟩ := shaped
      obtain ⟨pageSize, sizes, laid⟩ := getKvCacheConfig_laid nonempty here
      have laid := laid.unified fieldsBefore fewer
      refine ⟨pageSize, sizes, fun layer member => ?_, laid.total, blocks, fun tensor member b below => ?_,
        fun tensor member layer shared layer' shared' other g g' group group' found found' inGroup inGroup'
          id id' b listed listed' => ?_⟩
      · have once := count_eq_one_of_mem worker.1.nodup member
        exact ⟨(laid.groups.count_eq layer).trans once, (laid.tensors.count_eq layer).trans once⟩
      · calc (b + 1) * pageSize ≤ numBlocks * pageSize := Nat.mul_le_mul_right _ below
          _ = pageSize * numBlocks := Nat.mul_comm ..
          _ ≤ tensor.size := laid.size tensor member
      · refine separate.blocksIn_disjoint balanced (fun same => ?_) listed listed'
        subst same
        rw [found] at found'
        cases found'
        exact laid.apart tensor member layer shared layer' shared' other group
          (mem_of_getElem? found) inGroup inGroup'

end Layers

/-- Two layers with full attention and two with a window, all with pages of four bytes. -/
def hybridLayers (base : Nat) : PyDict Nat LayerSpec :=
  ⟨[(base, .attention ⟨2, 1, 1, ⟨0, 1⟩, false⟩ (.full none none)),
    (base + 1, .attention ⟨2, 1, 1, ⟨0, 1⟩, false⟩ (.slidingWindow 4)),
    (base + 2, .attention ⟨2, 1, 1, ⟨0, 1⟩, false⟩ (.full none none)),
    (base + 3, .attention ⟨2, 1, 1, ⟨0, 1⟩, false⟩ (.slidingWindow 4))], by simp⟩

/-- The layout of the hybrid layers: two groups, and two tensors with a layer of each. -/
def hybridLayout (base size numBlocks : Nat) : KVCacheConfig Nat where
  numBlocks := numBlocks
  kvCacheTensors := [⟨size, [base, base + 1]⟩, ⟨size, [base + 2, base + 3]⟩]
  kvCacheGroups := [⟨[base, base + 2], .attention ⟨2, 1, 1, ⟨0, 1⟩, false⟩ (.full none none)⟩,
    ⟨[base + 1, base + 3], .attention ⟨2, 1, 1, ⟨0, 1⟩, false⟩ (.slidingWindow 4)⟩]

/-- The scheduler of the hybrid layers. -/
def hybridConfig : Config FreeHash Unit Unit :=
  { smallConfig with
    kv := { smallConfig.kv with
      groups := [⟨.fullAttention, 2, Nat.two_pos⟩, ⟨.slidingWindow 4, 2, Nat.two_pos⟩] } }

/-- Two requests with a common prefix, one after the other. -/
def sharedPrefixTurns : List Op :=
  [.addRequest (plainRequest 0 [1, 2, 3, 4, 5] 4), .schedule (atTime 0), .execute,
    .updateFromOutput (fun _ => .fin 0) (sampledOutput [(0, [7])]),
    .addRequest (plainRequest 1 [1, 2, 3, 9, 8] 4), .schedule (atTime 1)]

/-- Two workers with different memory: the second request reuses a block in each group, and layers 0
and 1, which share a tensor, have no block in common. -/
theorem layers_share_no_bytes_hybrid :
    ∃ e : Engine FreeHash Unit Unit,
      Engine.Reachable hybridConfig () (fun _ _ => True) e ∧
      e.sched.kvCacheManager.getBlocks 0 = [[1, 2, 3], [0, 5, 6]] ∧
      e.sched.kvCacheManager.getBlocks 1 = [[1, 7, 8], [4, 9, 10]] ∧
      ∀ id id', ∀ b ∈ e.sched.kvCacheManager.blocksIn 0 id,
        b ∈ e.sched.kvCacheManager.blocksIn 1 id' → b = nullBlock := by
  obtain ⟨e, ran, eq⟩ : ∃ e,
      (Engine.init hybridConfig ()).run hybridConfig (fun _ _ => True) sharedPrefixTurns = .ok e ∧
      e.sched.kvCacheManager.getBlocks 0 = [[1, 2, 3], [0, 5, 6]] ∧
      e.sched.kvCacheManager.getBlocks 1 = [[1, 7, 8], [4, 9, 10]] := by
    decide +kernel
  have reached : Engine.Reachable hybridConfig () (fun _ _ => True) e := Engine.steps_of_run ran
  have laid : List.Forall₂ (fun worker config => getKvCacheConfig false worker.1 worker.2 = .ok config)
      [(hybridLayers 0, 130), (hybridLayers 4, 200)] [hybridLayout 0 64 16, hybridLayout 4 100 25] :=
    .cons rfl (.cons rfl .nil)
  have alike : unifyKvCacheConfigs (fun _ _ => true) [hybridLayout 0 64 16, hybridLayout 4 100 25] =
      .ok [hybridLayout 0 64 16, hybridLayout 4 100 16] := by rfl
  have manages : (hybridLayout 0 64 16).Manages hybridConfig.kv :=
    ⟨rfl, .cons ⟨rfl, rfl⟩ (.cons ⟨rfl, rfl⟩ .nil)⟩
  have verified : KVCacheManager.Verified hybridConfig.kv := by
    unfold KVCacheManager.Verified
    decide
  have whole := layers_share_no_bytes laid alike rfl manages verified
    freeHasher_collisionFree.acyclic reached
  refine ⟨e, reached, eq.1, eq.2, ?_⟩
  cases whole with
  | cons here _ =>
    obtain ⟨_, _, _, _, _, _, apart⟩ := here (by decide)
    exact apart _ (mem_cons_self ..) 0 (by decide) 1 (by decide) (by decide) 0 1 _ _ rfl rfl
      (by decide) (by decide)

end Mimir
