import Mimir.Sched.Balance

/-! The tokens a block hash covers, against the tokens a block of the KV cache holds. -/

namespace Mimir

open Python Theory List

variable {H : Type} {hasher : BlockHasher H} {h : H} {tokens : List TokenId} {i : Nat}

/-- A hash over exactly these tokens, with whatever other keys. -/
def BlockHasher.Covers {H : Type} (hasher : BlockHasher H) (h : H) (tokens : List TokenId) : Prop :=
  ∃ inputs : List (List TokenId × Option (List ExtraKey)),
    h = digest hasher.hashFunction hasher.noneHash inputs ∧ (inputs.map Prod.fst).flatten = tokens

/-- Without collisions a hash covers one list of tokens. -/
theorem BlockHasher.CollisionFree.covers_unique (free : hasher.CollisionFree) {tokens' : List TokenId}
    (first : hasher.Covers h tokens) (second : hasher.Covers h tokens') : tokens = tokens' := by
  obtain ⟨inputs, rfl, rfl⟩ := first
  obtain ⟨inputs', same, rfl⟩ := second
  rw [digest_injective free.injective free.seed same]

namespace Request

variable {blockSize : Nat} {r r₁ r₂ : Request H}

/-- The tokens of leading blocks, put together. -/
theorem flatten_blocks {xs : List (List TokenId × Option (List ExtraKey))}
    (each : ∀ i < xs.length, ∃ keys, xs[i]? =
      some ((tokens.drop (i * blockSize)).take blockSize, keys)) {n : Nat} (below : n ≤ xs.length) :
    ((xs.take n).map Prod.fst).flatten = tokens.take (n * blockSize) := by
  -- The induction is on the number of blocks.
  induction n with
  | zero => simp
  | succ n ih =>
    obtain ⟨keys, entry⟩ := each n (by omega)
    rw [take_add_one, entry, map_append, flatten_append, ih (by omega), Nat.succ_mul,
      take_add]
    simp

/-- The hash of a block covers the tokens up to the end of the block, at the hasher's block size. -/
theorem Chained.covers (chained : r.Chained hasher blockSize) (entry : r.blockHashes[i]? = some h) :
    hasher.Covers h (r.allTokenIds.take ((i + 1) * blockSize)) := by
  obtain ⟨xs, eq, each, _⟩ := chained.inputs
  rw [eq, getElem?_chain] at entry
  split at entry
  · rename_i below
    exact ⟨xs.take (i + 1), (Option.some.inj entry).symm, flatten_blocks each (by omega)⟩
  · cases entry

/-- Hashes end where a block ends. -/
theorem Chained.full (chained : r.Chained hasher blockSize)
    (entry : r.blockHashes[i]? = some h) : (i + 1) * blockSize ≤ r.numTokens := by
  obtain ⟨below, _⟩ := List.getElem?_eq_some_iff.mp entry
  exact (Nat.mul_le_mul_right _ below).trans chained.within

/-- Equal hashes of two requests stand at one index, behind equal tokens. -/
theorem Chained.agree (free : hasher.CollisionFree) (first : r₁.Chained hasher blockSize)
    (second : r₂.Chained hasher blockSize) {j : Nat} (here : r₁.blockHashes[i]? = some h)
    (there : r₂.blockHashes[j]? = some h) :
    i = j ∧ r₁.allTokenIds.take ((i + 1) * blockSize) = r₂.allTokenIds.take ((i + 1) * blockSize) := by
  obtain ⟨xs, eq, _, _⟩ := first.inputs
  obtain ⟨ys, eq', _, _⟩ := second.inputs
  have one : i = j := by
    rw [eq] at here
    rw [eq'] at there
    exact (chain_entry_injective free.injective free.seed here there).1
  subst one
  exact ⟨rfl, free.covers_unique (first.covers here) (second.covers there)⟩

end Request

namespace KVConfig

/-- Every group has the block size at which hashes are computed. -/
def Uniform (cfg : KVConfig) (cacheBlockSize : Nat) : Prop :=
  ∀ spec ∈ cfg.groups, spec.blockSize = cacheBlockSize

end KVConfig

namespace Engine

variable {C M : Type} [DecidableEq H] {cfg : Config H C M} {connector : C}
  {allowed : Engine H C M → Op → Prop} {s : Scheduler H C}

/-- Blocks of the cache hold the tokens of all context-parallel ranks. -/
theorem manager_blockSize (balanced : s.kvCacheManager.Balanced cfg.kv)
    (uniform : cfg.kv.Uniform cfg.cacheBlockSize) (ranks : 1 ≤ cfg.kv.dcpWorldSize) {m : Manager}
    (member : m ∈ s.kvCacheManager.managers) :
    m.blockSize = cfg.cacheBlockSize * cfg.kv.dcpWorldSize := by
  have listed : m.layout ∈
      (KVCacheManager.init cfg.kv : KVCacheManager H).managers.map Manager.layout := by
    rw [← balanced.layout]
    exact mem_map_of_mem member
  obtain ⟨fresh, known, same⟩ := mem_map.mp listed
  obtain ⟨i, below, rfl⟩ := mem_mapIdx.mp known
  have size : (Manager.init (cfg.kv.groups[i]) i cfg.kv.dcpWorldSize).blockSize = m.blockSize :=
    congrArg (fun l => l.2.1) same
  rw [← size]
  unfold Manager.init
  dsimp only
  rw [uniform _ (getElem_mem below)]
  split
  · rfl
  · rw [show cfg.kv.dcpWorldSize = 1 by omega, Nat.mul_one]

/-- Hashes against blocks: what `cache_full_blocks` writes on the `i`-th block of a request covers the
request's tokens up to the end of the `i`-th block of the hasher, which is the end of the block itself
exactly without context parallelism; then requests that get one block agree on its tokens. -/
theorem hash_granularity (free : cfg.hasher.CollisionFree)
    (uniform : cfg.kv.Uniform cfg.cacheBlockSize) (ranks : 1 ≤ cfg.kv.dcpWorldSize)
    (size : 0 < cfg.cacheBlockSize) (visited : Visited cfg connector allowed s) (r : Ref) :
    (∀ m ∈ s.kvCacheManager.managers, m.blockSize = cfg.cacheBlockSize * cfg.kv.dcpWorldSize) ∧
    (∀ (p p' : BlockPool H) event held blocks (numCached numFull groupId : Nat), PoolInv p held →
      p.enableCaching = true → (∀ b ∈ blocks, b < p.numGpuBlocks) →
      p.cacheFullBlocks event (s.objs r).blockHashes blocks numCached numFull groupId = .ok p' →
      ∀ i b, numCached ≤ i → i < numFull → blocks[i]? = some b →
        ∃ h, (p'.blocks b).blockHash = some (h, groupId) ∧
          ((i + 1) * (cfg.cacheBlockSize * cfg.kv.dcpWorldSize) ≤ (s.objs r).numTokens →
            (cfg.hasher.Covers h ((s.objs r).allTokenIds.take
                ((i + 1) * (cfg.cacheBlockSize * cfg.kv.dcpWorldSize))) ↔
              cfg.kv.dcpWorldSize = 1))) ∧
    (cfg.kv.dcpWorldSize = 1 → ∀ r' hits numComputed,
      s.kvCacheManager.getComputedBlocks cfg.kv (s.objs r') = .ok (hits, numComputed) →
      ∀ hit ∈ hits, ∀ (i j : Nat) b h g, hit[i]? = some b → b ≠ nullBlock →
        (s.kvCacheManager.blockPool.blocks b).blockHash = some (h, g) →
        (s.objs r).blockHashes[j]? = some h →
        i = j ∧ (s.objs r').allTokenIds.take ((i + 1) * cfg.cacheBlockSize) =
          (s.objs r).allTokenIds.take ((i + 1) * cfg.cacheBlockSize)) := by
  have balanced := visited.balanced free.acyclic
  have chained := visited.chained r
  refine ⟨fun m member => manager_blockSize balanced uniform ranks member, ?_, ?_⟩
  · intro p p' event held blocks numCached numFull groupId inv enabled below done i b after before found
    obtain ⟨_, what⟩ := inv.cacheFullBlocks enabled below done
    rcases what with ⟨_, equal⟩ | ⟨_, hashed⟩
    · omega
    obtain ⟨⟨h, entry, carries⟩, _⟩ := (hashed.slice (Int.natCast_nonneg _)
      (Int.natCast_nonneg _)).1 i b (by omega) (by omega) found
    refine ⟨h, carries, fun full => ⟨fun covers => ?_, fun single => ?_⟩⟩
    · -- The hash covers the shorter list of tokens too, so both have one length.
      have lengths := congrArg List.length (free.covers_unique covers (chained.covers entry))
      have short := chained.full entry
      unfold Request.numTokens at full short
      rw [length_take, length_take, min_eq_left full, min_eq_left short, ← Nat.mul_assoc]
        at lengths
      have positive : 0 < (i + 1) * cfg.cacheBlockSize := Nat.mul_pos (Nat.succ_pos i) size
      exact Nat.eq_of_mul_eq_mul_left positive (by omega)
    · rw [single, Nat.mul_one]
      exact chained.covers entry
  · intro single r' hits numComputed found hit member i j b h g position real carries entry
    have lookup := KVCacheManager.getComputedBlocks_lookup balanced.ledger.pool.table balanced.groups
      found
    obtain ⟨g', carried⟩ := lookup.hits hit member
    rcases carried i b position with null | ⟨h', here, same⟩
    · exact absurd null real
    rw [carries] at same
    cases same
    exact (visited.chained r').agree free chained here entry

/-- A small engine with a decode context parallel size. -/
def parallelConfig (dcpWorldSize : Nat) : Config FreeHash Unit Unit :=
  { smallConfig with kv := { smallConfig.kv with dcpWorldSize } }

/-- Two requests whose prompts begin with the same two tokens, the first of them scheduled. -/
def commonStart : List Op :=
  [.addRequest (plainRequest 0 [1, 2, 3, 4, 5, 6, 7, 8] 4), .schedule (atTime 0),
    .addRequest (plainRequest 1 [1, 2, 9, 9, 9, 9] 4)]

/-- Without context parallelism the second request gets the one block both agree on. -/
theorem hash_granularity_commonStart :
    ∃ e : Engine FreeHash Unit Unit, Reachable (parallelConfig 1) () (fun _ _ => True) e ∧
      (parallelConfig 1).hasher.CollisionFree ∧
      (parallelConfig 1).kv.Uniform (parallelConfig 1).cacheBlockSize ∧
      1 ≤ (parallelConfig 1).kv.dcpWorldSize ∧ 0 < (parallelConfig 1).cacheBlockSize ∧
      e.sched.kvCacheManager.getComputedBlocks (parallelConfig 1).kv (e.sched.objs 1) =
        .ok ([[1]], 2) ∧
      (e.sched.objs 1).allTokenIds.take 2 = (e.sched.objs 0).allTokenIds.take 2 := by
  obtain ⟨e, before, looked, carries, entry⟩ : ∃ e,
      (init (parallelConfig 1) ()).run (parallelConfig 1) (fun _ _ => True) commonStart = .ok e ∧
      e.sched.kvCacheManager.getComputedBlocks (parallelConfig 1).kv (e.sched.objs 1) =
        .ok ([[1]], 2) ∧
      (e.sched.kvCacheManager.blockPool.blocks 1).blockHash = some (.node .seed [1, 2] none, 0) ∧
      (e.sched.objs 0).blockHashes[0]? = some (.node .seed [1, 2] none) := by
    decide +kernel
  have reached : Reachable (parallelConfig 1) () (fun _ _ => True) e := steps_of_run before
  have free : (parallelConfig 1).hasher.CollisionFree := freeHasher_collisionFree
  have uniform : (parallelConfig 1).kv.Uniform (parallelConfig 1).cacheBlockSize := by
    intro spec member
    cases mem_singleton.mp member
    rfl
  have positive : 0 < (parallelConfig 1).cacheBlockSize := by decide
  obtain ⟨_, _, shared⟩ := hash_granularity free uniform (le_refl 1) positive reached.visited 0
  obtain ⟨_, agree⟩ := shared rfl 1 [[1]] 2 looked [1] (mem_singleton.mpr rfl) 0 0 1 _ 0 rfl
    (by decide) carries entry
  exact ⟨e, reached, free, uniform, le_refl 1, positive, looked, agree⟩

/-- With two context-parallel ranks the second request gets a block of four tokens of which it shares
only two. -/
theorem commonStart_twoRanks :
    ∃ e : Engine FreeHash Unit Unit, Reachable (parallelConfig 2) () (fun _ _ => True) e ∧
      (parallelConfig 2).hasher.CollisionFree ∧ (parallelConfig 2).kv.enableCaching = true ∧
      (∀ m ∈ e.sched.kvCacheManager.managers, m.blockSize = 4) ∧
      e.sched.kvCacheManager.getBlocks 0 = [[1, 2]] ∧
      (e.sched.kvCacheManager.blockPool.blocks 1).blockHash = some (.node .seed [1, 2] none, 0) ∧
      e.sched.kvCacheManager.getComputedBlocks (parallelConfig 2).kv (e.sched.objs 1) =
        .ok ([[1]], 4) ∧
      (e.sched.objs 0).allTokenIds.take 4 = [1, 2, 3, 4] ∧
      (e.sched.objs 1).allTokenIds.take 4 = [1, 2, 9, 9] := by
  obtain ⟨e, before, facts⟩ : ∃ e,
      (init (parallelConfig 2) ()).run (parallelConfig 2) (fun _ _ => True) commonStart = .ok e ∧
      (∀ m ∈ e.sched.kvCacheManager.managers, m.blockSize = 4) ∧
      e.sched.kvCacheManager.getBlocks 0 = [[1, 2]] ∧
      (e.sched.kvCacheManager.blockPool.blocks 1).blockHash = some (.node .seed [1, 2] none, 0) ∧
      e.sched.kvCacheManager.getComputedBlocks (parallelConfig 2).kv (e.sched.objs 1) =
        .ok ([[1]], 4) ∧
      (e.sched.objs 0).allTokenIds.take 4 = [1, 2, 3, 4] ∧
      (e.sched.objs 1).allTokenIds.take 4 = [1, 2, 9, 9] := by
    decide +kernel
  exact ⟨e, steps_of_run before, freeHasher_collisionFree, rfl, facts⟩

end Engine

end Mimir
