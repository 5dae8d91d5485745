import Mimir.Kv.FreeCount

/-! Where a request's blocks stand: cached ones carry its hashes, those behind them are its own. -/

namespace Mimir

open Python List

variable {H : Type} {p p' : BlockPool H} {hashes : List H} {g i : Nat} {id : RequestId}
  {rest : BlockId → Nat} {label : RequestId → List H} {numTokens numComputedTokens : Int}
  {new : List BlockId} {b : BlockId}

section Lists

variable {p'' : BlockPool H} {hashes' : List H}
  {list : List BlockId} {numCached : Int}

/-- The first blocks of a list are cached under the request's hashes, the others are its own and unhashed. -/
structure Placed (p : BlockPool H) (hashes : List H) (g : Nat) (list : List BlockId)
    (numCached : Int) : Prop where
  nonneg : 0 ≤ numCached
  within : numCached ≤ list.length
  cached : ∀ (i : Nat) (b : BlockId), (i : Int) < numCached → list[i]? = some b →
    b = nullBlock ∨ ∃ h, hashes[i]? = some h ∧ (p.blocks b).blockHash = some (h, g)
  own : ∀ (i : Nat) (b : BlockId), numCached ≤ i → list[i]? = some b →
    b ≠ nullBlock ∧ (p.blocks b).blockHash = none ∧ (p.blocks b).refCnt = 1

/-- A change of the pool that spares some blocks: their hashes stay, and so do unhashed blocks with one user. -/
def Spares (p p' : BlockPool H) (spared : BlockId → Prop) : Prop :=
  ∀ b, b ≠ nullBlock → spared b →
    (∀ key, (p.blocks b).blockHash = some key → (p'.blocks b).blockHash = some key) ∧
    ((p.blocks b).blockHash = none → (p.blocks b).refCnt = 1 →
      (p'.blocks b).blockHash = none ∧ (p'.blocks b).refCnt = 1)

namespace Spares

variable {spared spared' : BlockId → Prop}

/-- Two changes that spare the same blocks. -/
theorem trans (first : Spares p p' spared) (second : Spares p' p'' spared) : Spares p p'' spared := by
  intro b real here
  obtain ⟨hash₁, own₁⟩ := first b real here
  obtain ⟨hash₂, own₂⟩ := second b real here
  refine ⟨fun key hashed => hash₂ key (hash₁ key hashed), fun unhashed single => ?_⟩
  obtain ⟨unhashed, single⟩ := own₁ unhashed single
  exact own₂ unhashed single

/-- Fewer blocks are spared as well. -/
theorem mono (spares : Spares p p' spared) (fewer : ∀ b, b ≠ nullBlock → spared' b → spared b) :
    Spares p p' spared' := fun b real here => spares b real (fewer b real here)

/-- Without a new hash, only users of hashed blocks may have changed. -/
theorem of_same (same : SameHashes p p')
    (counts : ∀ b, b ≠ nullBlock → (p.blocks b).blockHash = none →
      (p'.blocks b).refCnt = (p.blocks b).refCnt) : Spares p p' spared := by
  intro b real _
  refine ⟨fun key hashed => by rw [same.hash]; exact hashed, fun unhashed single => ?_⟩
  exact ⟨by rw [same.hash]; exact unhashed, by rw [counts b real unhashed]; exact single⟩

end Spares

namespace Placed

variable (placed : Placed p hashes g list numCached)

include placed

/-- A list is placed as before when its blocks are spared. -/
theorem frame (spares : Spares p p' (· ∈ list)) : Placed p' hashes g list numCached where
  nonneg := placed.nonneg
  within := placed.within
  cached i b below found := by
    rcases placed.cached i b below found with null | ⟨h, atIndex, hashed⟩
    · exact .inl null
    · by_cases null : b = nullBlock
      · exact .inl null
      · exact .inr ⟨h, atIndex, (spares b null (mem_of_getElem? found)).1 _ hashed⟩
  own i b beyond found := by
    obtain ⟨real, unhashed, single⟩ := placed.own i b beyond found
    exact ⟨real, (spares b real (mem_of_getElem? found)).2 unhashed single⟩

/-- More hashes behind the known ones. -/
theorem grown (more : hashes <+: hashes') : Placed p hashes' g list numCached where
  nonneg := placed.nonneg
  within := placed.within
  cached i b below found := by
    rcases placed.cached i b below found with null | ⟨h, atIndex, hashed⟩
    · exact .inl null
    · obtain ⟨tail, rfl⟩ := more
      refine .inr ⟨h, ?_, hashed⟩
      rw [getElem?_append_left (List.getElem?_eq_some_iff.mp atIndex).1]
      exact atIndex
  own := placed.own

omit placed in
/-- Hits stand where they were found. -/
theorem of_hits (hits : Hits p hashes g list) : Placed p hashes g list list.length where
  nonneg := Int.natCast_nonneg _
  within := le_rfl
  cached i b _ found := hits i b found
  own i b beyond found := by
    have below := (List.getElem?_eq_some_iff.mp found).1
    omega

/-- New blocks behind a list are the request's own. -/
theorem append
    (fresh : ∀ b ∈ new, b ≠ nullBlock ∧ (p.blocks b).blockHash = none ∧ (p.blocks b).refCnt = 1) :
    Placed p hashes g (list ++ new) numCached where
  nonneg := placed.nonneg
  within := by
    have within := placed.within
    rw [length_append]
    omega
  cached i b below found := by
    have within := placed.within
    rw [getElem?_append_left (by omega)] at found
    exact placed.cached i b below found
  own i b beyond found := by
    rw [getElem?_append] at found
    split at found
    · exact placed.own i b beyond found
    · exact fresh b (mem_of_getElem? found)

/-- A block among the request's own is not cached, and the other way round. -/
theorem apart
    (unhashed : (p.blocks b).blockHash = none) (real : b ≠ nullBlock) (found : list[i]? = some b) :
    numCached ≤ i := by
  by_contra below
  rcases placed.cached i b (by omega) found with null | ⟨h, _, hashed⟩
  · exact real null
  · rw [unhashed] at hashed
    cases hashed

end Placed

end Lists

namespace Manager

variable {m m' : Manager}

/-- The lists of all requests of a group, each placed by the request's hashes. -/
def AllPlaced (p : BlockPool H) (label : RequestId → List H) (m : Manager) : Prop :=
  ∀ id c, m.numCachedBlock.get? id = some c →
    Placed p (label id) m.kvCacheGroupId (m.blocksOf id) c

/-- Two lists of different requests hold a block that occurs as often as in both. -/
theorem count_add_le_occurrences (m : Manager) {other : RequestId} (apart : other ≠ id)
    (b : BlockId) : (m.blocksOf id).count b + (m.blocksOf other).count b ≤ m.occurrences b := by
  have whole := PyDict.total_eq_erase_add (fun blocks : List BlockId => blocks.count b)
    m.reqToBlocks id
  have part := PyDict.weightAt_le_total (fun blocks : List BlockId => blocks.count b)
    (m.reqToBlocks.erase id) other
  have same : (m.reqToBlocks.erase id).weightAt (fun blocks : List BlockId => blocks.count b) other =
      (m.blocksOf other).count b := by
    rw [← weightAt_eq_count]
    unfold PyDict.weightAt
    rw [PyDict.get?_erase_ne _ apart]
  rw [weightAt_eq_count] at whole
  rw [same] at part
  unfold occurrences
  omega

/-- A block that somebody else holds: another request of the group, or something outside of it. -/
def Foreign (m : Manager) (rest : BlockId → Nat) (id : RequestId) (b : BlockId) : Prop :=
  0 < rest b ∨ ∃ other, other ≠ id ∧ b ∈ m.blocksOf other

variable [DecidableEq H]

variable (books : Books p m rest)

include books

/-- A foreign block in the list of a request has two users at least. -/
theorem Books.shared (real : b ≠ nullBlock)
    (member : b ∈ m.blocksOf id) (foreign : m.Foreign rest id b) : (p.blocks b).refCnt ≠ 1 := by
  have counted := books.pool.counted b real
  have here := count_pos_iff.mpr member
  rcases foreign with outside | ⟨other, apart, listed⟩
  · have occurs := m.count_le_occurrences id b
    omega
  · have occurs := m.count_add_le_occurrences apart b
    have there := count_pos_iff.mpr listed
    omega

/-- A step of one group for a request: the books are right, others are spared, its list is placed. -/
structure Step (label : RequestId → List H) (id : RequestId) (rest : BlockId → Nat) (p : BlockPool H)
    (m : Manager) (p' : BlockPool H) (m' : Manager) : Prop where
  books : Books p' m' rest
  sole : Sole id m m'
  caching : p'.enableCaching = p.enableCaching
  null : (p.blocks nullBlock).blockHash = none → (p'.blocks nullBlock).blockHash = none
  spares : Spares p p' (m.Foreign rest id)
  own : ∀ c, m'.numCachedBlock.get? id = some c →
    Placed p' (label id) m'.kvCacheGroupId (m'.blocksOf id) c

omit books in
/-- After a step all lists of the group are placed. -/
theorem Step.allPlaced (step : Step label id rest p m p' m') (placed : m.AllPlaced p label) :
    m'.AllPlaced p' label := by
  intro other c found
  by_cases same : other = id
  · subst same
    exact step.own c found
  · rw [step.sole.cached other same] at found
    rw [step.sole.group, step.sole.blocks other same]
    exact (placed other c found).frame
      (step.spares.mono fun b _ member => .inr ⟨other, same, member⟩)

omit books in
/-- What is held outside is spared. -/
theorem Step.spares_rest (step : Step label id rest p m p' m') :
    Spares p p' (fun b => 0 < rest b) := step.spares.mono fun _ _ held => .inl held

variable {blocks : List BlockId}

omit [DecidableEq H] books in
/-- Blocks can be replaced below any index within the list. -/
theorem dropBelow_ok {n : Nat} (within : n ≤ blocks.length) :
    ∃ out, dropBelow n blocks = .ok out := by
  induction n generalizing blocks with
  | zero => exact ⟨_, rfl⟩
  | succ n ih =>
    unfold dropBelow
    rw [getElem?_eq_getElem (by omega)]
    dsimp only
    split
    · exact ⟨_, rfl⟩
    · have shorter : n ≤ (blocks.set n nullBlock).length := by
        rw [length_set]
        omega
      obtain ⟨⟨rest, more⟩, later⟩ := ih shorter
      rw [later]
      exact ⟨_, rfl⟩

/-- Removing skipped blocks is a step when only cached blocks are skipped. -/
theorem removeSkippedBlocks_step
    (tracked : m.Tracked) (kind : m.spec.kind ≠ .crossAttention) (placed : m.AllPlaced p label)
    (cached : ∀ c, m.numCachedBlock.get? id = some c → m.firstUsefulBlock id numComputedTokens ≤ c)
    (done : m.removeSkippedBlocks p id numComputedTokens = .ok (m', p')) :
    Step label id rest p m p' m' := by
  obtain ⟨books', same, skipped⟩ := books.removeSkippedBlocks done
  obtain ⟨blocks, removed, what, pool, lists, -⟩ := removeSkippedBlocks_cases done
  obtain ⟨first, -, -, entries⟩ := what.entries
  -- What is removed was cached.
  have hashed : ∀ b ∈ removed, (p.blocks b).blockHash ≠ none := by
    intro b member none
    obtain ⟨real, i, below, found⟩ := what.gone b member
    obtain ⟨c, known⟩ := PyDict.mem_keys_iff.mp
      (tracked kind id (ne_nil_of_mem (mem_of_getElem? found)))
    have beyond := (placed id c known).apart none real found
    have bound := cached c known
    omega
  have counts : ∀ b, b ≠ nullBlock → (p.blocks b).blockHash = none →
      (p'.blocks b).refCnt = (p.blocks b).refCnt := by
    intro b _ none
    rw [pool, show ((p.freeBlocks removed).blocks b).refCnt = _ from
        (PoolInv.decrementAll_spec p removed).2.2 b,
      count_eq_zero_of_not_mem fun member => hashed b member none]
    simp
  refine ⟨books', skipped.toSole, same.caching, fun none => by rw [same.hash]; exact none,
    .of_same same counts, fun c found => ?_⟩
  rw [skipped.counts] at found
  have spared : Spares p p' (· ∈ m.blocksOf id) := .of_same same counts
  have before := (placed id c found).frame spared
  have bound := cached c found
  rw [skipped.group]
  refine ⟨before.nonneg, by rw [skipped.length]; exact before.within, fun i b below entry => ?_,
    fun i b beyond entry => ?_⟩
  · rw [lists, entries i] at entry
    split at entry
    · exact .inl (Option.some.inj entry).symm
    · exact before.cached i b below entry
  · rw [lists, entries i, if_neg (by omega)] at entry
    exact before.own i b beyond entry

/-- Extending a list is a step. -/
theorem allocateNewBlocks_step (placed : m.AllPlaced p label)
    (done : m.allocateNewBlocks p id numTokens = .ok (new, m', p')) :
    Step label id rest p m p' m' := by
  obtain ⟨books', what, sole, counts, list, _, _⟩ := books.allocateNewBlocks done
  -- A block that is held is not taken.
  have spares : ∀ held : BlockId → Prop,
      (∀ b, b ≠ nullBlock → held b → 0 < m.occurrences b + rest b) → Spares p p' held := by
    intro held occurs b real here
    have fresh : b ∉ new := fun member => by
      have unused := what.unused b member
      have used := occurs b real here
      omega
    rw [what.hash b fresh, what.count b fresh]
    exact ⟨fun _ hashed => hashed, fun none single => ⟨none, single⟩⟩
  have own : ∀ other b, b ∈ m.blocksOf other → 0 < m.occurrences b := by
    intro other b member
    have occurs := m.count_le_occurrences other b
    have counted := count_pos_iff.mpr member
    omega
  have null : (p'.blocks nullBlock).blockHash = (p.blocks nullBlock).blockHash :=
    what.hash nullBlock fun member => what.real _ member rfl
  refine ⟨books', sole, what.caching, fun none => null.trans none, spares _ fun b _ foreign => ?_,
    fun c found => ?_⟩
  · rcases foreign with outside | ⟨other, _, member⟩
    · omega
    · have occurs := own other b member
      omega
  · rw [counts] at found
    rw [sole.group, list]
    refine ((placed id c found).frame (spares _ fun b _ member => ?_)).append fun b member => ?_
    · have occurs := own id b member
      omega
    · have real := what.real b member
      refine ⟨real, what.gone b member, ?_⟩
      have once := nodup_iff_count_le_one.mp what.nodup b
      have there := count_pos_iff.mpr member
      have unused := what.unused b member
      have now := books'.pool.counted b real
      have occurs := (books.allocateNewBlocks done).2.2.2.2.2.2 b
      omega

omit books in
/-- Unhashed blocks can be cached when there are hashes for all of them. -/
theorem cacheFullBlocksLoop_ok
    (nodup : blocks.Nodup) (unhashed : ∀ b ∈ blocks, (p.blocks b).blockHash = none)
    (enough : blocks.length ≤ hashes.length) :
    ∃ p', p.cacheFullBlocksLoop g blocks hashes = .ok p' := by
  induction blocks generalizing p hashes with
  | nil => exact ⟨p, by unfold BlockPool.cacheFullBlocksLoop; rfl⟩
  | cons b rest ih =>
    cases hashes with
    | nil => simp at enough
    | cons =>
      obtain ⟨fresh, nodup⟩ := nodup_cons.mp nodup
      unfold BlockPool.cacheFullBlocksLoop BlockPool.cacheFullBlock
      rw [require, if_pos (unhashed b (mem_cons_self ..))]
      refine ih nodup (fun x member => ?_) (Nat.le_of_succ_le_succ enough)
      -- The block just hashed does not come again.
      have other : x ≠ b := fun same => fresh (same ▸ member)
      show (Function.update p.blocks b _ x).blockHash = none
      rw [Function.update_of_ne other]
      exact unhashed x (mem_cons_of_mem _ member)

/-- What caching the blocks of a request asks for. -/
structure Cachable (m : Manager) (id : RequestId) (hashes : List H) (numTokens : Int) : Prop where
  kind : m.spec.kind ≠ .crossAttention
  known : id ∈ m.numCachedBlock.keys
  more : ∀ c, m.numCachedBlock.get? id = some c → c ≤ numTokens.fdiv m.blockSize
  within : numTokens.fdiv m.blockSize ≤ (m.blocksOf id).length
  hashed : numTokens.fdiv m.blockSize ≤ hashes.length

/-- The full blocks of a request that is placed can be cached. -/
theorem cacheBlocks_ok (placed : m.AllPlaced p label) (cachable : m.Cachable id hashes numTokens) :
    ∃ m' p', m.cacheBlocks p none id hashes numTokens = .ok (m', p') := by
  obtain ⟨c, found⟩ := PyDict.mem_keys_iff.mp cachable.known
  have here := placed id c found
  have more := cachable.more c found
  have within := cachable.within
  have enough := cachable.hashed
  have nonneg := here.nonneg
  obtain ⟨p₁, cached⟩ : ∃ p₁, p.cacheFullBlocks none hashes (m.blocksOf id) c
      (numTokens.fdiv m.blockSize) m.kvCacheGroupId = .ok p₁ := by
    unfold BlockPool.cacheFullBlocks
    split
    · exact ⟨p, rfl⟩
    · rw [require, if_pos enough]
      -- The blocks to cache are the request's own, so they are unhashed and differ.
      have entry : ∀ b ∈ pySlice (m.blocksOf id) c (numTokens.fdiv m.blockSize),
          b ≠ nullBlock ∧ (p.blocks b).blockHash = none := by
        intro b member
        obtain ⟨j, position⟩ := getElem?_of_mem member
        obtain ⟨_, inList⟩ := (getElem?_pySlice _ nonneg (by omega) j b).mp position
        have own := here.own _ b (by omega) inList
        exact ⟨own.1, own.2.1⟩
      suffices looped : ∃ p₁, p.cacheFullBlocksLoop m.kvCacheGroupId
          (pySlice (m.blocksOf id) c (numTokens.fdiv m.blockSize))
          (hashes.drop (sliceIndex hashes.length c)) = .ok p₁ by
        obtain ⟨p₁, looped⟩ := looped
        exact ⟨p₁, bind_eq_ok.mpr ⟨(), rfl, bind_eq_ok.mpr ⟨p₁, looped, rfl⟩⟩⟩
      refine cacheFullBlocksLoop_ok ?_ (fun b member => (entry b member).2) ?_
      · rw [nodup_iff_count_le_one]
        intro b
        by_cases member : b ∈ pySlice (m.blocksOf id) c (numTokens.fdiv m.blockSize)
        · refine le_trans (List.Sublist.count_le b ?_) (books.distinct id b (entry b member).1)
          exact (drop_sublist _ _).trans (take_sublist _ _)
        · rw [count_eq_zero_of_not_mem member]
          omega
      · obtain ⟨start, rfl⟩ := Int.eq_ofNat_of_zero_le nonneg
        obtain ⟨stop, full⟩ := Int.eq_ofNat_of_zero_le (by omega : 0 ≤ numTokens.fdiv m.blockSize)
        rw [full] at within enough ⊢
        rw [pySlice_nonneg, length_drop, length_take, length_drop, sliceIndex, if_neg (by omega)]
        omega
  unfold Manager.cacheBlocks
  rw [found]
  split
  · rename_i cross
    exact absurd cross cachable.kind
  · show ∃ m' p', (p.cacheFullBlocks _ _ _ _ _ _ >>= _) = _
    rw [cached]
    exact ⟨_, p₁, rfl⟩

/-- Caching the full blocks of a request is a step. -/
theorem cacheBlocks_step {event : Option Bool}
    (enabled : p.enableCaching = true) (placed : m.AllPlaced p label) (named : label id = hashes)
    (cachable : m.Cachable id hashes numTokens)
    (done : m.cacheBlocks p event id hashes numTokens = .ok (m', p')) :
    Step label id rest p m p' m' := by
  obtain ⟨books', stay, recached, c, found, what⟩ := books.cacheBlocks enabled done
  have counted := recached.count
  have here := placed id c found
  have more := cachable.more c found
  have within := cachable.within
  have nonneg := here.nonneg
  have list := recached.list
  rcases what with ⟨rfl, full⟩ | ⟨_, what⟩
  · -- There was nothing to cache.
    refine ⟨books', recached.toSole, rfl, fun none => none, fun _ _ _ => ⟨fun _ hashed => hashed,
      fun none single => ⟨none, single⟩⟩, fun c' found' => ?_⟩
    rw [counted, ← full] at found'
    cases found'
    rw [recached.group, list]
    exact here
  · have slice := what.slice nonneg (by omega)
    have null : (p'.blocks nullBlock).blockHash = (p.blocks nullBlock).blockHash :=
      slice.2 nullBlock fun i lower _ entry => (here.own i nullBlock lower entry).1 rfl
    refine ⟨books', recached.toSole, stay.caching, fun none => null.trans none,
      fun b real foreign => ⟨stay.hash b, fun none single => ?_⟩, fun c' found' => ?_⟩
    · -- A block of somebody else with one user is not in this list.
      have absent : b ∉ m.blocksOf id := fun member =>
        books.shared real member foreign single
      rw [what.count, slice.2 b fun i _ _ entry => absent (mem_of_getElem? entry)]
      exact ⟨none, single⟩
    · rw [counted] at found'
      cases found'
      rw [recached.group, list, named]
      rw [named] at here
      refine ⟨by omega, within, fun i b below entry => ?_, fun i b beyond entry => ?_⟩
      · by_cases old : (i : Int) < c
        · rcases here.cached i b old entry with null | ⟨h, atIndex, hashed⟩
          · exact .inl null
          · exact .inr ⟨h, atIndex, stay.hash b _ hashed⟩
        · exact .inr (slice.1 i b (by omega) below entry).1
      · obtain ⟨real, none, single⟩ := here.own i b (by omega) entry
        have outside : ∀ j : Nat, c ≤ j → (j : Int) < numTokens.fdiv m.blockSize →
            (m.blocksOf id)[j]? ≠ some b := by
          intro j _ below again
          have same := count_le_one_iff.mp (books.distinct id b real) _ _ entry again
          omega
        rw [slice.2 b outside, what.count]
        exact ⟨real, none, single⟩

omit [DecidableEq H] books in
/-- Saved hits are placed, and counted as cached. -/
theorem saveNewComputedBlocks_placed {hit : List BlockId}
    (kind : m.spec.kind ≠ .crossAttention) (placed : m.AllPlaced p label) (named : label id = hashes)
    (hits : Hits p hashes m.kvCacheGroupId hit) (done : m.saveNewComputedBlocks id hit = .ok m') :
    m'.AllPlaced p label ∧
      m'.numCachedBlock.get? id = some ((m.numCachedBlock.get? id).getD 0 + hit.length) := by
  rcases saveNewComputedBlocks_cases done with ⟨rfl, rfl, known⟩ | ⟨_, _, unknown, rfl⟩
  · obtain ⟨c, found⟩ := PyDict.mem_keys_iff.mp (known kind)
    exact ⟨placed, by simp [found]⟩
  · refine ⟨fun other c found => ?_, ?_⟩
    · by_cases same : other = id
      · -- The request starts with its hits.
        subst same
        have count : c = hit.length := by simpa using found.symm
        have list : (m.withBlocks other hit).blocksOf other = hit := by
          rw [blocksOf_withBlocks, if_pos rfl]
        show Placed p (label other) m.kvCacheGroupId ((m.withBlocks other hit).blocksOf other) c
        rw [list, count, named]
        exact .of_hits hits
      · have list : (m.withBlocks id hit).blocksOf other = m.blocksOf other := by
          rw [blocksOf_withBlocks, if_neg same]
        have found : (m.numCachedBlock.set id hit.length).get? other = some c := found
        rw [PyDict.get?_set_ne _ _ same] at found
        show Placed p (label other) m.kvCacheGroupId ((m.withBlocks id hit).blocksOf other) c
        rw [list]
        exact placed other c found
    · rw [PyDict.get?_eq_none_iff.mpr unknown]
      show (m.numCachedBlock.set id hit.length).get? id = _
      simp

/-- Giving all blocks of a request back is a step. -/
theorem free_step (id : RequestId) : Step label id rest p m (m.free p id).2 (m.free p id).1 := by
  obtain ⟨books', same, freed⟩ := books.free id
  refine ⟨books', freed.toSole, same.caching, fun none => by rw [same.hash]; exact none,
    fun b real foreign => ?_, fun c found => ?_⟩
  · refine ⟨fun key hashed => by rw [same.hash]; exact hashed, fun none single => ?_⟩
    -- A block of somebody else with one user is not in the list that is given back.
    have absent : b ∉ m.blocksOf id := fun member => books.shared real member foreign single
    have count : ((m.free p id).2.blocks b).refCnt = (p.blocks b).refCnt := by
      show ((p.decrementAll (m.blocksOf id).reverse).blocks b).refCnt = _
      rw [(PoolInv.decrementAll_spec p _).2.2, count_reverse, count_eq_zero_of_not_mem absent]
      simp
    exact ⟨by rw [same.hash]; exact none, by rw [count]; exact single⟩
  · rw [freed.uncached] at found
    cases found

end Manager

namespace KVCacheManager

variable {ms ms' : List Manager}

variable [DecidableEq H]

/-- What one manager spares, the lists of the other managers keep. -/
theorem allPlaced_of_step {m m₁ : Manager} {p₁ : BlockPool H}
    (step : Manager.Step label id (fun b => occurrences ms b + rest b) p m p₁ m₁)
    (placed : ∀ m ∈ ms, m.AllPlaced p label) : ∀ m ∈ ms, m.AllPlaced p₁ label := by
  intro m' member other c found
  refine (placed m' member other c found).frame (step.spares_rest.mono fun b _ listed => ?_)
  have occurs := occurrences_pos member listed
  omega

/-- If every manager's work is a step, all lists are placed after a sweep. -/
theorem Sweep.placed (id : RequestId) {step : Manager → BlockPool H → Manager → BlockPool H → Prop} {on : Bool}
    (sweep : Sweep step ms p ms' p')
    (keeps : ∀ m ∈ ms, ∀ p p' m' rest, p.enableCaching = on → Manager.Books p m rest →
      m.AllPlaced p label → step m p m' p' → Manager.Step label id rest p m p' m')
    (caching : p.enableCaching = on) (ledger : Ledger p ms rest)
    (placed : ∀ m ∈ ms, m.AllPlaced p label) :
    (∀ m ∈ ms', m.AllPlaced p' label) ∧ Spares p p' (fun b => 0 < rest b) ∧
      ((p.blocks nullBlock).blockHash = none → (p'.blocks nullBlock).blockHash = none) := by
  induction sweep generalizing rest with
  | nil =>
    exact ⟨placed, fun _ _ _ => ⟨fun _ hashed => hashed, fun none single => ⟨none, single⟩⟩,
      fun none => none⟩
  | cons first last ih =>
    rename_i m m₁ ms ms₁ p p₁ p₂
    have done := keeps m (mem_cons_self ..) p p₁ m₁ _ caching ledger.head
      (placed m (mem_cons_self ..)) first
    have others := allPlaced_of_step done fun m member => placed m (mem_cons_of_mem _ member)
    obtain ⟨placed', spares, null⟩ := ih
      (fun m member => keeps m (mem_cons_of_mem _ member)) (done.caching.trans caching)
      (Ledger.later done.books ledger.others) others
    refine ⟨fun m' member => ?_, ?_, fun none => null (done.null none)⟩
    · rcases mem_cons.mp member with rfl | later
      · -- The lists of the first manager are held outside of the others.
        intro other c found
        refine (done.allPlaced (placed m (mem_cons_self ..)) other c found).frame
          (spares.mono fun b _ listed => ?_)
        have occurs := m'.count_le_occurrences other b
        have counted := count_pos_iff.mpr listed
        omega
      · exact placed' m' later
    · refine (done.spares_rest.mono fun b _ held => ?_).trans (spares.mono fun b _ held => ?_)
      · omega
      · omega

omit [DecidableEq H] in
/-- Saved hits are placed in all groups, and counted as cached. -/
theorem saveNewComputedBlocks_placed {hits : List (List BlockId)}
    (kinds : ∀ m ∈ ms, m.spec.kind ≠ .crossAttention)
    (placed : ∀ m ∈ ms, m.AllPlaced p label) (named : label id = hashes)
    (aligned : AllHits p hashes (ms.map fun m => m.kvCacheGroupId) hits)
    (done : saveNewComputedBlocks id ms hits = .ok ms') :
    ∀ m' ∈ ms', m'.AllPlaced p label ∧ ∃ i m, ms[i]? = some m ∧ m'.layout = m.layout ∧
      m'.numCachedBlock.get? id =
        some ((m.numCachedBlock.get? id).getD 0 + ((hits.getD i []).length : Int)) := by
  induction ms generalizing hits ms' with
  | nil =>
    cases done
    intro m member
    cases member
  | cons m ms ih =>
    cases aligned with
    | cons here rest =>
      rename_i hit hits
      obtain ⟨m₁, first, tail⟩ := bind_eq_ok.mp done
      obtain ⟨ms₁, last, built⟩ := bind_eq_ok.mp tail
      cases built
      obtain ⟨placed₁, count⟩ := Manager.saveNewComputedBlocks_placed
        (kinds m (mem_cons_self ..)) (placed m (mem_cons_self ..)) named here first
      intro m' member
      rcases mem_cons.mp member with rfl | later
      · exact ⟨placed₁, 0, m, rfl, Manager.saveNewComputedBlocks_layout first, count⟩
      · obtain ⟨placed', i, old, found, layout, count⟩ :=
          ih (fun m member => kinds m (mem_cons_of_mem _ member))
            (fun m member => placed m (mem_cons_of_mem _ member)) rest last m' later
        exact ⟨placed', i + 1, old, found, layout, count⟩

/-- Extending the lists is a sweep. -/
theorem allocateNewBlocks_sweep {numEncoderTokens : Int} {news : List (List BlockId)}
    (done : allocateNewBlocks id numTokens numEncoderTokens ms p = .ok (news, ms', p')) :
    Sweep (fun m p m' p' => ∃ tokens new, m.allocateNewBlocks p id tokens = .ok (new, m', p'))
      ms p ms' p' := by
  induction ms generalizing p ms' news with
  | nil =>
    cases done
    exact .nil _
  | cons m ms ih =>
    obtain ⟨⟨new, m₁, p₁⟩, first, tail⟩ := bind_eq_ok.mp done
    obtain ⟨⟨news₁, ms₁, p₂⟩, last, built⟩ := bind_eq_ok.mp tail
    cases built
    exact .cons ⟨_, new, first⟩ (ih last)

omit [DecidableEq H] in
/-- Giving the blocks of a request back is a sweep. -/
theorem freeAll_sweep (id : RequestId) (ms : List Manager) (p : BlockPool H) :
    Sweep (fun m p m' p' => m' = (m.free p id).1 ∧ p' = (m.free p id).2)
      ms p (freeAll id ms p).1 (freeAll id ms p).2 := by
  induction ms generalizing p with
  | nil => exact .nil p
  | cons m ms ih => exact .cons ⟨rfl, rfl⟩ (ih _)

/-- Caching succeeds in all groups of a request that is placed, and leaves the free queue alone. -/
theorem cacheAll_ok (caching : p.enableCaching = true)
    (ledger : Ledger p ms rest) (placed : ∀ m ∈ ms, m.AllPlaced p label) (named : label id = hashes)
    (cachable : ∀ m ∈ ms, m.Cachable id hashes numTokens) :
    ∃ ms' p', cacheAll none id hashes numTokens ms p = .ok (ms', p') ∧
      p'.freeBlockQueue = p.freeBlockQueue := by
  induction ms generalizing p rest with
  | nil => exact ⟨[], p, rfl, rfl⟩
  | cons m ms ih =>
    have here := placed m (mem_cons_self ..)
    have fits := cachable m (mem_cons_self ..)
    obtain ⟨m₁, p₁, first⟩ := Manager.cacheBlocks_ok ledger.head here fits
    have step := Manager.cacheBlocks_step ledger.head caching here named fits first
    have queue : p₁.freeBlockQueue = p.freeBlockQueue := by
      obtain ⟨_, _, _, _, _, what⟩ := ledger.head.cacheBlocks caching first
      rcases what with ⟨rfl, _⟩ | ⟨_, what⟩
      · rfl
      · exact what.queue
    obtain ⟨ms₁, p₂, last, queue'⟩ := ih (step.caching.trans caching)
      (Ledger.later step.books ledger.others)
      (allPlaced_of_step step fun m member => placed m (mem_cons_of_mem _ member))
      fun m member => cachable m (mem_cons_of_mem _ member)
    refine ⟨m₁ :: ms₁, p₂, ?_, queue'.trans queue⟩
    unfold cacheAll
    rw [first]
    show (cacheAll none id hashes numTokens ms p₁ >>= _) = _
    rw [last]
    rfl

omit [DecidableEq H] in
/-- Skipped blocks can be removed when every list reaches the first useful block. -/
theorem removeSkippedBlocks_ok
    (covered : ∀ m ∈ ms, m.firstUsefulBlock id numComputedTokens ≤ (m.blocksOf id).length) :
    ∃ ms' p', removeSkippedBlocks id numComputedTokens ms p = .ok (ms', p') := by
  induction ms generalizing p with
  | nil => exact ⟨[], p, rfl⟩
  | cons m ms ih =>
    have here := covered m (mem_cons_self ..)
    obtain ⟨m₁, p₁, first⟩ : ∃ m₁ p₁, m.removeSkippedBlocks p id numComputedTokens =
        .ok (m₁, p₁) := by
      have within : (m.firstUsefulBlock id numComputedTokens).toNat ≤ (m.blocksOf id).length := by
        omega
      obtain ⟨⟨blocks, removed⟩, dropped⟩ := Manager.dropBelow_ok within
      unfold Manager.removeSkippedBlocks
      split
      · rw [dropped]
        exact ⟨_, _, rfl⟩
      · rw [dropped]
        exact ⟨_, _, rfl⟩
      · exact ⟨m, p, rfl⟩
    obtain ⟨ms₁, p₂, last⟩ := ih (p := p₁) fun m member =>
      covered m (mem_cons_of_mem _ member)
    refine ⟨m₁ :: ms₁, p₂, ?_⟩
    unfold removeSkippedBlocks
    rw [first]
    show (removeSkippedBlocks id numComputedTokens ms p₁ >>= _) = _
    rw [last]
    rfl

end KVCacheManager

end Mimir
