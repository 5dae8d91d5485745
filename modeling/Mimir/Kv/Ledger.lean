import Mimir.Kv.HitLaws
import Mimir.Kv.ManagerCalls

/-! The block lists of all requests against the pool: who holds which block, and how often. -/

namespace Mimir

open Python KVCacheManager List

variable {H : Type} {p p' : BlockPool H} {m : Manager} {id : RequestId} {rest : BlockId → Nat}
  {numTokens numComputedTokens : Int} {ms ms' : List Manager} {blocks : List BlockId} {hashes : List H}
  {b : BlockId} {event : Option Bool}

section Pools

variable {p'' : BlockPool H}

/-- Two pools that agree on the hashes of the blocks in use. -/
structure HeldKept (p p' : BlockPool H) (held : BlockId → Nat) : Prop where
  size : p'.numGpuBlocks = p.numGpuBlocks
  caching : p'.enableCaching = p.enableCaching
  hash : ∀ b, b ≠ nullBlock → 0 < held b → (p'.blocks b).blockHash = (p.blocks b).blockHash

/-- A pool in which every hash stayed where it was. -/
structure HashesStay (p p' : BlockPool H) : Prop where
  size : p'.numGpuBlocks = p.numGpuBlocks
  caching : p'.enableCaching = p.enableCaching
  hash : ∀ b key, (p.blocks b).blockHash = some key → (p'.blocks b).blockHash = some key

/-- Hashes that stay twice stay. -/
theorem HashesStay.trans (first : HashesStay p p') (second : HashesStay p' p'') : HashesStay p p'' where
  size := second.size.trans first.size
  caching := second.caching.trans first.caching
  hash b key hashed := second.hash b key (first.hash b key hashed)

/-- Caching gives hashes to blocks without one, so every hash stays. -/
theorem PoolInv.Hashed.stay [DecidableEq H] {groupId : Nat}
    (what : PoolInv.Hashed p p' groupId blocks hashes) : HashesStay p p' where
  size := what.size
  caching := what.caching
  hash b key hashed := by
    have fresh : b ∉ blocks := fun member => by
      rw [what.before b member] at hashed
      cases hashed
    rw [what.hash b fresh]
    exact hashed

end Pools

namespace Manager

/-- How often a block occurs in the block lists of a manager. -/
def occurrences (m : Manager) (b : BlockId) : Nat :=
  m.reqToBlocks.total fun blocks => blocks.count b

/-- No block list repeats a real block. -/
def Distinct (m : Manager) : Prop :=
  ∀ id b, b ≠ nullBlock → (m.blocksOf id).count b ≤ 1

/-- Two states of one manager that differ for one request only. -/
structure Sole (id : RequestId) (m m' : Manager) : Prop where
  spec : m'.spec = m.spec
  blockSize : m'.blockSize = m.blockSize
  group : m'.kvCacheGroupId = m.kvCacheGroupId
  blocks : ∀ other, other ≠ id → m'.blocksOf other = m.blocksOf other
  cached : ∀ other, other ≠ id → m'.numCachedBlock.get? other = m.numCachedBlock.get? other

variable {m' m'' : Manager}

theorem Sole.refl (id : RequestId) (m : Manager) : Sole id m m :=
  ⟨rfl, rfl, rfl, fun _ _ => rfl, fun _ _ => rfl⟩

theorem Sole.trans (first : Sole id m m') (second : Sole id m' m'') : Sole id m m'' where
  spec := second.spec.trans first.spec
  blockSize := second.blockSize.trans first.blockSize
  group := second.group.trans first.group
  blocks other apart := (second.blocks other apart).trans (first.blocks other apart)
  cached other apart := (second.cached other apart).trans (first.cached other apart)

/-- A request's share of the occurrences is what its own list contains. -/
theorem weightAt_eq_count (m : Manager) (id : RequestId) (b : BlockId) :
    m.reqToBlocks.weightAt (fun blocks => blocks.count b) id = (m.blocksOf id).count b := by
  unfold PyDict.weightAt blocksOf
  cases m.reqToBlocks.get? id <;> rfl

/-- What one list contains occurs. -/
theorem count_le_occurrences (m : Manager) (id : RequestId) (b : BlockId) :
    (m.blocksOf id).count b ≤ m.occurrences b := by
  rw [← weightAt_eq_count]
  exact PyDict.weightAt_le_total _ _ _

/-- In empty lists nothing occurs. -/
theorem occurrences_eq_zero (m : Manager) (empty : ∀ id, m.blocksOf id = []) (b : BlockId) :
    m.occurrences b = 0 := by
  -- Every item of the dictionary is the list of some request.
  unfold occurrences PyDict.total
  apply sum_eq_zero
  intro n member
  obtain ⟨⟨id, blocks⟩, item, rfl⟩ := mem_map.mp member
  have list := empty id
  unfold blocksOf at list
  rw [PyDict.get?_eq_some_iff.mpr item] at list
  change blocks = [] at list
  simp [list]

/-- Replacing a list moves the occurrences by the difference of the lists. -/
theorem occurrences_withBlocks (m : Manager) (id : RequestId) (blocks : List BlockId) (b : BlockId) :
    (m.withBlocks id blocks).occurrences b + (m.blocksOf id).count b =
      m.occurrences b + blocks.count b := by
  have before := PyDict.total_eq_erase_add (fun list : List BlockId => list.count b) m.reqToBlocks id
  have after := PyDict.total_set (fun list : List BlockId => list.count b) m.reqToBlocks id blocks
  rw [weightAt_eq_count] at before
  show (m.reqToBlocks.set id blocks).total _ + _ = m.reqToBlocks.total _ + _
  omega

/-- Replacing the list of one request concerns that request only. -/
theorem Sole.withBlocks (m : Manager) (id : RequestId) (blocks : List BlockId) :
    Sole id m (m.withBlocks id blocks) := by
  refine ⟨rfl, rfl, rfl, fun other apart => ?_, fun _ _ => rfl⟩
  rw [blocksOf_withBlocks, if_neg apart]

/-- Replacing a list by one that repeats no real block. -/
theorem Distinct.withBlocks (distinct : m.Distinct)
    (once : ∀ b, b ≠ nullBlock → blocks.count b ≤ 1) : (m.withBlocks id blocks).Distinct := by
  intro other b real
  rw [blocksOf_withBlocks]
  split
  · exact once b real
  · exact distinct other b real

/-- A manager after all blocks of a request are given back. -/
structure Freed (id : RequestId) (m m' : Manager) : Prop extends Sole id m m' where
  noBlocks : m'.blocksOf id = []
  uncached : m'.numCachedBlock.get? id = none

/-- A manager after skipped blocks of a request are given back. -/
structure Skipped (id : RequestId) (numComputedTokens : Int) (m m' : Manager) : Prop
    extends Sole id m m' where
  counts : m'.numCachedBlock = m.numCachedBlock
  dropped : ∃ removed, Dropped (m.firstUsefulBlock id numComputedTokens).toNat (m.blocksOf id)
    (m'.blocksOf id) removed

variable {n : Int}

/-- Skipped blocks leave placeholders behind. -/
theorem Skipped.length (skipped : Skipped id n m m') :
    (m'.blocksOf id).length = (m.blocksOf id).length := by
  obtain ⟨_, what⟩ := skipped.dropped
  exact what.length

/-- No block is added. -/
theorem Skipped.kept (skipped : Skipped id n m m')
    (member : b ∈ m'.blocksOf id) (real : b ≠ nullBlock) : b ∈ m.blocksOf id := by
  obtain ⟨removed, what⟩ := skipped.dropped
  have counted := count_pos_iff.mpr member
  have split := what.split b real
  exact count_pos_iff.mp (by omega)

/-- A manager after the cache hits of a request are saved. -/
structure Saved (id : RequestId) (m m' : Manager) : Prop extends Sole id m m' where
  known : m.spec.kind ≠ .crossAttention → id ∈ m'.numCachedBlock.keys

/-- A manager whose list for a request got new blocks behind the old ones. -/
structure Extended (id : RequestId) (numTokens numEncoderTokens : Int) (m m' : Manager) : Prop
    extends Sole id m m' where
  counts : m'.numCachedBlock = m.numCachedBlock
  grown : ∃ new, (∀ b ∈ new, b ≠ nullBlock) ∧ m'.blocksOf id = m.blocksOf id ++ new
  length : ((m'.blocksOf id).length : Int) =
    max ((m.blocksOf id).length : Int) (m.required numTokens numEncoderTokens)

/-- A manager after full blocks of a request are cached. -/
structure Recached (id : RequestId) (numTokens : Int) (m m' : Manager) : Prop
    extends Sole id m m' where
  lists : m'.reqToBlocks = m.reqToBlocks
  count : m'.numCachedBlock.get? id = some (numTokens.fdiv m.blockSize)

/-- A count is kept for the request. -/
theorem Recached.known (recached : Recached id n m m') : id ∈ m'.numCachedBlock.keys :=
  PyDict.mem_keys_iff.mpr ⟨_, recached.count⟩

/-- The list stays. -/
theorem Recached.list (recached : Recached id n m m') : m'.blocksOf id = m.blocksOf id := by
  unfold blocksOf
  rw [recached.lists]

section Books

variable [DecidableEq H]

/-- The books of one manager, with what is held outside of it. -/
structure Books (p : BlockPool H) (m : Manager) (rest : BlockId → Nat) : Prop where
  pool : PoolInv p fun b => m.occurrences b + rest b
  distinct : m.Distinct

variable (books : Books p m rest)

include books

/-- What the lists hold lies within the pool. -/
theorem Books.below (member : b ∈ m.blocksOf id) : b < p.numGpuBlocks := by
  by_cases real : b = nullBlock
  · rw [real]; exact books.pool.positive
  · apply books.pool.bounded b real
    have counted := count_pos_iff.mpr member
    have occurs := m.count_le_occurrences id b
    omega

/-- Freeing a request empties its list and gives the blocks back. -/
theorem Books.free (id : RequestId) :
    Books (m.free p id).2 (m.free p id).1 rest ∧ SameHashes p (m.free p id).2 ∧
      Freed id m (m.free p id).1 := by
  have others : ∀ other, (m.free p id).1.blocksOf other =
      if other = id then [] else m.blocksOf other := by
    intro other
    show ((m.reqToBlocks.erase id).get? other).getD [] = _
    rw [PyDict.get?_erase]
    split <;> rfl
  have split : ∀ b, m.occurrences b = (m.free p id).1.occurrences b + (m.blocksOf id).count b := by
    intro b
    have before := PyDict.total_eq_erase_add (fun list : List BlockId => list.count b) m.reqToBlocks id
    rw [weightAt_eq_count] at before
    exact before
  obtain ⟨pool, kept⟩ := books.pool.freeBlocks (m.blocksOf id).reverse
    (fun b => (m.free p id).1.occurrences b + rest b)
    (fun b real => by rw [count_reverse]; exact books.distinct id b real)
    (fun b real => by rw [count_reverse]; have := split b; omega)
  refine ⟨⟨pool, ?_⟩, kept, ⟨⟨rfl, rfl, rfl, fun other apart => ?_, fun other apart => ?_⟩, ?_, ?_⟩⟩
  · intro other b real
    rw [others]
    split
    · simp
    · exact books.distinct other b real
  · rw [others, if_neg apart]
  · exact PyDict.get?_erase_ne _ apart
  · rw [others, if_pos rfl]
  · exact PyDict.get?_erase_self _ _

/-- Removing skipped blocks gives them back. -/
theorem Books.removeSkippedBlocks (done : m.removeSkippedBlocks p id numComputedTokens = .ok (m', p')) :
    Books p' m' rest ∧ SameHashes p p' ∧ Skipped id numComputedTokens m m' := by
  obtain ⟨blocks, removed, what, rfl, list, state⟩ := removeSkippedBlocks_cases done
  have bounds : ∀ b, b ≠ nullBlock → blocks.count b ≤ 1 ∧ removed.count b ≤ 1 := by
    intro b real
    have split := what.split b real
    have once := books.distinct id b real
    omega
  have moved : ∀ b, m'.occurrences b + (m.blocksOf id).count b =
      m.occurrences b + blocks.count b := by
    intro b
    rcases state with rfl | rfl
    · exact m.occurrences_withBlocks id blocks b
    · rw [list]
  have same : Sole id m m' ∧ m'.numCachedBlock = m.numCachedBlock ∧ m'.Distinct := by
    rcases state with rfl | rfl
    · exact ⟨Sole.withBlocks m id blocks, rfl,
        books.distinct.withBlocks fun b real => (bounds b real).1⟩
    · exact ⟨.refl _ _, rfl, books.distinct⟩
  obtain ⟨pool, kept⟩ := books.pool.freeBlocks removed (fun b => m'.occurrences b + rest b)
    (fun b real => (bounds b real).2)
    (fun b real => by
      have := moved b
      have split := what.split b real
      omega)
  exact ⟨⟨pool, same.2.2⟩, kept, same.1, same.2.1, removed, by rw [list]; exact what⟩

omit books in
/-- Saving cache hits turns touched blocks into blocks of the request's list. -/
theorem Books.saveNewComputedBlocks {hits : List BlockId}
    (books : Books p m fun b => hits.count b + rest b)
    (once : ∀ b, b ≠ nullBlock → hits.count b ≤ 1)
    (done : m.saveNewComputedBlocks id hits = .ok m') :
    Books p m' rest ∧ Saved id m m' ∧ m'.blocksOf id = m.blocksOf id ++ hits ∧
      ∀ b, m'.occurrences b = m.occurrences b + hits.count b := by
  have list := saveNewComputedBlocks_list done
  rcases saveNewComputedBlocks_cases done with ⟨rfl, rfl, known⟩ | ⟨_, empty, _, rfl⟩
  · -- Without hits nothing is saved, and nothing outside was touched.
    exact ⟨⟨books.pool.congr fun b _ => by simp, books.distinct⟩, ⟨.refl _ _, known⟩, list, by simp⟩
  · have moved : ∀ b, (m.withBlocks id hits).occurrences b = m.occurrences b + hits.count b := by
      intro b
      have all := m.occurrences_withBlocks id hits b
      rw [empty, count_nil] at all
      omega
    refine ⟨⟨books.pool.congr fun b _ => ?_, books.distinct.withBlocks once⟩,
      ⟨⟨rfl, rfl, rfl, (Sole.withBlocks m id hits).blocks, fun other apart =>
        PyDict.get?_set_ne _ _ apart⟩, fun _ => PyDict.mem_keys_set.mpr (.inl rfl)⟩, list, moved⟩
    show (m.withBlocks id hits).occurrences b + rest b = _
    rw [moved]
    omega

/-- Extending a list takes blocks nobody held. -/
theorem Books.allocateNewBlocks {new : List BlockId}
    (done : m.allocateNewBlocks p id numTokens = .ok (new, m', p')) :
    Books p' m' rest ∧ PoolInv.NewBlocks p p' (fun b => m.occurrences b + rest b) new ∧
      Sole id m m' ∧ m'.numCachedBlock = m.numCachedBlock ∧
      m'.blocksOf id = m.blocksOf id ++ new ∧
      ((m.blocksOf id).length + new.length : Int) =
        max ((m.blocksOf id).length : Int) (cdiv (m.tokensNeeded numTokens) m.blockSize) ∧
      ∀ b, m'.occurrences b = m.occurrences b + new.count b := by
  rcases allocateNewBlocks_cases done with ⟨enough, rfl, rfl, rfl⟩ | ⟨short, got, rfl⟩
  · refine ⟨books, ?_, .refl _ _, rfl, by simp, ?_, by simp⟩
    swap
    · rw [max_eq_left enough]
      simp
    exact ⟨nodup_nil, fun _ member => (by cases member), fun _ member => (by cases member), rfl,
      rfl, fun _ member => (by cases member), fun _ _ => rfl, fun _ _ => rfl⟩
  · obtain ⟨pool, what, length⟩ := books.pool.getNewBlocks got
    have moved : ∀ b, (m.withBlocks id (m.blocksOf id ++ new)).occurrences b =
        m.occurrences b + new.count b := by
      intro b
      have all := m.occurrences_withBlocks id (m.blocksOf id ++ new) b
      rw [count_append] at all
      omega
    refine ⟨⟨pool.congr fun b _ => ?_, books.distinct.withBlocks fun b real => ?_⟩, what,
      Sole.withBlocks m id _, rfl, ?_, ?_, moved⟩
    · rw [moved]
      omega
    · rw [count_append]
      -- A taken block was in no list, so not in this one.
      by_cases member : b ∈ new
      · have unused := what.unused b member
        have occurs := m.count_le_occurrences id b
        have single := nodup_iff_count_le_one.mp what.nodup b
        omega
      · rw [count_eq_zero_of_not_mem member]
        exact books.distinct id b real
    · rw [blocksOf_withBlocks, if_pos rfl]
    · rw [length, max_eq_right short.le]
      omega

/-- Caching the full blocks of a request hashes some of its unhashed blocks. -/
theorem Books.cacheBlocks (enabled : p.enableCaching = true)
    (done : m.cacheBlocks p event id hashes numTokens = .ok (m', p')) :
    Books p' m' rest ∧ HashesStay p p' ∧ Recached id numTokens m m' ∧
      ∃ numCached, m.numCachedBlock.get? id = some numCached ∧
        (p' = p ∧ numCached = numTokens.fdiv m.blockSize ∨
          numTokens.fdiv m.blockSize ≤ hashes.length ∧
          PoolInv.Hashed p p' m.kvCacheGroupId
            (pySlice (m.blocksOf id) numCached (numTokens.fdiv m.blockSize))
            (hashes.drop (sliceIndex hashes.length numCached))) := by
  obtain ⟨numCached, found, cached, rfl⟩ := cacheBlocks_cases done
  obtain ⟨pool, what⟩ := books.pool.cacheFullBlocks enabled (fun _ member => books.below member) cached
  refine ⟨⟨pool, books.distinct⟩, ?_, ⟨⟨rfl, rfl, rfl, fun _ _ => rfl, fun other apart =>
    PyDict.get?_set_ne _ _ apart⟩, rfl, PyDict.get?_set_self _ _ _⟩, numCached, found, what⟩
  rcases what with ⟨rfl, _⟩ | ⟨_, hashed⟩
  · exact ⟨rfl, rfl, fun _ _ hashed => hashed⟩
  · exact hashed.stay

end Books

end Manager

/-- How often a block occurs in the block lists of some managers. -/
def occurrences (ms : List Manager) (b : BlockId) : Nat :=
  (ms.map fun m => m.occurrences b).sum

@[simp] theorem occurrences_cons (m : Manager) (ms : List Manager) (b : BlockId) :
    occurrences (m :: ms) b = m.occurrences b + occurrences ms b := by
  simp [occurrences]

/-- In empty lists nothing occurs. -/
theorem occurrences_eq_zero (empty : ∀ m ∈ ms, ∀ id, m.blocksOf id = [])
    (b : BlockId) : occurrences ms b = 0 := by
  induction ms with
  | nil => rfl
  | cons m ms ih =>
    rw [occurrences_cons, ih fun m member => empty m (mem_cons_of_mem _ member),
      m.occurrences_eq_zero (empty m (mem_cons_self ..))]

/-- All blocks that a request has in some groups. -/
def listed (ms : List Manager) (id : RequestId) : List BlockId :=
  ms.flatMap fun m => m.blocksOf id

/-- What a list contains occurs. -/
theorem occurrences_pos (known : m ∈ ms) (member : b ∈ m.blocksOf id) : 0 < occurrences ms b := by
  induction ms with
  | nil => cases known
  | cons first others ih =>
    rw [occurrences_cons]
    rcases mem_cons.mp known with rfl | later
    · have counted := count_pos_iff.mpr member
      have occurs := m.count_le_occurrences id b
      omega
    · have := ih later
      omega

namespace KVCacheManager

/-- The managers of all groups work one after the other on one pool. -/
inductive Sweep (step : Manager → BlockPool H → Manager → BlockPool H → Prop) :
    List Manager → BlockPool H → List Manager → BlockPool H → Prop
  | nil (p : BlockPool H) : Sweep step [] p [] p
  | cons {m m₁ : Manager} {ms ms₁ : List Manager} {p p₁ p₂ : BlockPool H}
      (first : step m p m₁ p₁) (last : Sweep step ms p₁ ms₁ p₂) :
      Sweep step (m :: ms) p (m₁ :: ms₁) p₂

/-- Removing skipped blocks is a sweep. -/
theorem removeSkippedBlocks_sweep (done : removeSkippedBlocks id numComputedTokens ms p = .ok (ms', p')) :
    Sweep (fun m p m' p' => m.removeSkippedBlocks p id numComputedTokens = .ok (m', p'))
      ms p ms' p' := by
  induction ms generalizing p ms' with
  | nil =>
    cases done
    exact .nil _
  | cons m ms ih =>
    obtain ⟨⟨m₁, p₁⟩, first, tail⟩ := bind_eq_ok.mp done
    obtain ⟨⟨ms₁, p₂⟩, last, built⟩ := bind_eq_ok.mp tail
    cases built
    exact .cons first (ih last)

/-- Caching the full blocks is a sweep. -/
theorem cacheAll_sweep [DecidableEq H]
    (done : cacheAll event id hashes numTokens ms p = .ok (ms', p')) :
    Sweep (fun m p m' p' => m.cacheBlocks p event id hashes numTokens = .ok (m', p')) ms p ms' p' := by
  induction ms generalizing p ms' with
  | nil =>
    cases done
    exact .nil _
  | cons m ms ih =>
    obtain ⟨⟨m₁, p₁⟩, first, tail⟩ := bind_eq_ok.mp done
    obtain ⟨⟨ms₁, p₂⟩, last, built⟩ := bind_eq_ok.mp tail
    cases built
    exact .cons first (ih last)

end KVCacheManager

section Ledger

variable [DecidableEq H]

/-- The books of all managers, with what is held outside of them. -/
structure Ledger (p : BlockPool H) (ms : List Manager) (rest : BlockId → Nat) : Prop where
  pool : PoolInv p fun b => occurrences ms b + rest b
  distinct : ∀ m ∈ ms, m.Distinct

namespace Ledger

/-- The books of the first manager. -/
theorem head (ledger : Ledger p (m :: ms) rest) :
    Manager.Books p m fun b => occurrences ms b + rest b where
  pool := ledger.pool.congr fun b _ => by rw [occurrences_cons]; omega
  distinct := ledger.distinct m (mem_cons_self ..)

/-- The books of the other managers, once those of the first one are closed. -/
theorem later (books : Manager.Books p m fun b => occurrences ms b + rest b)
    (others : ∀ m ∈ ms, m.Distinct) : Ledger p ms fun b => m.occurrences b + rest b where
  pool := books.pool.congr fun b _ => by omega
  distinct := others

/-- The books of one more manager. -/
theorem cons (ledger : Ledger p ms fun b => m.occurrences b + rest b)
    (distinct : m.Distinct) : Ledger p (m :: ms) rest where
  pool := ledger.pool.congr fun b _ => by rw [occurrences_cons]; omega
  distinct m' member := by
    rcases mem_cons.mp member with rfl | later
    · exact distinct
    · exact ledger.distinct m' later

/-- The managers behind the first one. -/
theorem others (ledger : Ledger p (m :: ms) rest) : ∀ m ∈ ms, m.Distinct :=
  fun m' member => ledger.distinct m' (mem_cons_of_mem _ member)

variable (ledger : Ledger p ms rest)

include ledger

/-- Only how often real blocks are held outside matters. -/
theorem congr {rest' : BlockId → Nat}
    (same : ∀ b, b ≠ nullBlock → rest' b = rest b) : Ledger p ms rest' where
  pool := ledger.pool.congr fun b real => by rw [same b real]
  distinct := ledger.distinct

/-- Freeing a request in every group. -/
theorem freeAll (id : RequestId) :
    Ledger (freeAll id ms p).2 (freeAll id ms p).1 rest ∧
      SameHashes p (freeAll id ms p).2 ∧
      List.Forall₂ (Manager.Freed id) ms (freeAll id ms p).1 := by
  -- Each manager closes its books before the next one starts.
  induction ms generalizing p rest with
  | nil => exact ⟨ledger, .refl p, .nil⟩
  | cons m ms ih =>
    obtain ⟨books, kept, freed⟩ := ledger.head.free id
    obtain ⟨others, kept', freed'⟩ := ih (Ledger.later books ledger.others)
    exact ⟨Ledger.cons others books.distinct, kept.trans kept', .cons freed freed'⟩

/-- Removing the skipped blocks of a request in every group. -/
theorem removeSkippedBlocks (done : removeSkippedBlocks id numComputedTokens ms p = .ok (ms', p')) :
    Ledger p' ms' rest ∧ SameHashes p p' ∧ List.Forall₂ (Manager.Skipped id numComputedTokens) ms ms' := by
  have sweep := removeSkippedBlocks_sweep done
  clear done
  induction sweep generalizing rest with
  | nil => exact ⟨ledger, .refl _, .nil⟩
  | cons first _ ih =>
    obtain ⟨books, kept, skipped⟩ := ledger.head.removeSkippedBlocks first
    obtain ⟨others, kept', skipped'⟩ := ih (Ledger.later books ledger.others)
    exact ⟨Ledger.cons others books.distinct, kept.trans kept', .cons skipped skipped'⟩

omit ledger in
/-- Saving the cache hits of a request in every group. -/
theorem saveNewComputedBlocks {hits : List (List BlockId)}
    (ledger : Ledger p ms fun b => hits.flatten.count b + rest b) (short : hits.length ≤ ms.length)
    (once : ∀ hit ∈ hits, ∀ b, b ≠ nullBlock → hit.count b ≤ 1)
    (done : saveNewComputedBlocks id ms hits = .ok ms') :
    Ledger p ms' rest ∧ List.Forall₂ (Manager.Saved id) ms ms' ∧
      ∀ b ∈ listed ms' id, b ∈ listed ms id ∨ b ∈ hits.flatten := by
  induction ms generalizing hits rest ms' with
  | nil =>
    cases done
    have none : hits = [] := length_eq_zero_iff.mp (Nat.le_zero.mp short)
    subst none
    exact ⟨ledger.congr fun b _ => by simp, .nil, fun _ member => .inl member⟩
  | cons m ms ih =>
    obtain ⟨m₁, first, tail⟩ := bind_eq_ok.mp done
    obtain ⟨ms₁, last, built⟩ := bind_eq_ok.mp tail
    cases built
    have counts : ∀ b, hits.flatten.count b = (hits.headD []).count b + hits.tail.flatten.count b := by
      intro b
      cases hits with
      | nil => rfl
      | cons => simp
    have here : ∀ b, b ≠ nullBlock → (hits.headD []).count b ≤ 1 := by
      intro b real
      cases hits with
      | nil => simp
      | cons hit => exact once hit (mem_cons_self ..) b real
    have start : Manager.Books p m fun b =>
        (hits.headD []).count b + (hits.tail.flatten.count b + occurrences ms b + rest b) :=
      ⟨ledger.head.pool.congr fun b _ => by rw [counts]; omega, ledger.head.distinct⟩
    obtain ⟨books, saved, list, _⟩ := start.saveNewComputedBlocks here first
    have next : Ledger p ms fun b => hits.tail.flatten.count b + (m₁.occurrences b + rest b) :=
      ⟨books.pool.congr fun b _ => by omega, ledger.others⟩
    obtain ⟨others, saved', grown⟩ := ih next
      (by rw [length_tail]; simp only [length_cons] at short; omega)
      (fun hit member => once hit (mem_of_mem_tail member)) last
    refine ⟨Ledger.cons others books.distinct, .cons saved saved', fun b member => ?_⟩
    have parts : ∀ x, x ∈ hits.flatten ↔ x ∈ hits.headD [] ∨ x ∈ hits.tail.flatten := by
      intro x
      cases hits <;> simp
    simp only [listed, flatMap_cons, mem_append, parts, list] at member ⊢
    rcases member with (old | now) | later
    · exact .inl (.inl old)
    · exact .inr (.inl now)
    · rcases grown b later with old | now
      · exact .inl (.inr old)
      · exact .inr (.inr now)

/-- Extending the lists of a request in every group. -/
theorem allocateNewBlocks {numEncoderTokens : Int} {news : List (List BlockId)}
    (done : allocateNewBlocks id numTokens numEncoderTokens ms p = .ok (news, ms', p')) :
    Ledger p' ms' rest ∧ HeldKept p p' (fun b => occurrences ms b + rest b) ∧
      List.Forall₂ (Manager.Extended id numTokens numEncoderTokens) ms ms' ∧ news.length = ms.length ∧
      ∀ b ∈ listed ms' id, b ∈ listed ms id ∨ b ∈ news.flatten := by
  induction ms generalizing p rest ms' news with
  | nil =>
    cases done
    exact ⟨ledger, ⟨rfl, rfl, fun _ _ _ => rfl⟩, .nil, rfl, fun b member => .inl member⟩
  | cons m ms ih =>
    obtain ⟨⟨new, m₁, p₁⟩, first, tail⟩ := bind_eq_ok.mp done
    obtain ⟨⟨news₁, ms₁, p₂⟩, last, built⟩ := bind_eq_ok.mp tail
    cases built
    obtain ⟨books, what, sole, cached, blocks, length, _⟩ := ledger.head.allocateNewBlocks first
    have longer : ((m₁.blocksOf id).length : Int) = max ((m.blocksOf id).length : Int)
        (m.required numTokens numEncoderTokens) := by
      rw [blocks, length_append]
      push_cast
      exact length
    obtain ⟨others, kept, extended, count, grown⟩ := ih (Ledger.later books ledger.others) last
    refine ⟨Ledger.cons others books.distinct, ⟨kept.size.trans what.size,
      kept.caching.trans what.caching, fun b real held => ?_⟩, 
      .cons ⟨sole, cached, ⟨new, what.real, blocks⟩, longer⟩ extended,
      by simp only [length_cons, count], fun b member => ?_⟩
    · -- A held block is not taken, and stays held for the managers that follow.
      have fresh : b ∉ new := fun member => by
        have unused := what.unused b member
        rw [occurrences_cons] at held
        omega
      have still : m.occurrences b ≤ m₁.occurrences b := by
        have moved := books.pool.counted b real
        have before := ledger.head.pool.counted b real
        rw [what.count b fresh] at moved
        omega
      rw [kept.hash b real (by rw [occurrences_cons] at held; omega), what.hash b fresh]
    · simp only [listed, flatMap_cons, mem_append, flatten_cons, blocks] at member ⊢
      rcases member with (old | now) | later
      · exact .inl (.inl old)
      · exact .inr (.inl now)
      · rcases grown b later with old | now
        · exact .inl (.inr old)
        · exact .inr (.inr now)

/-- Caching the full blocks of a request in every group. -/
theorem cacheAll (enabled : p.enableCaching = true)
    (done : cacheAll event id hashes numTokens ms p = .ok (ms', p')) :
    Ledger p' ms' rest ∧ HashesStay p p' ∧ List.Forall₂ (Manager.Recached id numTokens) ms ms' := by
  have sweep := cacheAll_sweep done
  clear done
  induction sweep generalizing rest with
  | nil => exact ⟨ledger, ⟨rfl, rfl, fun _ _ hashed => hashed⟩, .nil⟩
  | cons first _ ih =>
    obtain ⟨books, stay, recached, _⟩ := ledger.head.cacheBlocks enabled first
    obtain ⟨others, stay', recached'⟩ := ih (Ledger.later books ledger.others)
      (by rw [stay.caching]; exact enabled)
    exact ⟨Ledger.cons others books.distinct, stay.trans stay', .cons recached recached'⟩

end Ledger

end Ledger

end Mimir
