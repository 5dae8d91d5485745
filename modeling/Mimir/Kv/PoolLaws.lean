import Mathlib.Data.List.Perm.Subperm
import Mimir.Kv.BlockPool

/-! The laws of the block pool: reference counts, the free queue and the hash table agree. -/

namespace Mimir

open Python List

variable {H : Type} {p p' : BlockPool H} {b : BlockId}

namespace BlockPool

/-- Changing one block leaves the others alone. -/
theorem modify_blocks (p : BlockPool H) (b : BlockId) (f : KVCacheBlock H → KVCacheBlock H) (x : BlockId) :
    (p.modify b f).blocks x = if x = b then f (p.blocks b) else p.blocks x :=
  Function.update_apply ..

/-- A field that the change does not touch is the same for all blocks. -/
theorem modify_field {α : Type} (p : BlockPool H) (b : BlockId) (f : KVCacheBlock H → KVCacheBlock H)
    (field : KVCacheBlock H → α) (kept : field (f (p.blocks b)) = field (p.blocks b)) (x : BlockId) :
    field ((p.modify b f).blocks x) = field (p.blocks x) := by
  rw [modify_blocks]
  split
  · subst x; exact kept
  · rfl

/-- Giving a block another hash changes no reference count. -/
theorem refCnt_rehash (p : BlockPool H) (b : BlockId) (new : Option (BlockHashWithGroupId H)) (x : BlockId) :
    ((p.modify b fun blk => { blk with blockHash := new }).blocks x).refCnt = (p.blocks x).refCnt :=
  p.modify_field b _ KVCacheBlock.refCnt rfl x

/-- Giving a block another hash changes that hash only. -/
theorem blockHash_rehash (p : BlockPool H) (b : BlockId) (new : Option (BlockHashWithGroupId H))
    (x : BlockId) : ((p.modify b fun blk => { blk with blockHash := new }).blocks x).blockHash =
      if x = b then new else (p.blocks x).blockHash := by
  rw [modify_blocks]
  split <;> rfl

/-- Touching two lists one after the other. -/
theorem touchBlocks_append (p : BlockPool H) (first rest : List BlockId) :
    p.touchBlocks (first ++ rest) = p.touchBlocks first >>= fun p => p.touchBlocks rest := by
  induction first generalizing p with
  | nil => rfl
  | cons b first ih =>
    show (p.touchBlock b >>= fun p => p.touchBlocks (first ++ rest)) =
      (p.touchBlock b >>= fun p => p.touchBlocks first) >>= fun p => p.touchBlocks rest
    cases p.touchBlock b with
    | error => rfl
    | ok p₁ => exact ih p₁

/-- Touching group by group is touching all blocks in that order. -/
theorem touch_eq (p : BlockPool H) (groups : List (List BlockId)) :
    p.touch groups = p.touchBlocks groups.flatten := by
  induction groups generalizing p with
  | nil => rfl
  | cons group rest ih =>
    rw [flatten_cons, touchBlocks_append]
    show (p.touchBlocks group >>= fun p => p.touch rest) = _
    cases p.touchBlocks group with
    | error => rfl
    | ok p₁ => exact ih p₁

end BlockPool

/-- Two pools with the same hashes on their blocks and the same table. -/
structure SameHashes (p p' : BlockPool H) : Prop where
  size : p'.numGpuBlocks = p.numGpuBlocks
  caching : p'.enableCaching = p.enableCaching
  table : p'.cachedBlockHashToBlock = p.cachedBlockHashToBlock
  hash : ∀ b, (p'.blocks b).blockHash = (p.blocks b).blockHash

namespace SameHashes

/-- Nothing is served by doing nothing. -/
theorem refl (p : BlockPool H) : SameHashes p p := ⟨rfl, rfl, rfl, fun _ => rfl⟩

theorem trans {p'' : BlockPool H} (first : SameHashes p p') (second : SameHashes p' p'') :
    SameHashes p p'' :=
  ⟨second.size.trans first.size, second.caching.trans first.caching, second.table.trans first.table,
    fun b => (second.hash b).trans (first.hash b)⟩

/-- Changing a reference count changes no hash. -/
theorem modify (p : BlockPool H) (b : BlockId) (f : KVCacheBlock H → KVCacheBlock H)
    (kept : (f (p.blocks b)).blockHash = (p.blocks b).blockHash) : SameHashes p (p.modify b f) :=
  ⟨rfl, rfl, rfl, p.modify_field b f KVCacheBlock.blockHash kept⟩

end SameHashes

section Table

variable [DecidableEq H]

/-- The hash table lists exactly the blocks that carry each hash. -/
structure TableInv (p : BlockPool H) : Prop where
  listed : ∀ key blocks, p.cachedBlockHashToBlock.get? key = some blocks →
    ∀ b ∈ blocks, (p.blocks b).blockHash = some key
  nonempty : ∀ key blocks, p.cachedBlockHashToBlock.get? key = some blocks → blocks ≠ []
  nodup : ∀ key blocks, p.cachedBlockHashToBlock.get? key = some blocks → blocks.Nodup
  hashed : ∀ b key, (p.blocks b).blockHash = some key →
    ∃ blocks, p.cachedBlockHashToBlock.get? key = some blocks ∧ b ∈ blocks
  within : ∀ b key, (p.blocks b).blockHash = some key → b < p.numGpuBlocks
  off : p.enableCaching = false → ∀ b, (p.blocks b).blockHash = none

/-- The blocks that the table lists for a hash. -/
def BlockPool.listed (p : BlockPool H) (key : BlockHashWithGroupId H) : List BlockId :=
  (p.cachedBlockHashToBlock.get? key).getD []

namespace TableInv

/-- A block is listed for a hash exactly if it carries it. -/
theorem mem_listed (inv : TableInv p) {key : BlockHashWithGroupId H} :
    b ∈ p.listed key ↔ (p.blocks b).blockHash = some key := by
  unfold BlockPool.listed
  constructor
  · intro member
    cases found : p.cachedBlockHashToBlock.get? key with
    | none => simp [found] at member
    | some blocks => exact inv.listed key blocks found b (by simpa [found] using member)
  · intro hashed
    obtain ⟨blocks, found, member⟩ := inv.hashed b key hashed
    simpa [found] using member

/-- No block is listed twice for a hash. -/
theorem nodup_listed (inv : TableInv p) (key : BlockHashWithGroupId H) : (p.listed key).Nodup := by
  unfold BlockPool.listed
  cases found : p.cachedBlockHashToBlock.get? key with
  | none => exact nodup_nil
  | some blocks => exact inv.nodup key blocks found

/-- A block gets another hash, or none, and the lists of the table follow. -/
theorem rehash (inv : TableInv p) {new : Option (BlockHashWithGroupId H)}
    (size : p'.numGpuBlocks = p.numGpuBlocks) (caching : p'.enableCaching = p.enableCaching)
    (hash : ∀ x, (p'.blocks x).blockHash = if x = b then new else (p.blocks x).blockHash)
    (lists : ∀ key x, x ∈ p'.listed key ↔ if x = b then new = some key else x ∈ p.listed key)
    (nonempty : ∀ key, p'.cachedBlockHashToBlock.get? key ≠ some [])
    (nodup : ∀ key, (p'.listed key).Nodup)
    (real : new ≠ none → b < p.numGpuBlocks ∧ p.enableCaching = true) : TableInv p' := by
  have mem : ∀ key x, x ∈ p'.listed key ↔ (p'.blocks x).blockHash = some key := by
    intro key x
    rw [lists, hash]
    split
    · rfl
    · exact inv.mem_listed
  have read : ∀ {key blocks}, p'.cachedBlockHashToBlock.get? key = some blocks →
      p'.listed key = blocks := fun found => by rw [BlockPool.listed, found]; rfl
  refine ⟨?_, ?_, ?_, ?_, ?_, ?_⟩
  · intro key blocks found x member
    exact (mem key x).mp (read found ▸ member)
  · rintro key _ found rfl
    exact nonempty key found
  · intro key blocks found
    exact read found ▸ nodup key
  · intro x key hashed
    have member := (mem key x).mpr hashed
    cases found : p'.cachedBlockHashToBlock.get? key with
    | none => simp [BlockPool.listed, found] at member
    | some blocks => exact ⟨blocks, rfl, read found ▸ member⟩
  · intro x key hashed
    rw [hash] at hashed
    rw [size]
    split at hashed
    · subst x; exact (real (by simp [hashed])).1
    · exact inv.within x key hashed
  · intro disabled x
    rw [caching] at disabled
    rw [hash]
    split
    · by_contra given
      simp [(real given).2] at disabled
    · exact inv.off disabled x

/-- A fresh pool has no hashes. -/
theorem init (numGpuBlocks : Nat) (enableCaching : Bool) :
    TableInv (BlockPool.init numGpuBlocks enableCaching : BlockPool H) where
  listed := by intro key blocks found; cases found
  nonempty := by intro key blocks found; cases found
  nodup := by intro key blocks found; cases found
  hashed := by intro b key hashed; cases hashed
  within := by intro b key hashed; cases hashed
  off := by intro _ b; rfl

/-- The table law reads hashes only. -/
theorem same (inv : TableInv p) (kept : SameHashes p p') : TableInv p' where
  listed key blocks found b member := by
    rw [kept.table] at found
    rw [kept.hash]
    exact inv.listed key blocks found b member
  nonempty key blocks found := by
    rw [kept.table] at found
    exact inv.nonempty key blocks found
  nodup key blocks found := by
    rw [kept.table] at found
    exact inv.nodup key blocks found
  hashed b key hashed := by
    rw [kept.hash] at hashed
    rw [kept.table]
    exact inv.hashed b key hashed
  within b key hashed := by
    rw [kept.hash] at hashed
    rw [kept.size]
    exact inv.within b key hashed
  off disabled b := by
    rw [kept.caching] at disabled
    rw [kept.hash]
    exact inv.off disabled b

end TableInv

/-- Everything about a pool except the hash of one block and the table. -/
structure EvictFrame (p p' : BlockPool H) (b : BlockId) : Prop where
  size : p'.numGpuBlocks = p.numGpuBlocks
  caching : p'.enableCaching = p.enableCaching
  queue : p'.freeBlockQueue = p.freeBlockQueue
  count : ∀ x, (p'.blocks x).refCnt = (p.blocks x).refCnt
  gone : (p'.blocks b).blockHash = none
  hash : ∀ x, x ≠ b → (p'.blocks x).blockHash = (p.blocks x).blockHash

/-- Evicting a block takes its hash away, from the block and from the table. -/
theorem maybeEvictCachedBlock_spec (inv : TableInv p) (b : BlockId) :
    TableInv (p.maybeEvictCachedBlock b) ∧ EvictFrame p (p.maybeEvictCachedBlock b) b := by
  unfold BlockPool.maybeEvictCachedBlock
  cases hash : (p.blocks b).blockHash with
  | none => exact ⟨inv, rfl, rfl, rfl, fun _ => rfl, hash, fun _ _ => rfl⟩
  | some key =>
    obtain ⟨blocks, found, member⟩ := inv.hashed b key hash
    dsimp only
    rw [found]
    dsimp only
    -- The two new tables agree on what each key still lists.
    have build : ∀ table : PyDict (BlockHashWithGroupId H) (List BlockId),
        (∀ key', table.get? key' = if key' = key then
          (if (blocks.erase b).isEmpty then none else some (blocks.erase b))
          else p.cachedBlockHashToBlock.get? key') →
        TableInv { p.modify b (fun blk => { blk with blockHash := none }) with
          cachedBlockHashToBlock := table } ∧
        EvictFrame p { p.modify b (fun blk => { blk with blockHash := none }) with
          cachedBlockHashToBlock := table } b := by
      intro table lookup
      have blockHash := p.blockHash_rehash b none
      -- The block leaves the list of its hash, and is on no other.
      have listed : ∀ key', (table.get? key').getD [] = (p.listed key').erase b := by
        intro key'
        rw [lookup]
        by_cases same : key' = key
        · rw [if_pos same, same, BlockPool.listed, found]
          split
          · rename_i empty
            exact (List.isEmpty_iff.mp empty).symm
          · rfl
        · rw [if_neg same, erase_of_not_mem]
          · rfl
          · exact fun on => same (Option.some.inj ((inv.mem_listed.mp on).symm.trans hash))
      refine ⟨inv.rehash rfl rfl blockHash (fun key' x => ?_) (fun key' => ?_) (fun key' => ?_)
        fun given => absurd rfl given, rfl, rfl, rfl, p.refCnt_rehash b none,
        by simp [blockHash], fun x other => by rw [blockHash, if_neg other]⟩
      · show x ∈ (table.get? key').getD [] ↔ _
        rw [listed, (inv.nodup_listed key').mem_erase_iff]
        split <;> simp [*]
      · show table.get? key' ≠ some []
        rw [lookup]
        split
        · split <;> simp_all
        · exact fun empty => inv.nonempty key' _ empty rfl
      · show ((table.get? key').getD []).Nodup
        rw [listed]
        exact (inv.nodup_listed key').erase b
    split
    · rename_i empty
      refine build _ fun key' => ?_
      show (p.cachedBlockHashToBlock.erase key).get? key' = _
      rw [PyDict.get?_erase, if_pos empty]
    · rename_i some'
      refine build _ fun key' => ?_
      show (p.cachedBlockHashToBlock.set key (blocks.erase b)).get? key' = _
      rw [PyDict.get?_set, if_neg some']

/-- What claiming popped blocks does to the pool. -/
structure Claimed (p p' : BlockPool H) (claimed : List BlockId) : Prop where
  size : p'.numGpuBlocks = p.numGpuBlocks
  caching : p'.enableCaching = p.enableCaching
  queue : p'.freeBlockQueue = p.freeBlockQueue
  count : ∀ b, (p'.blocks b).refCnt = (p.blocks b).refCnt + claimed.count b
  gone : ∀ b ∈ claimed, (p'.blocks b).blockHash = none
  hash : ∀ b, b ∉ claimed → (p'.blocks b).blockHash = (p.blocks b).blockHash

/-- Claimed blocks lose their hashes and gain a user. -/
theorem claimBlocks_spec {claimed : List BlockId} (inv : TableInv p)
    (done : p.claimBlocks claimed = .ok p') : TableInv p' ∧ Claimed p p' claimed := by
  -- The induction is on the blocks still to be claimed.
  induction claimed generalizing p with
  | nil =>
    cases done
    exact ⟨inv, rfl, rfl, rfl, fun _ => by simp, fun _ member => (by cases member), fun _ _ => rfl⟩
  | cons b rest ih =>
    obtain ⟨_, unused, tail⟩ := bind_eq_ok.mp done
    set p₁ := (if p.enableCaching then p.maybeEvictCachedBlock b else p) with p₁_def
    have evicted : TableInv p₁ ∧ EvictFrame p p₁ b := by
      rw [p₁_def]
      split
      · exact maybeEvictCachedBlock_spec inv b
      · rename_i disabled
        have none := inv.off (by simpa using disabled) b
        exact ⟨inv, rfl, rfl, rfl, fun _ => rfl, none, fun _ _ => rfl⟩
    set p₂ := p₁.modify b fun blk => { blk with refCnt := blk.refCnt + 1 } with p₂_def
    have kept : SameHashes p₁ p₂ := SameHashes.modify p₁ b _ rfl
    obtain ⟨table, what⟩ := ih (evicted.1.same kept) tail
    have frame := evicted.2
    refine ⟨table, what.size.trans frame.size, what.caching.trans frame.caching,
      what.queue.trans frame.queue, fun x => ?_, fun x member => ?_, fun x absent => ?_⟩
    · rw [what.count, count_cons]
      by_cases same : x = b
      · subst same
        simp only [p₂_def, BlockPool.modify, Function.update_self, frame.count, beq_self_eq_true,
          if_true]
        push_cast
        ring
      · have other : (b == x) = false := by simpa using Ne.symm same
        simp [p₂_def, BlockPool.modify, same, frame.count, other]
    · by_cases later : x ∈ rest
      · exact what.gone x later
      · have same : x = b := (mem_cons.mp member).resolve_right later
        rw [what.hash x later, kept.hash, same]
        exact frame.gone
    · rw [what.hash x fun member => absent (mem_cons_of_mem _ member), kept.hash]
      exact frame.hash x fun same => absent (same ▸ mem_cons_self ..)

end Table

section Accounts

variable [DecidableEq H]

/-- The pool's books are right for `held`: how often each block is held by somebody. -/
structure PoolInv (p : BlockPool H) (held : BlockId → Nat) : Prop where
  positive : 0 < p.numGpuBlocks
  counted : ∀ b, b ≠ nullBlock → (p.blocks b).refCnt = held b
  queueNodup : p.freeBlockQueue.Nodup
  free : ∀ b, b ∈ p.freeBlockQueue ↔ b ≠ nullBlock ∧ b < p.numGpuBlocks ∧ held b = 0
  bounded : ∀ b, b ≠ nullBlock → 0 < held b → b < p.numGpuBlocks
  table : TableInv p

namespace PoolInv

variable {held held' : BlockId → Nat}

/-- In a fresh pool nothing is held. -/
theorem init {numGpuBlocks : Nat} (positive : 0 < numGpuBlocks) (enableCaching : Bool) :
    PoolInv (BlockPool.init numGpuBlocks enableCaching : BlockPool H) fun _ => 0 where
  positive := positive
  counted := by intro b _; rfl
  queueNodup := nodup_range.sublist (tail_sublist _)
  free b := by
    -- The first number of the range is the placeholder.
    have split : List.range numGpuBlocks = 0 :: (List.range numGpuBlocks).tail := by
      cases numGpuBlocks with
      | zero => omega
      | succ => simp [range_succ_eq_map]
    have nodup : (0 :: (List.range numGpuBlocks).tail).Nodup := split ▸ nodup_range
    show b ∈ (List.range numGpuBlocks).tail ↔ _
    constructor
    · intro member
      have below : b < numGpuBlocks := mem_range.mp (mem_of_mem_tail member)
      refine ⟨?_, below, rfl⟩
      rintro rfl
      exact (nodup_cons.mp nodup).1 member
    · rintro ⟨nonzero, below, _⟩
      have member : b ∈ 0 :: (List.range numGpuBlocks).tail := split ▸ mem_range.mpr below
      exact (mem_cons.mp member).resolve_left nonzero
  bounded := by intro b _ used; omega
  table := TableInv.init numGpuBlocks enableCaching

variable (inv : PoolInv p held)

include inv

/-- Only how often real blocks are held matters. -/
theorem congr (same : ∀ b, b ≠ nullBlock → held' b = held b) : PoolInv p held' where
  positive := inv.positive
  counted b real := by rw [same b real]; exact inv.counted b real
  queueNodup := inv.queueNodup
  free b := by
    rw [inv.free b]
    constructor
    · rintro ⟨real, below, unused⟩
      exact ⟨real, below, by rw [same b real]; exact unused⟩
    · rintro ⟨real, below, unused⟩
      exact ⟨real, below, by rw [← same b real]; exact unused⟩
  bounded b real used := inv.bounded b real (by rw [← same b real]; exact used)
  table := inv.table

/-- The books hold for any pool with the same counts and queue, if its table is right. -/
theorem sameCounts (size : p'.numGpuBlocks = p.numGpuBlocks) (queue : p'.freeBlockQueue = p.freeBlockQueue)
    (count : ∀ b, (p'.blocks b).refCnt = (p.blocks b).refCnt) (table : TableInv p') : PoolInv p' held where
  positive := by rw [size]; exact inv.positive
  counted b real := by rw [count]; exact inv.counted b real
  queueNodup := by rw [queue]; exact inv.queueNodup
  free b := by rw [queue, size]; exact inv.free b
  bounded b real used := by rw [size]; exact inv.bounded b real used
  table := table

/-- Touching one block adds one holder. -/
theorem touchBlock (below : b < p.numGpuBlocks) (done : p.touchBlock b = .ok p') :
    PoolInv p' (fun x => held x + [b].count x) ∧ SameHashes p p' := by
  obtain ⟨p₁, left, built⟩ := bind_eq_ok.mp done
  cases built
  have single : ∀ x, [b].count x = if x = b then 1 else 0 := by
    intro x
    by_cases same : x = b
    · subst same; simp
    · simp [same, Ne.symm same]
  -- The queue loses the block when it was free, and does not contain it otherwise.
  have queue : p₁.blocks = p.blocks ∧ SameHashes p p₁ ∧ p₁.freeBlockQueue.Nodup ∧
      ∀ x, x ∈ p₁.freeBlockQueue ↔ x ∈ p.freeBlockQueue ∧ x ≠ b := by
    unfold BlockPool.leaveFreeQueue at left
    split at left
    · obtain ⟨_, _, eq⟩ := bind_eq_ok.mp left
      cases eq
      refine ⟨rfl, ⟨rfl, rfl, rfl, fun _ => rfl⟩, inv.queueNodup.erase b, fun x => ?_⟩
      rw [inv.queueNodup.mem_erase_iff]
      exact and_comm
    · rename_i used
      cases left
      refine ⟨rfl, .refl p, inv.queueNodup, fun x => ⟨fun member => ⟨member, ?_⟩, fun both => both.1⟩⟩
      rintro rfl
      obtain ⟨real, _, unused⟩ := (inv.free x).mp member
      exact used ⟨by rw [inv.counted x real, unused]; rfl, real⟩
  obtain ⟨blocks, kept, nodup, members⟩ := queue
  have kept' : SameHashes p₁ (p₁.modify b fun blk => { blk with refCnt := blk.refCnt + 1 }) :=
    SameHashes.modify p₁ b _ rfl
  refine ⟨⟨?_, ?_, nodup, ?_, ?_, inv.table.same (kept.trans kept')⟩, kept.trans kept'⟩
  · show 0 < p₁.numGpuBlocks
    rw [kept.size]; exact inv.positive
  · intro x real
    rw [single]
    by_cases same : x = b
    · subst same
      simp [BlockPool.modify, blocks, inv.counted x real]
    · simp [BlockPool.modify, blocks, inv.counted x real, same]
  · intro x
    show x ∈ p₁.freeBlockQueue ↔ _ ∧ x < p₁.numGpuBlocks ∧ _
    rw [members, inv.free, single, kept.size]
    by_cases same : x = b
    · simp [same]
    · simp [same]
  · intro x real used
    show x < p₁.numGpuBlocks
    rw [kept.size]
    by_cases same : x = b
    · rw [same]; exact below
    · rw [single, if_neg same] at used
      exact inv.bounded x real used

variable {blocks : List BlockId} {groupId : Nat} {hashes : List H}

/-- Touching a list of blocks adds a holder for each. -/
theorem touchBlocks (below : ∀ b ∈ blocks, b < p.numGpuBlocks) (done : p.touchBlocks blocks = .ok p') :
    PoolInv p' (fun x => held x + blocks.count x) ∧ SameHashes p p' := by
  induction blocks generalizing p held with
  | nil =>
    cases done
    exact ⟨inv.congr fun _ _ => by simp, .refl _⟩
  | cons b rest ih =>
    obtain ⟨p₁, first, last⟩ := bind_eq_ok.mp done
    obtain ⟨inv₁, kept₁⟩ := inv.touchBlock (below b (mem_cons_self ..)) first
    obtain ⟨inv₂, kept₂⟩ := ih inv₁ (fun x member => by
      rw [kept₁.size]; exact below x (mem_cons_of_mem _ member)) last
    refine ⟨inv₂.congr fun x _ => ?_, kept₁.trans kept₂⟩
    simp only [count_cons, count_nil]
    omega

/-- Touching the hits of all groups adds a holder for each. -/
theorem touch {groups : List (List BlockId)}
    (below : ∀ b ∈ groups.flatten, b < p.numGpuBlocks) (done : p.touch groups = .ok p') :
    PoolInv p' (fun x => held x + groups.flatten.count x) ∧ SameHashes p p' :=
  inv.touchBlocks below (p.touch_eq groups ▸ done)

/-- What allocating new blocks gives: unused blocks without hashes. -/
structure NewBlocks (p p' : BlockPool H) (held : BlockId → Nat) (new : List BlockId) : Prop where
  nodup : new.Nodup
  real : ∀ b ∈ new, b ≠ nullBlock
  unused : ∀ b ∈ new, held b = 0
  size : p'.numGpuBlocks = p.numGpuBlocks
  caching : p'.enableCaching = p.enableCaching
  gone : ∀ b ∈ new, (p'.blocks b).blockHash = none
  hash : ∀ b, b ∉ new → (p'.blocks b).blockHash = (p.blocks b).blockHash
  count : ∀ b, b ∉ new → (p'.blocks b).refCnt = (p.blocks b).refCnt

/-- Allocating blocks takes unused ones and adds a holder for each. -/
theorem getNewBlocks {n : Nat} {new : List BlockId} (done : p.getNewBlocks n = .ok (new, p')) :
    PoolInv p' (fun x => held x + new.count x) ∧ NewBlocks p p' held new ∧ new.length = n := by
  obtain ⟨_, enough, tail⟩ := bind_eq_ok.mp done
  obtain ⟨p₁, claimed, built⟩ := bind_eq_ok.mp tail
  cases built
  have popped : TableInv { p with freeBlockQueue := p.freeBlockQueue.drop n } :=
    inv.table.same ⟨rfl, rfl, rfl, fun _ => rfl⟩
  obtain ⟨table, what⟩ := claimBlocks_spec popped claimed
  have whole : p.freeBlockQueue.take n ++ p.freeBlockQueue.drop n = p.freeBlockQueue :=
    take_append_drop n _
  have nodup : (p.freeBlockQueue.take n ++ p.freeBlockQueue.drop n).Nodup := by
    rw [whole]; exact inv.queueNodup
  have apart := disjoint_of_nodup_append nodup
  have taken : ∀ b ∈ p.freeBlockQueue.take n,
      b ≠ nullBlock ∧ b < p.numGpuBlocks ∧ held b = 0 := fun b member =>
    (inv.free b).mp (mem_of_mem_take member)
  have newNodup := (nodup_append.mp nodup).1
  refine ⟨⟨?_, ?_, ?_, ?_, ?_, table⟩, ⟨newNodup, fun b member => (taken b member).1,
    fun b member => (taken b member).2.2, what.size, what.caching, what.gone, what.hash,
    fun b fresh => by rw [what.count, count_eq_zero_of_not_mem fresh]; simp⟩, ?_⟩
  · rw [what.size]; exact inv.positive
  · intro b real
    rw [what.count]
    push_cast
    rw [← inv.counted b real]
  · rw [what.queue]
    exact (nodup_append.mp nodup).2.1
  · intro b
    rw [what.queue, what.size]
    show b ∈ p.freeBlockQueue.drop n ↔ _ ∧ b < p.numGpuBlocks ∧ _
    constructor
    · intro member
      obtain ⟨real, below, unused⟩ := (inv.free b).mp (mem_of_mem_drop member)
      have fresh : b ∉ p.freeBlockQueue.take n := fun early => apart early member
      exact ⟨real, below, by rw [unused, count_eq_zero_of_not_mem fresh]⟩
    · rintro ⟨real, below, unused⟩
      have free : b ∈ p.freeBlockQueue := (inv.free b).mpr ⟨real, below, by omega⟩
      rw [← whole] at free
      refine (mem_append.mp free).resolve_left fun early => ?_
      have positive := count_pos_iff.mpr early
      omega
  · intro b real used
    rw [what.size]
    by_cases early : b ∈ p.freeBlockQueue.take n
    · exact (taken b early).2.1
    · rw [count_eq_zero_of_not_mem early] at used
      exact inv.bounded b real used
  · have count := require_eq_ok.mp enough
    unfold BlockPool.getNumFreeBlocks at count
    rw [length_take]
    omega

omit [DecidableEq H] inv in
/-- The first pass of `free_blocks` takes a user from each block. -/
theorem decrementAll_spec (p : BlockPool H) (blocks : List BlockId) :
    SameHashes p (p.decrementAll blocks) ∧
      (p.decrementAll blocks).freeBlockQueue = p.freeBlockQueue ∧
      ∀ b, ((p.decrementAll blocks).blocks b).refCnt = (p.blocks b).refCnt - blocks.count b := by
  induction blocks generalizing p with
  | nil => exact ⟨.refl p, rfl, fun b => by simp [BlockPool.decrementAll]⟩
  | cons first rest ih =>
    unfold BlockPool.decrementAll
    have kept : SameHashes p (p.modify first fun blk => { blk with refCnt := blk.refCnt - 1 }) :=
      SameHashes.modify p first _ rfl
    obtain ⟨same, queue, counts⟩ := ih (p.modify first fun blk => { blk with refCnt := blk.refCnt - 1 })
    refine ⟨kept.trans same, queue, fun b => ?_⟩
    rw [counts, count_cons]
    by_cases eq : b = first
    · subst eq
      simp only [BlockPool.modify, Function.update_self, beq_self_eq_true, if_true]
      push_cast
      ring
    · have other : (first == b) = false := by simpa using Ne.symm eq
      simp [BlockPool.modify, eq, other]

/-- Freeing blocks takes a holder from each; each real block may be given back once. -/
theorem freeBlocks (blocks : List BlockId) (held' : BlockId → Nat)
    (once : ∀ b, b ≠ nullBlock → blocks.count b ≤ 1)
    (split : ∀ b, b ≠ nullBlock → held b = held' b + blocks.count b) :
    PoolInv (p.freeBlocks blocks) held' ∧ SameHashes p (p.freeBlocks blocks) := by
  obtain ⟨kept, queue, counts⟩ := decrementAll_spec p blocks
  have kept' : SameHashes p (p.freeBlocks blocks) := ⟨kept.size, kept.caching, kept.table, kept.hash⟩
  have counted : ∀ b, b ≠ nullBlock → ((p.decrementAll blocks).blocks b).refCnt = held' b := by
    intro b real
    rw [counts, inv.counted b real, split b real]
    push_cast
    ring
  -- The blocks that join the queue are those nobody holds any more.
  have joins : ∀ b, b ∈ blocks.filter (fun b => ((p.decrementAll blocks).blocks b).refCnt = 0 ∧
      b ≠ nullBlock) ↔ b ∈ blocks ∧ b ≠ nullBlock ∧ held' b = 0 := by
    intro b
    simp only [mem_filter, decide_eq_true_eq]
    constructor
    · rintro ⟨member, zero, real⟩
      rw [counted b real] at zero
      exact ⟨member, real, by omega⟩
    · rintro ⟨member, real, zero⟩
      exact ⟨member, by rw [counted b real, zero]; rfl, real⟩
  refine ⟨⟨?_, counted, ?_, ?_, ?_, inv.table.same kept'⟩, kept'⟩
  · rw [kept'.size]; exact inv.positive
  · show ((p.decrementAll blocks).freeBlockQueue ++ blocks.filter _).Nodup
    rw [queue]
    refine List.Nodup.append inv.queueNodup ?_ ?_
    · rw [nodup_iff_count_le_one]
      intro b
      by_cases real : b = nullBlock
      · rw [count_eq_zero_of_not_mem fun member => ((joins b).mp member).2.1 real]
        omega
      · exact (filter_sublist.count_le b).trans (once b real)
    · intro b old new
      obtain ⟨member, real, _⟩ := (joins b).mp new
      obtain ⟨_, _, unused⟩ := (inv.free b).mp old
      have used := split b real
      have positive := count_pos_iff.mpr member
      omega
  · intro b
    rw [kept'.size]
    show b ∈ (p.decrementAll blocks).freeBlockQueue ++ blocks.filter _ ↔ _
    rw [queue, mem_append, joins, inv.free]
    constructor
    · rintro (⟨real, below, unused⟩ | ⟨member, real, zero⟩)
      · exact ⟨real, below, by have := split b real; omega⟩
      · have positive := count_pos_iff.mpr member
        exact ⟨real, inv.bounded b real (by have := split b real; omega), zero⟩
    · rintro ⟨real, below, zero⟩
      by_cases member : b ∈ blocks
      · exact .inr ⟨member, real, zero⟩
      · left
        have none := count_eq_zero_of_not_mem member
        exact ⟨real, below, by have := split b real; omega⟩
  · intro b real used
    rw [kept'.size]
    exact inv.bounded b real (by have := split b real; omega)

/-- What caching full blocks does: blocks without a hash get the one meant for them. -/
structure Hashed (p p' : BlockPool H) (groupId : Nat) (blocks : List BlockId) (hashes : List H) :
    Prop where
  size : p'.numGpuBlocks = p.numGpuBlocks
  caching : p'.enableCaching = p.enableCaching
  queue : p'.freeBlockQueue = p.freeBlockQueue
  count : ∀ b, (p'.blocks b).refCnt = (p.blocks b).refCnt
  before : ∀ b ∈ blocks, (p.blocks b).blockHash = none
  after : ∀ (i : Nat) (b : BlockId), blocks[i]? = some b → ∃ h, hashes[i]? = some h ∧
    (p'.blocks b).blockHash = some (h, groupId)
  hash : ∀ b, b ∉ blocks → (p'.blocks b).blockHash = (p.blocks b).blockHash

omit inv in
/-- One turn of the caching loop. -/
theorem cacheFullBlock_spec {key : BlockHashWithGroupId H} (table : TableInv p)
    (enabled : p.enableCaching = true) (below : b < p.numGpuBlocks)
    (done : p.cacheFullBlock b key = .ok p') :
    TableInv p' ∧ p'.numGpuBlocks = p.numGpuBlocks ∧ p'.enableCaching = p.enableCaching ∧
      p'.freeBlockQueue = p.freeBlockQueue ∧ (∀ x, (p'.blocks x).refCnt = (p.blocks x).refCnt) ∧
      (p.blocks b).blockHash = none ∧
      ∀ x, (p'.blocks x).blockHash = if x = b then some key else (p.blocks x).blockHash := by
  obtain ⟨_, unhashed, built⟩ := bind_eq_ok.mp done
  have unhashed := require_eq_ok.mp unhashed
  have eq := (Except.ok.inj built).symm
  have blockHash : ∀ x, (p'.blocks x).blockHash = if x = b then some key else (p.blocks x).blockHash := by
    rw [eq]
    exact p.blockHash_rehash b (some key)
  -- The block is new to every list, since it had no hash.
  have absent : ∀ key', b ∉ p.listed key' := fun key' on => by
    have hashed := table.mem_listed.mp on
    rw [unhashed] at hashed
    cases hashed
  have lookup : ∀ key', p'.cachedBlockHashToBlock.get? key' =
      if key' = key then some (p.listed key ++ [b]) else p.cachedBlockHashToBlock.get? key' := by
    intro key'
    have new : (if b ∈ p.listed key then p.listed key else p.listed key ++ [b]) = p.listed key ++ [b] :=
      if_neg (absent key)
    rw [eq, ← new]
    exact PyDict.get?_set ..
  have listed : ∀ key', p'.listed key' = if key' = key then p.listed key ++ [b] else p.listed key' := by
    intro key'
    rw [BlockPool.listed, lookup]
    split <;> rfl
  refine ⟨table.rehash (by rw [eq]; rfl) (by rw [eq]; rfl) blockHash (fun key' x => ?_) (fun key' => ?_)
    (fun key' => ?_) fun _ => ⟨below, enabled⟩, by rw [eq]; rfl, by rw [eq]; rfl, by rw [eq]; rfl, ?_,
    unhashed, blockHash⟩
  · rw [listed]
    by_cases same : x = b
    · subst same
      split
      · rename_i here
        simp [here]
      · rename_i other
        simp [absent key', Ne.symm other]
    · split
      · rename_i here
        simp [here, same]
      · simp [same]
  · rw [lookup]
    split
    · simp
    · exact fun empty => table.nonempty key' _ empty rfl
  · rw [listed]
    split
    · exact List.Nodup.append (table.nodup_listed key) (by simp) (by simpa using absent key)
    · exact table.nodup_listed key'
  · rw [eq]
    exact p.refCnt_rehash b (some key)

omit inv in
/-- The caching loop hashes its blocks one after the other. -/
theorem cacheFullBlocksLoop_spec
    (table : TableInv p) (enabled : p.enableCaching = true) (below : ∀ b ∈ blocks, b < p.numGpuBlocks)
    (done : BlockPool.cacheFullBlocksLoop groupId p blocks hashes = .ok p') :
    TableInv p' ∧ Hashed p p' groupId blocks hashes := by
  induction blocks generalizing p hashes with
  | nil =>
    cases done
    exact ⟨table, rfl, rfl, rfl, fun _ => rfl, fun _ member => (by cases member),
      fun i b found => by simp at found, fun _ _ => rfl⟩
  | cons b rest ih =>
    cases hashes with
    | nil => cases done
    | cons h =>
      obtain ⟨p₁, first, last⟩ := bind_eq_ok.mp done
      obtain ⟨table₁, size₁, caching₁, queue₁, count₁, unhashed, hash₁⟩ :=
        cacheFullBlock_spec table enabled (below b (mem_cons_self ..)) first
      obtain ⟨table₂, what⟩ := ih table₁ (by rw [caching₁]; exact enabled)
        (fun x member => by rw [size₁]; exact below x (mem_cons_of_mem _ member)) last
      -- The first block is hashed now, so it does not occur again.
      have once : b ∉ rest := by
        intro member
        have none := what.before b member
        rw [hash₁, if_pos rfl] at none
        cases none
      refine ⟨table₂, what.size.trans size₁, what.caching.trans caching₁, what.queue.trans queue₁,
        fun x => (what.count x).trans (count₁ x), ?_, ?_, ?_⟩
      · intro x member
        rcases mem_cons.mp member with rfl | later
        · exact unhashed
        · have none := what.before x later
          have other : x ≠ b := fun same => once (same ▸ later)
          rwa [hash₁, if_neg other] at none
      · intro i x found
        cases i with
        | zero =>
          simp only [getElem?_cons_zero, Option.some.injEq] at found
          subst found
          refine ⟨h, rfl, ?_⟩
          rw [what.hash b once, hash₁, if_pos rfl]
        | succ i =>
          simp only [getElem?_cons_succ] at found ⊢
          exact what.after i x found
      · intro x absent
        have other : x ≠ b := fun same => absent (same ▸ mem_cons_self ..)
        rw [what.hash x fun member => absent (mem_cons_of_mem _ member), hash₁, if_neg other]

/-- Caching full blocks keeps the books; the blocks of the slice get the hashes of their indices. -/
theorem cacheFullBlocks {event : Option Bool} {blockHashes : List H} {numCached numFull : Int}
    (enabled : p.enableCaching = true) (below : ∀ b ∈ blocks, b < p.numGpuBlocks)
    (done : p.cacheFullBlocks event blockHashes blocks numCached numFull groupId = .ok p') :
    PoolInv p' held ∧ (p' = p ∧ numCached = numFull ∨
      numFull ≤ blockHashes.length ∧ Hashed p p' groupId (pySlice blocks numCached numFull)
        (blockHashes.drop (sliceIndex blockHashes.length numCached))) := by
  unfold BlockPool.cacheFullBlocks at done
  split at done
  · rename_i equal
    cases done
    exact ⟨inv, .inl ⟨rfl, equal⟩⟩
  · obtain ⟨_, enough, tail⟩ := bind_eq_ok.mp done
    obtain ⟨_, looped, tail⟩ := bind_eq_ok.mp tail
    obtain ⟨_, _, built⟩ := bind_eq_ok.mp tail
    cases built
    obtain ⟨table, what⟩ := cacheFullBlocksLoop_spec inv.table enabled
      (fun b member => below b (mem_of_mem_pySlice member)) looped
    exact ⟨inv.sameCounts what.size what.queue what.count table, .inr ⟨require_eq_ok.mp enough, what⟩⟩

omit [DecidableEq H] inv in
/-- The slice of a list that caching hashes, by indices into the list. -/
theorem Hashed.slice {g : Nat} {list : List BlockId}
    {start stop : Int} (first : 0 ≤ start) (last : 0 ≤ stop)
    (what : Hashed p p' g (pySlice list start stop) (hashes.drop (sliceIndex hashes.length start))) :
    (∀ (i : Nat) b, start ≤ i → (i : Int) < stop → list[i]? = some b →
      (∃ h, hashes[i]? = some h ∧ (p'.blocks b).blockHash = some (h, g)) ∧
        (p.blocks b).blockHash = none) ∧
    ∀ b, (∀ i : Nat, start ≤ i → (i : Int) < stop → list[i]? ≠ some b) →
      (p'.blocks b).blockHash = (p.blocks b).blockHash := by
  have sliceStart : sliceIndex hashes.length start = start.toNat := by
    unfold sliceIndex
    rw [if_neg (by omega)]
  constructor
  · intro i b lower upper found
    have inSlice : (pySlice list start stop)[i - start.toNat]? = some b := by
      rw [getElem?_pySlice list first last]
      refine ⟨by omega, ?_⟩
      rw [show start.toNat + (i - start.toNat) = i by omega]
      exact found
    obtain ⟨h, hash, carries⟩ := what.after _ b inSlice
    rw [sliceStart, getElem?_drop, show start.toNat + (i - start.toNat) = i by omega] at hash
    exact ⟨⟨h, hash, carries⟩, what.before b (mem_of_getElem? inSlice)⟩
  · intro b outside
    apply what.hash
    intro member
    obtain ⟨j, found⟩ := getElem?_of_mem member
    obtain ⟨below, position⟩ := (getElem?_pySlice list first last j b).mp found
    exact outside (start.toNat + j) (by omega) (by omega) position

/-- When nothing is held, all blocks but the placeholder are free. -/
theorem length_queue_of_unheld (unheld : ∀ b, b ≠ nullBlock → held b = 0) :
    p.freeBlockQueue.length = p.numGpuBlocks - 1 := by
  -- The queue is a rearrangement of the queue of a fresh pool.
  have fresh : PoolInv (BlockPool.init p.numGpuBlocks p.enableCaching : BlockPool H) fun _ => 0 :=
    init inv.positive p.enableCaching
  have perm : p.freeBlockQueue.Perm
      (BlockPool.init p.numGpuBlocks p.enableCaching : BlockPool H).freeBlockQueue := by
    rw [perm_ext_iff_of_nodup inv.queueNodup fresh.queueNodup]
    intro b
    rw [inv.free, fresh.free]
    constructor
    · rintro ⟨real, below, _⟩; exact ⟨real, below, rfl⟩
    · rintro ⟨real, below, _⟩; exact ⟨real, below, unheld b real⟩
  rw [perm.length_eq]
  simp [BlockPool.init]

/-- When all blocks but the placeholder are free, nothing is held. -/
theorem unheld_of_length_queue
    (all : p.freeBlockQueue.length = p.numGpuBlocks - 1) : ∀ b, b ≠ nullBlock → held b = 0 := by
  have fresh : PoolInv (BlockPool.init p.numGpuBlocks p.enableCaching : BlockPool H) fun _ => 0 :=
    init inv.positive p.enableCaching
  have sub : p.freeBlockQueue ⊆
      (BlockPool.init p.numGpuBlocks p.enableCaching : BlockPool H).freeBlockQueue := by
    intro b member
    obtain ⟨real, below, _⟩ := (inv.free b).mp member
    exact (fresh.free b).mpr ⟨real, below, rfl⟩
  -- A part as long as the whole is the whole.
  have perm := (subperm_of_subset inv.queueNodup sub).perm_of_length_le (by
    rw [all]; simp [BlockPool.init])
  intro b real
  by_contra used
  have below := inv.bounded b real (by omega)
  have member := perm.mem_iff.mpr ((fresh.free b).mpr ⟨real, below, rfl⟩)
  exact used ((inv.free b).mp member).2.2

omit [DecidableEq H] inv in
/-- Resetting succeeds exactly when all blocks but the placeholder are free. -/
theorem resetPrefixCache_fst (p : BlockPool H) (positive : 0 < p.numGpuBlocks) :
    p.resetPrefixCache.1 = true ↔ p.freeBlockQueue.length = p.numGpuBlocks - 1 := by
  unfold BlockPool.resetPrefixCache BlockPool.getNumFreeBlocks
  split
  · simp only [Bool.false_eq_true, false_iff]; omega
  · simp only [true_iff]; omega

/-- Resetting keeps the books, and forgets hashes only when nothing is held. -/
theorem resetPrefixCache :
    PoolInv p.resetPrefixCache.2 held ∧ (p.resetPrefixCache.2 = p ∨
      (∀ b, b ≠ nullBlock → held b = 0) ∧
        (∀ b, (p.resetPrefixCache.2.blocks b).blockHash = none) ∧
        p.resetPrefixCache.2.numGpuBlocks = p.numGpuBlocks ∧
        p.resetPrefixCache.2.enableCaching = p.enableCaching) := by
  unfold BlockPool.resetPrefixCache
  split
  · exact ⟨inv, .inl rfl⟩
  · rename_i all
    have unheld := inv.unheld_of_length_queue (by
      unfold BlockPool.getNumFreeBlocks at all
      have := inv.positive
      omega)
    refine ⟨⟨inv.positive, inv.counted, inv.queueNodup, inv.free, inv.bounded, ?_⟩,
      .inr ⟨unheld, fun _ => rfl, rfl, rfl⟩⟩
    constructor
    · intro key blocks found; cases found
    · intro key blocks found; cases found
    · intro key blocks found; cases found
    · intro b key hashed; cases hashed
    · intro b key hashed; cases hashed
    · intro _ b; rfl

end PoolInv

end Accounts

end Mimir
