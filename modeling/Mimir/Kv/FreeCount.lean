import Mimir.Kv.BlockCount

/-! The number of free blocks through `allocate_slots`: its parts succeed when there are enough of them. -/

namespace Mimir

open Python List

variable {H : Type} {p p' : BlockPool H} {m : Manager} {id : RequestId} {numTokens numEncoderTokens : Int}
  {rest : BlockId → Nat}

section Pool

namespace BlockPool

/-- A hit block that lies in the free queue, and leaves it when it is touched. -/
def evictable (p : BlockPool H) (b : BlockId) : Bool := (p.blocks b).refCnt = 0 ∧ b ≠ nullBlock

end BlockPool

variable [DecidableEq H] {held : BlockId → Nat}

namespace PoolInv

/-- Touching a block of the pool succeeds, and takes it from the free queue if it was there. -/
theorem touchBlock_ok (inv : PoolInv p held) {b : BlockId} (below : b < p.numGpuBlocks) :
    ∃ p', p.touchBlock b = .ok p' ∧
      p'.freeBlockQueue.length + [b].countP p.evictable = p.freeBlockQueue.length ∧
      ∀ x, x ≠ b → (p'.blocks x).refCnt = (p.blocks x).refCnt := by
  unfold BlockPool.touchBlock BlockPool.leaveFreeQueue
  by_cases free : (p.blocks b).refCnt = 0 ∧ b ≠ nullBlock
  · -- A block without users is in the queue.
    have unheld : held b = 0 := by
      have counted := inv.counted b free.2
      omega
    have member : b ∈ p.freeBlockQueue := (inv.free b).mpr ⟨free.2, below, unheld⟩
    have positive := length_pos_of_mem member
    rw [if_pos free, require, if_pos member]
    refine ⟨_, rfl, ?_, fun x other => ?_⟩
    · show (p.freeBlockQueue.erase b).length + _ = _
      have counted : [b].countP p.evictable = 1 := by
        simp [BlockPool.evictable, free.1, free.2]
      rw [length_erase_of_mem member, counted]
      omega
    · simp [BlockPool.modify, other]
  · rw [if_neg free]
    refine ⟨_, rfl, ?_, fun x other => ?_⟩
    · have counted : [b].countP p.evictable = 0 := by
        simp only [countP_singleton, BlockPool.evictable, decide_eq_true_eq, if_neg free]
      rw [counted]
      rfl
    · simp [BlockPool.modify, other]

/-- Touching blocks of the pool succeeds, and takes as many from the free queue as lie there. -/
theorem touchBlocks_ok (inv : PoolInv p held) {blocks : List BlockId}
    (below : ∀ b ∈ blocks, b < p.numGpuBlocks)
    (once : ∀ b, b ≠ nullBlock → blocks.count b ≤ 1) :
    ∃ p', p.touchBlocks blocks = .ok p' ∧
      p'.freeBlockQueue.length + blocks.countP p.evictable = p.freeBlockQueue.length := by
  induction blocks generalizing p held with
  | nil => exact ⟨p, rfl, rfl⟩
  | cons b rest ih =>
    obtain ⟨p₁, first, length₁, counts⟩ := inv.touchBlock_ok (below b (mem_cons_self ..))
    obtain ⟨inv₁, kept⟩ := inv.touchBlock (below b (mem_cons_self ..)) first
    obtain ⟨p₂, last, length₂⟩ := ih inv₁
      (fun x member => by rw [kept.size]; exact below x (mem_cons_of_mem _ member))
      (fun x real => (count_le_count_cons).trans (once x real))
    -- The first block does not come again, so the others are free as before.
    have same : rest.countP p₁.evictable = rest.countP p.evictable := by
      refine countP_congr fun x member => ?_
      simp only [BlockPool.evictable, decide_eq_true_eq]
      by_cases real : x = nullBlock
      · simp [real]
      · have other : x ≠ b := by
          rintro rfl
          have twice := once x real
          rw [count_cons_self] at twice
          have positive := count_pos_iff.mpr member
          omega
        rw [counts x other]
    refine ⟨p₂, ?_, ?_⟩
    · show (p.touchBlock b >>= fun p => p.touchBlocks rest) = _
      rw [first]
      exact last
    · rw [same] at length₂
      have split : (b :: rest).countP p.evictable =
          [b].countP p.evictable + rest.countP p.evictable := by
        rw [← countP_append]
        rfl
      omega

/-- Popped blocks without users can be claimed. -/
theorem claimBlocks_ok (table : TableInv p) {claimed : List BlockId} (nodup : claimed.Nodup)
    (unused : ∀ b ∈ claimed, (p.blocks b).refCnt = 0) : ∃ p', p.claimBlocks claimed = .ok p' := by
  induction claimed generalizing p with
  | nil => exact ⟨p, rfl⟩
  | cons b rest ih =>
    obtain ⟨fresh, nodup⟩ := nodup_cons.mp nodup
    -- Evicting the hash of a block changes no count.
    obtain ⟨p₁, evicted⟩ : ∃ p₁, p₁ = if p.enableCaching then p.maybeEvictCachedBlock b else p :=
      ⟨_, rfl⟩
    have frame : TableInv p₁ ∧ ∀ x, (p₁.blocks x).refCnt = (p.blocks x).refCnt := by
      rw [evicted]
      split
      · have spec := maybeEvictCachedBlock_spec table b
        exact ⟨spec.1, spec.2.count⟩
      · exact ⟨table, fun _ => rfl⟩
    have zero : (p₁.blocks b).refCnt = 0 := by
      rw [frame.2]
      exact unused b (mem_cons_self ..)
    obtain ⟨p₂, later⟩ := ih (p := p₁.modify b fun blk => { blk with refCnt := blk.refCnt + 1 })
      (frame.1.same (SameHashes.modify p₁ b _ rfl)) nodup fun x member => by
        have other : x ≠ b := fun same => fresh (same ▸ member)
        simp only [BlockPool.modify, Function.update_of_ne other, frame.2]
        exact unused x (mem_cons_of_mem _ member)
    refine ⟨p₂, ?_⟩
    unfold BlockPool.claimBlocks
    dsimp only
    rw [← evicted, require, if_pos zero]
    exact later

/-- `get_new_blocks` succeeds when there are enough free blocks, and takes as many as it is asked for. -/
theorem getNewBlocks_ok (inv : PoolInv p held) {n : Nat} (room : n ≤ p.freeBlockQueue.length) :
    ∃ new p', p.getNewBlocks n = .ok (new, p') ∧
      p'.freeBlockQueue.length + n = p.freeBlockQueue.length := by
  have nodup : (p.freeBlockQueue.take n).Nodup := inv.queueNodup.sublist (take_sublist _ _)
  have table : TableInv { p with freeBlockQueue := p.freeBlockQueue.drop n } :=
    inv.table.same ⟨rfl, rfl, rfl, fun _ => rfl⟩
  obtain ⟨p₁, claimed⟩ := claimBlocks_ok table nodup fun b member => by
    obtain ⟨real, _, unheld⟩ := (inv.free b).mp (mem_of_mem_take member)
    show (p.blocks b).refCnt = 0
    rw [inv.counted b real, unheld]
    rfl
  refine ⟨p.freeBlockQueue.take n, p₁, ?_, ?_⟩
  · unfold BlockPool.getNewBlocks BlockPool.getNumFreeBlocks
    rw [require, if_pos room]
    show (BlockPool.claimBlocks _ _ >>= _) = _
    rw [claimed]
    rfl
  · rw [(claimBlocks_spec table claimed).2.queue]
    show (p.freeBlockQueue.drop n).length + n = _
    rw [length_drop]
    omega

end PoolInv

end Pool

namespace Manager

variable {m' : Manager}

/-- Outside cross-attention the required blocks hold all tokens with slots. -/
theorem cdiv_le_required (kind : m.spec.kind ≠ .crossAttention) (numTokens numEncoderTokens : Int) :
    cdiv numTokens m.blockSize ≤ m.required numTokens numEncoderTokens := by
  have tokens := slotTokens_of_ne kind numTokens numEncoderTokens
  -- Linear attention only adds blocks.
  have more : numTokens ≤ m.tokensNeeded numTokens := by
    unfold tokensNeeded
    split
    · split
      · exact le_add_of_nonneg_right (mul_nonneg (Int.natCast_nonneg _) (Int.natCast_nonneg _))
      · exact le_rfl
    · exact le_rfl
  unfold required
  rw [tokens]
  exact cdiv_mono more _

/-- The blocks a group still has to take. -/
def missing (m : Manager) (id : RequestId) (numTokens numEncoderTokens : Int) : Nat :=
  (m.required numTokens numEncoderTokens - (m.blocksOf id).length).toNat

/-- A group that has not too many blocks asks for its free hits and for what is missing behind them. -/
theorem getNumBlocksToAllocate_eq {hit : List BlockId}
    (growing : ((m.blocksOf id).length + hit.length : Int) ≤ m.required numTokens numEncoderTokens)
    (saved : m.saveNewComputedBlocks id hit = .ok m') :
    (match m.spec.kind with
      | .crossAttention => m.getNumBlocksToAllocate p id numEncoderTokens []
      | _ => m.getNumBlocksToAllocate p id numTokens hit) =
      ((hit.countP p.evictable : Nat) : Int) + m'.missing id numTokens numEncoderTokens := by
  have layout := saveNewComputedBlocks_layout saved
  have list := saveNewComputedBlocks_list saved
  simp only [Manager.layout, Prod.mk.injEq] at layout
  -- What is missing is not negative.
  have left : ((m'.missing id numTokens numEncoderTokens : Nat) : Int) =
      m.required numTokens numEncoderTokens - hit.length - (m.blocksOf id).length := by
    unfold missing
    rw [required_eq layout.1 layout.2.1, list, length_append]
    omega
  have same : hit.countP p.evictable =
      hit.countP fun b => (p.blocks b).refCnt = 0 ∧ b ≠ nullBlock := rfl
  rw [left, same]
  unfold required getNumBlocksToAllocate
  split
  · -- Cross-attention has no hits.
    rename_i cross
    rw [slotTokens_cross cross]
    rcases saveNewComputedBlocks_cases saved with ⟨rfl, _⟩ | ⟨other, _⟩
    · simp
    · exact absurd cross other
  · rename_i kind
    rw [slotTokens_of_ne kind]
    dsimp only
    ring

variable [DecidableEq H]

/-- Extending a list succeeds when there are enough free blocks. -/
theorem Books.allocateNewBlocks_ok (books : Books p m rest) (id : RequestId)
    (room : m.missing id numTokens numEncoderTokens ≤ p.freeBlockQueue.length) :
    ∃ new m' p', m.allocateNewBlocks p id (m.slotTokens numTokens numEncoderTokens) =
        .ok (new, m', p') ∧
      p'.freeBlockQueue.length + m.missing id numTokens numEncoderTokens =
        p.freeBlockQueue.length := by
  unfold missing required at room ⊢
  unfold Manager.allocateNewBlocks
  dsimp only
  split
  · rename_i enough
    refine ⟨[], m, p, rfl, ?_⟩
    omega
  · obtain ⟨new, p₁, taken, length⟩ := books.pool.getNewBlocks_ok room
    rw [taken]
    exact ⟨new, _, p₁, rfl, length⟩

end Manager

namespace KVCacheManager

variable {ms ms' : List Manager}

/-- The blocks that the groups still have to take. -/
def missing (id : RequestId) (numTokens numEncoderTokens : Int) (ms : List Manager) : Nat :=
  (ms.map fun m => m.missing id numTokens numEncoderTokens).sum

/-- No group asks for fewer blocks than a request has in it, hits included. -/
def Growing (id : RequestId) (numTokens numEncoderTokens : Int) (ms : List Manager)
    (hits : List (List BlockId)) : Prop :=
  ∀ i m, ms[i]? = some m →
    ((m.blocksOf id).length + (hits.getD i []).length : Int) ≤ m.required numTokens numEncoderTokens

instance decidableGrowing (id : RequestId) (numTokens numEncoderTokens : Int) (ms : List Manager)
    (hits : List (List BlockId)) : Decidable (Growing id numTokens numEncoderTokens ms hits) :=
  decidableForallAt _ _

variable {hits : List (List BlockId)}

/-- What holds of the groups and their hits holds of those behind the first. -/
theorem Growing.tail (growing : Growing id numTokens numEncoderTokens (m :: ms) hits) :
    Growing id numTokens numEncoderTokens ms hits.tail := by
  intro i m' found
  have here := growing (i + 1) m' found
  cases hits with
  | nil => exact here
  | cons => exact here

/-- Where no group has too many blocks, the free blocks asked for are the hits and what is missing. -/
theorem numBlocksToAllocate_eq (count : hits.length ≤ ms.length)
    (growing : Growing id numTokens numEncoderTokens ms hits)
    (saved : saveNewComputedBlocks id ms hits = .ok ms') :
    numBlocksToAllocate p id numTokens numEncoderTokens ms hits =
      ((hits.flatten.countP p.evictable : Nat) : Int) +
        missing id numTokens numEncoderTokens ms' := by
  induction ms generalizing hits ms' with
  | nil =>
    cases saved
    have none : hits = [] := length_eq_zero_iff.mp (Nat.le_zero.mp count)
    subst none
    rfl
  | cons m ms ih =>
    obtain ⟨m₁, first, tail⟩ := bind_eq_ok.mp saved
    obtain ⟨ms₁, last, built⟩ := bind_eq_ok.mp tail
    cases built
    have later := ih (by rw [length_tail]; simp only [length_cons] at count; omega)
      growing.tail last
    have enough : ((m.blocksOf id).length + (hits.headD []).length : Int) ≤
        m.required numTokens numEncoderTokens := by
      have here := growing 0 m rfl
      cases hits <;> exact here
    have here := Manager.getNumBlocksToAllocate_eq (p := p) enough first
    have split : hits.flatten.countP p.evictable =
        (hits.headD []).countP p.evictable + hits.tail.flatten.countP p.evictable := by
      cases hits with
      | nil => rfl
      | cons => simp
    have sum : missing id numTokens numEncoderTokens (m₁ :: ms₁) =
        m₁.missing id numTokens numEncoderTokens + missing id numTokens numEncoderTokens ms₁ := by
      simp [missing]
    refine (congrArg₂ (· + ·) here later).trans ?_
    rw [split, sum]
    push_cast
    ring

variable [DecidableEq H]

/-- Extending the lists of all groups succeeds when there are enough free blocks. -/
theorem allocateNewBlocks_ok (id : RequestId) (numTokens numEncoderTokens : Int)
    (ledger : Ledger p ms rest)
    (room : missing id numTokens numEncoderTokens ms ≤ p.freeBlockQueue.length) :
    ∃ news ms' p', allocateNewBlocks id numTokens numEncoderTokens ms p = .ok (news, ms', p') ∧
      p'.freeBlockQueue.length + missing id numTokens numEncoderTokens ms =
        p.freeBlockQueue.length := by
  induction ms generalizing p rest with
  | nil => exact ⟨[], [], p, rfl, rfl⟩
  | cons m ms ih =>
    have sum : missing id numTokens numEncoderTokens (m :: ms) =
        m.missing id numTokens numEncoderTokens + missing id numTokens numEncoderTokens ms := by
      simp [missing]
    rw [sum] at room ⊢
    have here : m.missing id numTokens numEncoderTokens ≤ p.freeBlockQueue.length := by omega
    obtain ⟨new, m₁, p₁, first, length₁⟩ := ledger.head.allocateNewBlocks_ok id here
    obtain ⟨books, _⟩ := ledger.head.allocateNewBlocks first
    obtain ⟨news, ms₁, p₂, last, length₂⟩ := ih (Ledger.later books ledger.others) (by omega)
    refine ⟨new :: news, m₁ :: ms₁, p₂, ?_, by omega⟩
    show (m.allocateNewBlocks p id (m.slotTokens numTokens numEncoderTokens) >>= _) = _
    rw [first]
    show (allocateNewBlocks id numTokens numEncoderTokens ms p₁ >>= _) = _
    rw [last]
    rfl

/-- The lists of all groups are as long as the groups require. -/
theorem allocateNewBlocks_covers {news : List (List BlockId)}
    (done : allocateNewBlocks id numTokens numEncoderTokens ms p = .ok (news, ms', p')) :
    ∀ m ∈ ms', m.required numTokens numEncoderTokens ≤ (m.blocksOf id).length := by
  induction ms generalizing p ms' news with
  | nil =>
    cases done
    intro m member
    cases member
  | cons m ms ih =>
    obtain ⟨⟨new, m₁, p₁⟩, first, tail⟩ := bind_eq_ok.mp done
    obtain ⟨⟨news₁, ms₁, p₂⟩, last, built⟩ := bind_eq_ok.mp tail
    cases built
    obtain ⟨layout, length⟩ := Manager.allocateNewBlocks_length first
    simp only [Manager.layout, Prod.mk.injEq] at layout
    intro m' member
    rcases mem_cons.mp member with rfl | later
    · rw [Manager.required_eq layout.1 layout.2.1, length]
      exact le_max_right _ _
    · exact ih last m' later

/-- A request can save hits if it has none, or no blocks yet. -/
theorem saveNewComputedBlocks_ok (tracked : ∀ m ∈ ms, m.Tracked)
    (savable : Savable ms id hits) : ∃ ms', saveNewComputedBlocks id ms hits = .ok ms' := by
  cases run : saveNewComputedBlocks id ms hits with
  | error =>
    have sat : Sat (saveNewComputedBlocks id ms hits) (fun _ => True) fun _ => False :=
      saveNewComputedBlocks_sat tracked savable
    exact (sat.fail_of_error run).elim
  | ok ms' => exact ⟨ms', rfl⟩

end KVCacheManager

end Mimir
