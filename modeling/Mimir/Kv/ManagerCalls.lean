import Mimir.Kv.CacheManager

/-! What each call of the managers and of `allocate_slots` can do, case by case. -/

namespace Mimir

open Python List

variable {H : Type} {p p' : BlockPool H} {numTokens : Int}

namespace Manager

variable {m m' : Manager} {id : RequestId}

/-- What stays of a manager: its spec, its block size and its group. -/
def layout (m : Manager) : KVCacheSpec × Nat × Nat := (m.spec, m.blockSize, m.kvCacheGroupId)

/-- A manager with another block list for one request. -/
def withBlocks (m : Manager) (id : RequestId) (blocks : List BlockId) : Manager :=
  { m with reqToBlocks := m.reqToBlocks.set id blocks }

@[simp] theorem blocksOf_withBlocks (m : Manager) (id other : RequestId) (blocks : List BlockId) :
    (m.withBlocks id blocks).blocksOf other = if other = id then blocks else m.blocksOf other := by
  unfold withBlocks blocksOf
  rw [PyDict.get?_set]
  split <;> rfl

/-- The tokens a group is sized by: those of the encoder for cross-attention. -/
def slotTokens (m : Manager) (numTokens numEncoderTokens : Int) : Int :=
  match m.spec.kind with
  | .crossAttention => numEncoderTokens
  | _ => numTokens

/-- Cross-attention is sized by the tokens of the encoder. -/
theorem slotTokens_cross (cross : m.spec.kind = .crossAttention) (numTokens numEncoderTokens : Int) :
    m.slotTokens numTokens numEncoderTokens = numEncoderTokens := by
  unfold slotTokens
  rw [cross]

/-- Other groups are sized by the tokens of the request. -/
theorem slotTokens_of_ne (kind : m.spec.kind ≠ .crossAttention) (numTokens numEncoderTokens : Int) :
    m.slotTokens numTokens numEncoderTokens = numTokens := by
  unfold slotTokens
  split
  · rename_i cross
    exact absurd cross kind
  · rfl

/-- The number of blocks a group's list is to have. -/
def required (m : Manager) (numTokens numEncoderTokens : Int) : Int :=
  cdiv (m.tokensNeeded (m.slotTokens numTokens numEncoderTokens)) m.blockSize

variable {n : Nat} {blocks blocks' removed hits : List BlockId}

/-- What a group is sized by depends on its spec and its block size. -/
theorem required_eq {numEncoderTokens : Int} (spec : m'.spec = m.spec)
    (blockSize : m'.blockSize = m.blockSize) :
    m'.required numTokens numEncoderTokens = m.required numTokens numEncoderTokens := by
  unfold required tokensNeeded slotTokens
  rw [spec, blockSize]

/-- A list whose blocks below an index were replaced by the placeholder, and what it lost. -/
structure Dropped (n : Nat) (blocks blocks' removed : List BlockId) : Prop where
  length : blocks'.length = blocks.length
  split : ∀ b, b ≠ nullBlock → blocks.count b = blocks'.count b + removed.count b
  gone : ∀ b ∈ removed, b ≠ nullBlock ∧ ∃ i, i < n ∧ blocks[i]? = some b
  entries : ∃ first, first ≤ n ∧ (first = 0 ∨ blocks[first - 1]? = some nullBlock) ∧
    ∀ i, blocks'[i]? = if first ≤ i ∧ i < n then some nullBlock else blocks[i]?

/-- Nothing is replaced behind a placeholder. -/
theorem Dropped.refl (reached : n = 0 ∨ blocks[n - 1]? = some nullBlock) : Dropped n blocks blocks [] :=
  ⟨rfl, fun _ _ => rfl, fun _ member => (by cases member), n, le_rfl, reached, fun i => by
    rw [if_neg (by omega)]⟩

/-- One more block is replaced. -/
theorem Dropped.cons {b : BlockId} (found : blocks[n]? = some b) (real : b ≠ nullBlock)
    (rest : Dropped n (blocks.set n nullBlock) blocks' removed) :
    Dropped (n + 1) blocks blocks' (b :: removed) := by
  obtain ⟨below, eq⟩ := List.getElem?_eq_some_iff.mp found
  have others : ∀ i, i ≠ n → (blocks.set n nullBlock)[i]? = blocks[i]? := fun i other =>
    getElem?_set_ne (Ne.symm other)
  refine ⟨by rw [rest.length, length_set], fun x other => ?_, fun x member => ?_, ?_⟩
  · -- The entry that is overwritten is the one handed out here.
    have counted : blocks.count x = (blocks.set n nullBlock).count x + [b].count x := by
      have positive : x = b → 0 < blocks.count x := fun same =>
        count_pos_iff.mpr (same ▸ mem_of_getElem? found)
      have null : (nullBlock == x) = false := by simpa using Ne.symm other
      rw [count_set below, eq, count_singleton, null]
      by_cases same : x = b
      · have := positive same
        simp only [same, beq_self_eq_true, if_true, Bool.false_eq_true, if_false] at this ⊢
        omega
      · have apart : (b == x) = false := by simpa using Ne.symm same
        simp [apart]
    have here := rest.split x other
    rw [count_cons, counted, here, count_singleton]
    omega
  · rcases mem_cons.mp member with rfl | later
    · exact ⟨real, n, Nat.lt_succ_self n, found⟩
    · obtain ⟨real, i, less, entry⟩ := rest.gone x later
      rw [others i (by omega)] at entry
      exact ⟨real, i, by omega, entry⟩
  · obtain ⟨first, bound, before, entries⟩ := rest.entries
    refine ⟨first, by omega, ?_, fun i => ?_⟩
    · rcases before with zero | null
      · exact .inl zero
      · by_cases zero : first = 0
        · exact .inl zero
        · rw [others _ (by omega)] at null
          exact .inr null
    · rw [entries i]
      by_cases here : i = n
      · subst here
        rw [if_neg (by omega), if_pos (by omega), getElem?_set_self below]
      · rw [others i here]
        exact if_congr (by omega) rfl rfl

/-- Replacing blocks by the placeholder hands them out. -/
theorem dropBelow_spec
    (done : dropBelow n blocks = .ok (blocks', removed)) : Dropped n blocks blocks' removed := by
  induction n generalizing blocks removed with
  | zero =>
    cases done
    exact .refl (.inl rfl)
  | succ n ih =>
    unfold dropBelow at done
    split at done
    · cases done
    · rename_i b found
      split at done
      · rename_i null
        cases done
        exact .refl (.inr (null ▸ found))
      · rename_i real
        obtain ⟨⟨rest, more⟩, later, built⟩ := bind_eq_ok.mp done
        cases built
        exact .cons found real (ih later)

/-- Removing skipped blocks replaces those below the first useful one, and frees them. -/
theorem removeSkippedBlocks_cases {numComputedTokens : Int}
    (done : m.removeSkippedBlocks p id numComputedTokens = .ok (m', p')) :
    ∃ blocks removed,
      Dropped (m.firstUsefulBlock id numComputedTokens).toNat (m.blocksOf id) blocks removed ∧
      p' = p.freeBlocks removed ∧ m'.blocksOf id = blocks ∧ (m' = m.withBlocks id blocks ∨ m' = m) := by
  have windowed : (dropBelow (m.firstUsefulBlock id numComputedTokens).toNat (m.blocksOf id) >>=
      fun out => .ok ({ m with reqToBlocks := m.reqToBlocks.set id out.1 }, p.freeBlocks out.2)) =
      .ok (m', p') → ∃ blocks removed,
        Dropped (m.firstUsefulBlock id numComputedTokens).toNat (m.blocksOf id) blocks removed ∧
        p' = p.freeBlocks removed ∧ m'.blocksOf id = blocks ∧
          (m' = m.withBlocks id blocks ∨ m' = m) := by
    intro run
    obtain ⟨⟨blocks, removed⟩, dropped, built⟩ := bind_eq_ok.mp run
    cases built
    refine ⟨blocks, removed, dropBelow_spec dropped, rfl, ?_, .inl rfl⟩
    show (m.withBlocks id blocks).blocksOf id = blocks
    rw [blocksOf_withBlocks, if_pos rfl]
  unfold Manager.removeSkippedBlocks at done
  split at done
  · exact windowed done
  · exact windowed done
  · rename_i noWindow noChunks
    cases done
    refine ⟨_, [], .refl (.inl ?_), by simp [BlockPool.freeBlocks, BlockPool.decrementAll], rfl,
      .inr rfl⟩
    unfold firstUsefulBlock
    split
    · rename_i kind
      exact absurd kind (noWindow _)
    · rename_i kind
      exact absurd kind (noChunks _)
    · rfl

/-- Hits are saved for a request without blocks; otherwise there are none. -/
theorem saveNewComputedBlocks_cases (done : m.saveNewComputedBlocks id hits = .ok m') :
    (hits = [] ∧ m' = m ∧ (m.spec.kind ≠ .crossAttention → id ∈ m.numCachedBlock.keys)) ∨
      m.spec.kind ≠ .crossAttention ∧ m.blocksOf id = [] ∧ id ∉ m.numCachedBlock.keys ∧
        m' = { m.withBlocks id hits with numCachedBlock := m.numCachedBlock.set id hits.length } := by
  unfold Manager.saveNewComputedBlocks at done
  split at done
  · rename_i cross
    obtain ⟨_, none, built⟩ := bind_eq_ok.mp done
    cases built
    exact .inl ⟨require_eq_ok.mp none, rfl, fun other => absurd cross other⟩
  · rename_i kind
    split at done
    · rename_i known
      obtain ⟨_, none, built⟩ := bind_eq_ok.mp done
      cases built
      exact .inl ⟨require_eq_ok.mp none, rfl, fun _ => known⟩
    · rename_i unknown
      obtain ⟨_, empty, built⟩ := bind_eq_ok.mp done
      cases built
      exact .inr ⟨kind, require_eq_ok.mp empty, unknown, rfl⟩

/-- Saved hits stand behind what the request has. -/
theorem saveNewComputedBlocks_list (done : m.saveNewComputedBlocks id hits = .ok m') :
    m'.blocksOf id = m.blocksOf id ++ hits := by
  rcases saveNewComputedBlocks_cases done with ⟨rfl, rfl, _⟩ | ⟨_, empty, _, rfl⟩
  · rw [append_nil]
  · show (m.withBlocks id hits).blocksOf id = _
    rw [blocksOf_withBlocks, if_pos rfl, empty, nil_append]

variable [DecidableEq H]

/-- A list that is too short gets new blocks, as many as are missing. -/
theorem allocateNewBlocks_cases {new : List BlockId}
    (done : m.allocateNewBlocks p id numTokens = .ok (new, m', p')) :
    (cdiv (m.tokensNeeded numTokens) m.blockSize ≤ (m.blocksOf id).length ∧ new = [] ∧ m' = m ∧
        p' = p) ∨
      ((m.blocksOf id).length : Int) < cdiv (m.tokensNeeded numTokens) m.blockSize ∧
        p.getNewBlocks (cdiv (m.tokensNeeded numTokens) m.blockSize - (m.blocksOf id).length).toNat =
          .ok (new, p') ∧
        m' = m.withBlocks id (m.blocksOf id ++ new) := by
  unfold Manager.allocateNewBlocks at done
  dsimp only at done
  split at done
  · cases done
    exact .inl ⟨by omega, rfl, rfl, rfl⟩
  · obtain ⟨⟨taken, p₁⟩, got, built⟩ := bind_eq_ok.mp done
    cases built
    exact .inr ⟨by omega, got, rfl⟩

/-- Caching starts from the number of blocks cached before. -/
theorem cacheBlocks_cases {event : Option Bool} {hashes : List H}
    (done : m.cacheBlocks p event id hashes numTokens = .ok (m', p')) :
    ∃ numCached, m.numCachedBlock.get? id = some numCached ∧
      p.cacheFullBlocks event hashes (m.blocksOf id) numCached (numTokens.fdiv m.blockSize)
        m.kvCacheGroupId = .ok p' ∧
      m' = { m with
        numCachedBlock := m.numCachedBlock.set id (numTokens.fdiv m.blockSize) } := by
  unfold Manager.cacheBlocks at done
  split at done
  · cases done
  · obtain ⟨numCached, found, tail⟩ := bind_eq_ok.mp done
    obtain ⟨p₁, cached, built⟩ := bind_eq_ok.mp tail
    cases built
    exact ⟨numCached, orRaise_eq_ok.mp found, cached, rfl⟩

end Manager

namespace KVCacheManager

variable [DecidableEq H] {cfg : KVConfig} {kv kv' : KVCacheManager H} {r : Request H}
  {args : AllocArgs}

/-- The hits given to a call of `allocate_slots`, empty lists by default. -/
def givenHits (kv : KVCacheManager H) (args : AllocArgs) : List (List BlockId) :=
  args.newComputedBlocks.getD kv.createEmptyBlockList

/-- Blocks that arrived are cached in all groups, with prefix caching. -/
theorem cacheBlocks_cases (done : kv.cacheBlocks cfg r numTokens = .ok kv') :
    (cfg.enableCaching = false ∧ kv' = kv) ∨
      cfg.enableCaching = true ∧ cacheAll (cfg.event r) r.requestId r.blockHashes numTokens kv.managers
        kv.blockPool = .ok (kv'.managers, kv'.blockPool) := by
  unfold KVCacheManager.cacheBlocks at done
  split at done
  · rename_i enabled
    obtain ⟨⟨ms, p⟩, cached, built⟩ := bind_eq_ok.mp done
    cases built
    exact .inr ⟨enabled, cached⟩
  · rename_i disabled
    cases done
    exact .inl ⟨by simpa using disabled, rfl⟩

/-- A call caches the full blocks at its end, with prefix caching and unless their tokens come later. -/
theorem cacheCommitted_cases {ms ms' : List Manager}
    (done : cacheCommitted cfg r args ms p = .ok (ms', p')) :
    ((cfg.enableCaching = false ∨ args.delayCacheBlocks = true) ∧ ms' = ms ∧ p' = p) ∨
      cfg.enableCaching = true ∧ args.delayCacheBlocks = false ∧
        cacheAll (cfg.event r) r.requestId r.blockHashes (tokensToCache r args) ms p = .ok (ms', p') := by
  unfold cacheCommitted at done
  split at done
  · rename_i off
    cases done
    exact .inl ⟨by simpa using off, rfl, rfl⟩
  · rename_i on
    simp only [Bool.or_eq_true, Bool.not_eq_true', not_or, Bool.not_eq_false, Bool.not_eq_true] at on
    exact .inr ⟨on.1, on.2, done⟩

/-- The four parts behind the check of the free blocks: touch, save, extend and cache. -/
theorem commitSlots_cases {hits new : List (List BlockId)}
    (done : commitSlots cfg kv r args hits = .ok (new, kv')) :
    ∃ p₁ ms₂ ms₃ p₃, touchComputed cfg kv.blockPool hits = .ok p₁ ∧
      saveNewComputedBlocks r.requestId kv.managers hits = .ok ms₂ ∧
      allocateNewBlocks r.requestId (tokensNeedSlot cfg r args) args.numEncoderTokens ms₂ p₁ =
        .ok (new, ms₃, p₃) ∧
      cacheCommitted cfg r args ms₃ p₃ = .ok (kv'.managers, kv'.blockPool) := by
  obtain ⟨p₁, touched, tail⟩ := bind_eq_ok.mp done
  obtain ⟨ms₂, saved, tail⟩ := bind_eq_ok.mp tail
  obtain ⟨⟨new', ms₃, p₃⟩, allocated, tail⟩ := bind_eq_ok.mp tail
  obtain ⟨⟨ms₄, p₄⟩, cached, built⟩ := bind_eq_ok.mp tail
  cases built
  exact ⟨p₁, ms₂, ms₃, p₃, touched, saved, allocated, cached⟩

/-- A call first removes skipped blocks; it is refused then, or the slots are committed. -/
theorem allocateSlots_cases {result : Option (List (List BlockId))}
    (done : kv.allocateSlots cfg r args = .ok (result, kv')) :
    ∃ ms p, removeSkippedBlocks r.requestId r.numComputedTokens kv.managers kv.blockPool =
        .ok (ms, p) ∧
      ((result = none ∧ kv' = ⟨p, ms⟩) ∨ ∃ new, result = some new ∧
        commitSlots cfg ⟨p, ms⟩ r args (kv.givenHits args) = .ok (new, kv')) := by
  obtain ⟨_, _, tail⟩ := bind_eq_ok.mp done
  obtain ⟨⟨ms, p⟩, skip, tail⟩ := bind_eq_ok.mp tail
  refine ⟨ms, p, skip, ?_⟩
  dsimp only at tail
  split at tail
  · cases tail
    exact .inl ⟨rfl, rfl⟩
  · obtain ⟨⟨new, kv₂⟩, commit, built⟩ := bind_eq_ok.mp tail
    cases built
    exact .inr ⟨new, rfl, commit⟩

end KVCacheManager

end Mimir
