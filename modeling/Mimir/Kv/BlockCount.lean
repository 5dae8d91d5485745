import Mimir.Kv.Slots

/-! How many blocks a request has after its slots are allocated, for one group of any attention type. -/

namespace Mimir

open Python

variable {H : Type} {m : Manager} {numTokens : Int}

/-- The attention types whose groups are sized by the tokens of a request alone. -/
def SpecKind.Sized (kind : SpecKind) : Prop := kind ≠ .crossAttention ∧ ∀ n, kind ≠ .mamba n

namespace Manager

variable {m' : Manager} {p p' : BlockPool H} {id : RequestId}

/-- Such a group needs slots for the tokens it is asked for. -/
theorem tokensNeeded_sized (sized : m.spec.kind.Sized) (numTokens : Int) :
    m.tokensNeeded numTokens = numTokens := by
  unfold tokensNeeded
  split
  · rename_i n kind
    exact absurd kind (sized.2 n)
  · rfl

/-- Skipped blocks leave placeholders behind. -/
theorem removeSkippedBlocks_length {numComputedTokens : Int}
    (done : m.removeSkippedBlocks p id numComputedTokens = .ok (m', p')) :
    m'.layout = m.layout ∧ (m'.blocksOf id).length = (m.blocksOf id).length := by
  obtain ⟨blocks, removed, what, -, list, state⟩ := removeSkippedBlocks_cases done
  refine ⟨?_, by rw [list]; exact what.length⟩
  rcases state with rfl | rfl
  · rfl
  · rfl

/-- Saving hits leaves the layout alone. -/
theorem saveNewComputedBlocks_layout {hits : List BlockId}
    (done : m.saveNewComputedBlocks id hits = .ok m') : m'.layout = m.layout := by
  rcases saveNewComputedBlocks_cases done with ⟨_, rfl, _⟩ | ⟨_, _, _, rfl⟩
  · rfl
  · rfl

variable [DecidableEq H]

/-- A list grows to the blocks its tokens need, and never shrinks. -/
theorem allocateNewBlocks_length {new : List BlockId}
    (done : m.allocateNewBlocks p id numTokens = .ok (new, m', p')) :
    m'.layout = m.layout ∧ ((m'.blocksOf id).length : Int) =
      max ((m.blocksOf id).length : Int) (cdiv (m.tokensNeeded numTokens) m.blockSize) := by
  rcases allocateNewBlocks_cases done with ⟨enough, rfl, rfl, rfl⟩ | ⟨short, got, rfl⟩
  · exact ⟨rfl, by rw [max_eq_left enough]⟩
  · -- The pool hands out as many blocks as it is asked for.
    obtain ⟨_, room, tail⟩ := bind_eq_ok.mp got
    obtain ⟨_, _, taken⟩ := bind_eq_ok.mp tail
    cases taken
    rw [require_eq_ok, BlockPool.getNumFreeBlocks] at room
    refine ⟨rfl, ?_⟩
    rw [blocksOf_withBlocks, if_pos rfl, List.length_append, List.length_take, min_eq_left room,
      max_eq_right short.le]
    omega

/-- Caching leaves the lists alone. -/
theorem cacheBlocks_list {event : Option Bool} {hashes : List H}
    (done : m.cacheBlocks p event id hashes numTokens = .ok (m', p')) :
    m'.layout = m.layout ∧ m'.reqToBlocks = m.reqToBlocks := by
  obtain ⟨_, _, _, rfl⟩ := cacheBlocks_cases done
  exact ⟨rfl, rfl⟩

end Manager

namespace KVCacheManager

variable [DecidableEq H] {cfg : KVConfig} {kv kv' : KVCacheManager H}
  {r : Request H} {args : AllocArgs}

/-- With one group, a successful call of `allocate_slots` leaves as many blocks as its tokens need. -/
theorem allocateSlots_length {new : List (List BlockId)} (only : kv.managers = [m])
    (kind : m.spec.kind ≠ .crossAttention)
    (done : kv.allocateSlots cfg r args = .ok (some new, kv')) :
    ∃ m', kv'.managers = [m'] ∧ m'.layout = m.layout ∧
      ((m'.blocksOf r.requestId).length : Int) =
        max ((m.blocksOf r.requestId).length +
            ((args.newComputedBlocks.getD kv.createEmptyBlockList).headD []).length : Int)
          (cdiv (m.tokensNeeded (tokensNeedSlot cfg r args)) m.blockSize) := by
  obtain ⟨ms₁, p₁, skip, ⟨none, _⟩ | ⟨_, some, commit⟩⟩ := allocateSlots_cases done
  · cases none
  · cases some
    rw [only] at skip
    obtain ⟨⟨m₁, p₁'⟩, skipped, rest⟩ := bind_eq_ok.mp skip
    cases rest
    obtain ⟨p₂, ms₂, ms₃, p₃, _, save, allocate, cache⟩ := commitSlots_cases commit
    obtain ⟨m₂, saved, rest⟩ := bind_eq_ok.mp save
    cases rest
    obtain ⟨⟨new₃, m₃, p₃'⟩, extended, rest⟩ := bind_eq_ok.mp allocate
    cases rest
    obtain ⟨layout₁, length₁⟩ := Manager.removeSkippedBlocks_length skipped
    have layout₂ := Manager.saveNewComputedBlocks_layout saved
    have list₂ := Manager.saveNewComputedBlocks_list saved
    have layout : m₂.layout = m.layout := layout₂.trans layout₁
    have spec : m₂.spec = m.spec := congrArg Prod.fst layout
    have size : m₂.blockSize = m.blockSize := congrArg (fun l => l.2.1) layout
    -- The group takes slots for tokens, not for encoder inputs.
    have grown : m₂.allocateNewBlocks p₂ r.requestId (tokensNeedSlot cfg r args) =
        .ok (new₃, m₃, p₃) := by
      split at extended
      · rename_i cross
        rw [spec] at cross
        exact absurd cross kind
      · exact extended
    obtain ⟨layout₃, length₃⟩ := Manager.allocateNewBlocks_length grown
    have needed : m₂.tokensNeeded (tokensNeedSlot cfg r args) =
        m.tokensNeeded (tokensNeedSlot cfg r args) := by
      unfold Manager.tokensNeeded
      rw [spec]
    rw [list₂, List.length_append, length₁, needed, size] at length₃
    push_cast at length₃
    rcases cacheCommitted_cases cache with ⟨_, same, _⟩ | ⟨_, _, cached⟩
    · exact ⟨m₃, same, layout₃.trans layout, length₃⟩
    · obtain ⟨⟨m₄, p₄⟩, cached, rest⟩ := bind_eq_ok.mp cached
      obtain ⟨layout₄, lists₄⟩ := Manager.cacheBlocks_list cached
      refine ⟨m₄, ?_, layout₄.trans (layout₃.trans layout), ?_⟩
      · simpa using (congrArg Prod.fst (Except.ok.inj rest)).symm
      · unfold Manager.blocksOf at length₃ ⊢
        rw [lists₄]
        exact length₃

/-- Caching in all groups leaves the lists alone. -/
theorem cacheBlocks_getBlocks (done : kv.cacheBlocks cfg r numTokens = .ok kv')
    (id : RequestId) : kv'.getBlocks id = kv.getBlocks id := by
  have all : ∀ {ms ms' : List Manager} {p p' : BlockPool H},
      cacheAll (cfg.event r) r.requestId r.blockHashes numTokens ms p = .ok (ms', p') →
      ms'.map (fun m => m.blocksOf id) = ms.map fun m => m.blocksOf id := by
    intro ms
    induction ms with
    | nil =>
      intro ms' p p' cached
      cases cached
      rfl
    | cons m ms ih =>
      intro ms' p p' cached
      obtain ⟨⟨m₁, p₁⟩, first, tail⟩ := bind_eq_ok.mp cached
      obtain ⟨⟨ms₁, p₂⟩, later, built⟩ := bind_eq_ok.mp tail
      cases built
      rw [List.map_cons, List.map_cons, ih later]
      unfold Manager.blocksOf
      rw [(Manager.cacheBlocks_list first).2]
  rcases cacheBlocks_cases done with ⟨_, rfl⟩ | ⟨_, cached⟩
  · rfl
  · exact all cached

end KVCacheManager

end Mimir
