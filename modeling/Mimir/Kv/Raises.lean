import Mimir.Kv.CacheManager
import Mimir.Kv.PoolLaws

/-! Which exceptions the lookups and the caching of blocks can raise. -/

namespace Mimir

open Python

/-- An exception that is not the assertion on saving computed blocks. -/
def Unrelated (e : Err) : Prop := e.site ≠ .saveNewComputedBlocks

variable {H : Type} [DecidableEq H]

section Hits

/-- The scan of a sliding window raises only on a missing hash. -/
theorem slidingWindowScan_sat (p : BlockPool H) (groupIds : List Nat) (blockHashes : List H)
    (needed : Int) (i contiguous : Nat) (computed : List (List BlockId)) :
    Sat (slidingWindowScan p groupIds blockHashes needed i contiguous computed) (fun _ => True)
      Unrelated := by
  induction i generalizing contiguous computed with
  | zero => exact Sat.ok trivial
  | succ i ih =>
    refine Sat.found (by simp [Unrelated]) fun blockHash _ => ?_
    dsimp only
    split
    · split
      · exact Sat.ok trivial
      · exact ih _ _
    · exact ih _ _

/-- The scan of a chunk raises only on a missing hash. -/
theorem chunkedLocalScan_sat (p : BlockPool H) (groupIds : List Nat) (blockHashes : List H)
    (count i : Nat) (computed : List (List BlockId)) :
    Sat (chunkedLocalScan p groupIds blockHashes count i computed) (fun _ => True) Unrelated := by
  induction count generalizing i computed with
  | zero => exact Sat.ok trivial
  | succ count ih =>
    refine Sat.found (by simp [Unrelated]) fun blockHash _ => ?_
    split
    · exact ih _ _
    · exact Sat.ok trivial

/-- A lookup of any attention type raises nothing about saving blocks. -/
theorem findLongestCacheHit_sat (p : BlockPool H) (spec : KVCacheSpec) (dcp : Nat)
    (groupIds : List Nat) (useEagle : Bool) (blockHashes : List H) (maxLength : Int) :
    Sat (findLongestCacheHit p spec dcp groupIds useEagle blockHashes maxLength) (fun _ => True)
      Unrelated := by
  unfold findLongestCacheHit
  split
  · exact Sat.ok trivial
  · refine Sat.guarded (by simp [Unrelated]) fun _ => ?_
    exact Sat.bind (slidingWindowScan_sat _ _ _ _ _ _ _) fun _ _ => Sat.ok trivial
  · refine Sat.guarded (by simp [Unrelated]) fun _ => ?_
    refine Sat.guarded (by simp [Unrelated]) fun _ => ?_
    exact chunkedLocalScan_sat _ _ _ _ _ _
  · exact Sat.guarded (by simp [Unrelated]) fun _ => Sat.ok trivial
  · exact Sat.error (by simp [Unrelated])

end Hits

section Caching

/-- The caching loop raises only about hashes. -/
theorem cacheFullBlocksLoop_sat (groupId : Nat) (p : BlockPool H) (blocks : List BlockId)
    (hashes : List H) :
    Sat (BlockPool.cacheFullBlocksLoop groupId p blocks hashes) (fun _ => True) Unrelated := by
  induction blocks generalizing p hashes with
  | nil => exact Sat.ok trivial
  | cons b rest ih =>
    cases hashes with
    | nil => exact Sat.error (by simp [Unrelated])
    | cons =>
      refine Sat.bind (Q := fun _ => True) ?_ fun _ _ => ih _ _
      exact Sat.guarded (by simp [Unrelated]) fun _ => Sat.ok trivial

theorem manager_cacheBlocks_sat (m : Manager) (p : BlockPool H) (event : Option Bool) (id : RequestId)
    (blockHashes : List H) (numTokens : Int) :
    Sat (m.cacheBlocks p event id blockHashes numTokens) (fun _ => True) Unrelated := by
  unfold Manager.cacheBlocks
  split
  · exact Sat.error (by simp [Unrelated])
  · refine Sat.found (by simp [Unrelated]) fun _ _ => ?_
    refine Sat.bind (Q := fun _ => True) ?_ fun _ _ => Sat.ok trivial
    unfold BlockPool.cacheFullBlocks
    split
    · exact Sat.ok trivial
    · refine Sat.guarded (by simp [Unrelated]) fun _ => ?_
      refine Sat.bind (cacheFullBlocksLoop_sat _ _ _ _) fun _ _ => ?_
      refine Sat.bind (Q := fun _ => True) ?_ fun _ _ => Sat.ok trivial
      have guard {c : Prop} [Decidable c] {e : Err} (other : Unrelated e) :
          Sat (require c e) (fun _ => True) Unrelated :=
        Sat.mono (Sat.require fun _ => other) (fun _ _ => trivial) fun _ same => same
      unfold BlockPool.storedEvent
      split
      · exact Sat.ok trivial
      · refine Sat.bind (Q := fun _ => True) ?_ fun _ _ => guard (by simp [Unrelated])
        split
        · exact Sat.ok trivial
        · exact Sat.found (by simp [Unrelated]) fun _ _ => guard (by simp [Unrelated])

/-- Caching in all groups raises nothing about saving computed blocks. -/
theorem cacheAll_sat (event : Option Bool) (id : RequestId) (blockHashes : List H) (numTokens : Int)
    (managers : List Manager) (p : BlockPool H) :
    Sat (KVCacheManager.cacheAll event id blockHashes numTokens managers p) (fun _ => True) Unrelated := by
  induction managers generalizing p with
  | nil => exact Sat.ok trivial
  | cons m ms ih =>
    refine Sat.bind (manager_cacheBlocks_sat _ _ _ _ _ _) fun _ _ => ?_
    exact Sat.bind (ih _) fun _ _ => Sat.ok trivial

end Caching

section Slots

omit [DecidableEq H] in
/-- Touching raises only about the free queue. -/
theorem touch_sat (p : BlockPool H) (groups : List (List BlockId)) :
    Sat (p.touch groups) (fun _ => True) Unrelated := by
  rw [p.touch_eq]
  induction groups.flatten generalizing p with
  | nil => exact Sat.ok trivial
  | cons b rest ih =>
    refine Sat.bind (Q := fun _ => True) ?_ fun _ _ => ih _
    refine Sat.bind (Q := fun _ => True) ?_ fun _ _ => Sat.ok trivial
    unfold BlockPool.leaveFreeQueue
    split
    · exact Sat.guarded (by simp [Unrelated]) fun _ => Sat.ok trivial
    · exact Sat.ok trivial

omit [DecidableEq H] in
/-- Removing skipped blocks raises only about a list that is too short. -/
theorem removeSkippedBlocks_sat (id : RequestId) (numComputedTokens : Int) (managers : List Manager)
    (p : BlockPool H) :
    Sat (KVCacheManager.removeSkippedBlocks id numComputedTokens managers p) (fun _ => True)
      Unrelated := by
  have drop : ∀ (i : Nat) (blocks : List BlockId),
      Sat (Manager.dropBelow i blocks) (fun _ => True) Unrelated := by
    intro i
    induction i with
    | zero => exact fun _ => Sat.ok trivial
    | succ i ih =>
      intro blocks
      unfold Manager.dropBelow
      split
      · exact Sat.error (by simp [Unrelated])
      · split
        · exact Sat.ok trivial
        · exact Sat.bind (ih _) fun _ _ => Sat.ok trivial
  induction managers generalizing p with
  | nil => exact Sat.ok trivial
  | cons m ms ih =>
    refine Sat.bind (Q := fun _ => True) ?_ fun _ _ =>
      Sat.bind (ih _) fun _ _ => Sat.ok trivial
    unfold Manager.removeSkippedBlocks
    split
    · exact Sat.bind (drop _ _) fun _ _ => Sat.ok trivial
    · exact Sat.bind (drop _ _) fun _ _ => Sat.ok trivial
    · exact Sat.ok trivial

/-- Taking new blocks raises only about the pool. -/
theorem allocateNewBlocks_sat (id : RequestId) (numTokens numEncoderTokens : Int)
    (managers : List Manager) (p : BlockPool H) :
    Sat (KVCacheManager.allocateNewBlocks id numTokens numEncoderTokens managers p) (fun _ => True)
      Unrelated := by
  have claim : ∀ (blocks : List BlockId) (p : BlockPool H),
      Sat (p.claimBlocks blocks) (fun _ => True) Unrelated := by
    intro blocks
    induction blocks with
    | nil => exact fun _ => Sat.ok trivial
    | cons b rest ih =>
      intro p
      exact Sat.guarded (by simp [Unrelated]) fun _ => ih _
  have take : ∀ (m : Manager) (p : BlockPool H) (tokens : Int),
      Sat (m.allocateNewBlocks p id tokens) (fun _ => True) Unrelated := by
    intro m p tokens
    unfold Manager.allocateNewBlocks
    dsimp only
    split
    · exact Sat.ok trivial
    · refine Sat.bind (Q := fun _ => True) ?_ fun _ _ => Sat.ok trivial
      refine Sat.guarded (by simp [Unrelated]) fun _ => ?_
      exact Sat.bind (claim _ _) fun _ _ => Sat.ok trivial
  induction managers generalizing p with
  | nil => exact Sat.ok trivial
  | cons m ms ih =>
    exact Sat.bind (take _ _ _) fun _ _ => Sat.bind (ih _) fun _ _ => Sat.ok trivial

end Slots

namespace KVCacheManager

theorem cacheBlocks_sat (cfg : KVConfig) (kv : KVCacheManager H) (r : Request H) (n : Int) :
    Sat (kv.cacheBlocks cfg r n) (fun _ => True) Unrelated := by
  unfold cacheBlocks
  split
  · exact Sat.bind (cacheAll_sat _ _ _ _ _ _) fun _ _ => Sat.ok trivial
  · exact Sat.ok trivial

/-- A lookup of the coordinator raises nothing about saving blocks. -/
theorem findLongestHit_sat (cfg : KVConfig) (kv : KVCacheManager H) (blockHashes : List H)
    (maxLength : Int) :
    Sat (findLongestHit cfg kv blockHashes maxLength) (fun _ => True) Unrelated := by
  unfold findLongestHit
  split
  · split
    · exact Sat.bind (findLongestCacheHit_sat _ _ _ _ _ _ _) fun _ _ => Sat.ok trivial
    · split
      · refine Sat.bind (findLongestCacheHit_sat _ _ _ _ _ _ _) fun _ _ => ?_
        refine Sat.bind (findLongestCacheHit_sat _ _ _ _ _ _ _) fun _ _ => ?_
        exact Sat.guarded (by simp [Unrelated]) fun _ => Sat.ok trivial
      · exact Sat.error (by simp [Unrelated])
  · exact Sat.ok trivial

theorem getComputedBlocks_sat (cfg : KVConfig) (kv : KVCacheManager H) (r : Request H) :
    Sat (kv.getComputedBlocks cfg r) (fun _ => True) Unrelated := by
  unfold getComputedBlocks
  split
  · exact Sat.ok trivial
  · exact findLongestHit_sat _ _ _ _

end KVCacheManager

end Mimir
