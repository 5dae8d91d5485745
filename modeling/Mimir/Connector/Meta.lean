import Mimir.Python.Seq
import Mimir.Request.Types
import Mathlib.Data.List.Nodup

/-! What the scheduler side of the connector tells the worker side about one request. -/

namespace Mimir

open Python List

variable {blockIds : List Nat} {blockSize slot : Nat}

/-- Floor-align a token count down to a multiple of the block size. -/
def alignToBlockSize (numTokens blockSize : Nat) : Nat := numTokens / blockSize * blockSize

/-- The slots of a list of blocks, block by block. -/
def slotsOf (blockSize : Nat) (blockIds : List Nat) : List Nat :=
  blockIds.flatMap fun block => (List.range blockSize).map fun offset => offset + block * blockSize

/-- `ReqMeta`: what to store or load for one request in one step. -/
structure ReqMeta where
  tokenIds : List TokenId
  slotMapping : List Nat
  isStore : Bool
  mmHashes : List String
  hitTokenCount : Int
  deriving DecidableEq

/-- `ReqMeta.make_meta`. -/
def ReqMeta.makeMeta (tokenIds : List TokenId) (blockIds : List Nat) (blockSize : Nat)
    (isStore : Bool) (mmHashes : List String) (hitTokenCount : Option Int) : ReqMeta :=
  let blocksTokens := blockIds.length * blockSize
  let alignedTokens := alignToBlockSize tokenIds.length blockSize
  let validNumTokens := min alignedTokens blocksTokens
  if validNumTokens = 0 then
    -- Nothing block-aligned to transfer.
    ⟨[], [], isStore, mmHashes, 0⟩
  else
    ⟨tokenIds.take validNumTokens, (slotsOf blockSize blockIds).take validNumTokens, isStore, mmHashes,
      min (hitTokenCount.getD validNumTokens) validNumTokens⟩

/-- An aligned count is not larger. -/
theorem alignToBlockSize_le (numTokens blockSize : Nat) :
    alignToBlockSize numTokens blockSize ≤ numTokens := Nat.div_mul_le_self ..

/-- A list of blocks has a slot for each of their positions. -/
@[simp] theorem slotsOf_length (blockSize : Nat) (blockIds : List Nat) :
    (slotsOf blockSize blockIds).length = blockIds.length * blockSize := by
  induction blockIds with
  | nil => simp [slotsOf]
  | cons block rest ih =>
    have split : slotsOf blockSize (block :: rest) =
        (List.range blockSize).map (fun offset => offset + block * blockSize) ++
          slotsOf blockSize rest := rfl
    rw [split, length_append, ih]
    simp only [length_map, length_range, length_cons]
    rw [Nat.add_mul]
    omega

/-- The slot of a position is in the block of the position, at its offset. -/
theorem slotsOf_getElem? (positive : 0 < blockSize) (blockIds : List Nat) (i : Nat) :
    (slotsOf blockSize blockIds)[i]? =
      blockIds[i / blockSize]?.map fun block => i % blockSize + block * blockSize := by
  induction blockIds generalizing i with
  | nil => simp [slotsOf]
  | cons block rest ih =>
    have split : slotsOf blockSize (block :: rest) =
        (List.range blockSize).map (fun offset => offset + block * blockSize) ++
          slotsOf blockSize rest := rfl
    rw [split]
    by_cases first : i < blockSize
    · -- A position of the first block.
      rw [getElem?_append_left (by simpa using first), Nat.div_eq_of_lt first,
        Nat.mod_eq_of_lt first]
      simp [getElem?_range first]
    · -- Later positions count from the second block on.
      have later : i / blockSize = (i - blockSize) / blockSize + 1 :=
        Nat.div_eq_sub_div positive (by omega)
      have offset : (i - blockSize) % blockSize = i % blockSize :=
        (Nat.mod_eq_sub_mod (by omega)).symm
      rw [getElem?_append_right (by simpa using first), length_map, length_range, ih,
        later, getElem?_cons_succ, offset]

/-- A slot lies in one of the blocks. -/
theorem mem_slotsOf (member : slot ∈ slotsOf blockSize blockIds) :
    ∃ block ∈ blockIds, block * blockSize ≤ slot ∧ slot < (block + 1) * blockSize := by
  simp only [slotsOf, mem_flatMap, mem_map, mem_range] at member
  obtain ⟨block, inside, offset, small, rfl⟩ := member
  exact ⟨block, inside, by omega, by rw [Nat.add_mul]; omega⟩

/-- Distinct blocks have distinct slots. -/
theorem slotsOf_nodup (distinct : blockIds.Nodup) : (slotsOf blockSize blockIds).Nodup := by
  induction blockIds with
  | nil => simp [slotsOf]
  | cons block rest ih =>
    rw [nodup_cons] at distinct
    have split : slotsOf blockSize (block :: rest) =
        (List.range blockSize).map (fun offset => offset + block * blockSize) ++
          slotsOf blockSize rest := rfl
    rw [split, nodup_append']
    refine ⟨nodup_range.map fun a b same => by omega, ih distinct.2, ?_⟩
    -- A slot in both would lie in two different blocks.
    intro slot first later
    simp only [mem_map, mem_range] at first
    obtain ⟨offset, small, rfl⟩ := first
    obtain ⟨other, member, low, high⟩ := mem_slotsOf later
    have positive : 0 < blockSize := by omega
    have same : other = block := by
      have lower : other < block + 1 := by
        refine Nat.lt_of_mul_lt_mul_right (a := blockSize) ?_
        rw [Nat.add_mul]
        omega
      have upper : block < other + 1 := by
        refine Nat.lt_of_mul_lt_mul_right (a := blockSize) ?_
        omega
      omega
    exact distinct.1 (same ▸ member)

namespace ReqMeta

variable {tokenIds : List TokenId} {isStore : Bool}
  {mmHashes : List String} {hit : Option Int}

/-- The tokens a request can transfer. -/
def validNumTokens (numTokens numBlocks blockSize : Nat) : Nat :=
  min (alignToBlockSize numTokens blockSize) (numBlocks * blockSize)

/-- The fields of an entry, also when there is nothing to transfer. -/
theorem makeMeta_eq : makeMeta tokenIds blockIds blockSize isStore mmHashes hit =
    ⟨tokenIds.take (validNumTokens tokenIds.length blockIds.length blockSize),
      (slotsOf blockSize blockIds).take (validNumTokens tokenIds.length blockIds.length blockSize),
      isStore, mmHashes,
      if validNumTokens tokenIds.length blockIds.length blockSize = 0 then 0
      else min (hit.getD (validNumTokens tokenIds.length blockIds.length blockSize))
        (validNumTokens tokenIds.length blockIds.length blockSize)⟩ := by
  unfold makeMeta
  dsimp only
  change (if validNumTokens tokenIds.length blockIds.length blockSize = 0 then _ else _) = _
  split
  · rename_i zero
    rw [zero]
    simp
  · rfl

/-- An entry has as many slots as tokens. -/
theorem makeMeta_length :
    (makeMeta tokenIds blockIds blockSize isStore mmHashes hit).slotMapping.length =
        validNumTokens tokenIds.length blockIds.length blockSize ∧
      (makeMeta tokenIds blockIds blockSize isStore mmHashes hit).tokenIds.length =
        validNumTokens tokenIds.length blockIds.length blockSize := by
  have aligned := alignToBlockSize_le tokenIds.length blockSize
  rw [makeMeta_eq]
  simp only [length_take, slotsOf_length, validNumTokens]
  omega

/-- A hit is never longer than the slots it is loaded into. -/
theorem makeMeta_hit_le : (makeMeta tokenIds blockIds blockSize isStore mmHashes hit).hitTokenCount ≤
      (makeMeta tokenIds blockIds blockSize isStore mmHashes hit).slotMapping.length := by
  rw [makeMeta_length.1, makeMeta_eq]
  dsimp only
  split
  · omega
  · exact min_le_right ..

/-- The slots of distinct blocks are distinct. -/
theorem makeMeta_nodup (distinct : blockIds.Nodup) :
    (makeMeta tokenIds blockIds blockSize isStore mmHashes hit).slotMapping.Nodup := by
  rw [makeMeta_eq]
  exact (slotsOf_nodup distinct).sublist (take_sublist ..)

/-- The slots of blocks below a number lie below that many blocks. -/
theorem makeMeta_slot_lt {numBlocks : Nat} (bounded : ∀ block ∈ blockIds, block < numBlocks)
    (member : slot ∈ (makeMeta tokenIds blockIds blockSize isStore mmHashes hit).slotMapping) :
    slot < numBlocks * blockSize := by
  rw [makeMeta_eq] at member
  obtain ⟨block, inside, -, high⟩ := mem_slotsOf (mem_of_mem_take member)
  exact high.trans_le (Nat.mul_le_mul_right _ (bounded block inside))

end ReqMeta

end Mimir
