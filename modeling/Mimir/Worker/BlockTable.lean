import Mimir.Request.Types
import Mathlib.Algebra.BigOperators.Intervals
import Mathlib.Data.List.Nodup
import Mathlib.Tactic.Positivity

/-! Slots and local lengths of a sequence whose cache is spread over decode-context-parallel ranks. -/

namespace Mimir

open Python List

variable {t : BlockTable} {i k s : Nat}

/-- What an `int32` array holds of an integer. -/
def toInt32 (x : Int) : Int := x.bmod (2 ^ 32)

/-- `BlockTable` of a rank, with `block_table_np` row by row. -/
structure BlockTable where
  blockSize : Nat
  maxNumBlocksPerReq : Nat
  rows : List (List Nat)
  wide : ∀ row ∈ rows, row.length = maxNumBlocksPerReq
  dcpWorldSize : Nat
  dcpRank : Nat

namespace BlockTable

/-- The flattened table at an index. -/
def blockNumber (t : BlockTable) (index : Nat) : Except Err Nat :=
  orRaise t.rows.flatten[index]? ⟨.index, .blockTableIndex⟩

/-- The slot of one token. -/
def slot (t : BlockTable) (reqIndex position : Nat) : Except Err Int :=
  if t.dcpWorldSize > 1 then do
    -- A virtual block holds the tokens of a block on every rank.
    let virtualBlockSize := t.blockSize * t.dcpWorldSize
    let blockNumber ← t.blockNumber (reqIndex * t.maxNumBlocksPerReq + position / virtualBlockSize)
    let virtualBlockOffset := position % virtualBlockSize
    let blockOffset := virtualBlockOffset / t.dcpWorldSize
    -- The product is computed in the type of the table, the sum in that of the positions.
    let slotMapping := toInt32 (blockNumber * t.blockSize) + blockOffset
    .ok (if virtualBlockOffset % t.dcpWorldSize = t.dcpRank then slotMapping else -1)
  else do
    let blockNumber ← t.blockNumber (reqIndex * t.maxNumBlocksPerReq + position / t.blockSize)
    let blockOffset := position % t.blockSize
    .ok (toInt32 (blockNumber * t.blockSize) + blockOffset)

/-- `compute_slot_mapping`. -/
def computeSlotMapping (t : BlockTable) (reqIndices positions : List Nat) : Except Err (List Int) :=
  (reqIndices.zip positions).mapM fun token => t.slot token.1 token.2

end BlockTable

/-- The length of a decode request on a rank, as `MLACommonMetadataBuilder.build` computes it. -/
def localSeqLen (dcpWorldSize dcpRank seqLen : Nat) : Nat :=
  if dcpWorldSize > 1 then
    seqLen / dcpWorldSize + (if (dcpRank : Int) ≤ ((seqLen : Int) - 1) % dcpWorldSize then 1 else 0)
  else seqLen

/-- `build`, on the sequence lengths: only decode requests are split over the ranks. -/
def buildSeqLens (dcpWorldSize dcpRank numDecodes : Nat) (seqLens : List Nat) : List Nat :=
  (seqLens.take numDecodes).map (localSeqLen dcpWorldSize dcpRank) ++ seqLens.drop numDecodes

section Slots

variable {row : List Nat} {p : Nat}

/-- A number that fits is held as it is. -/
theorem toInt32_of_lt {x : Int} (nonneg : 0 ≤ x) (fits : x < 2 ^ 31) : toInt32 x = x := by
  unfold toInt32
  exact Int.bmod_eq_of_le (by omega) (by omega)

variable {block : Nat}

/-- Rows of one width follow each other in the flattened table. -/
theorem getElem?_flatten_row {rows : List (List Nat)} {width : Nat}
    (wide : ∀ row ∈ rows, row.length = width) (found : rows[i]? = some row) (inside : k < width) :
    rows.flatten[i * width + k]? = row[k]? := by
  -- The induction is on the rows before the one looked at.
  induction rows generalizing i with
  | nil => simp at found
  | cons first rest ih =>
    have size : first.length = width := wide first (mem_cons_self ..)
    rw [flatten_cons]
    cases i with
    | zero =>
      rw [getElem?_cons_zero, Option.some.injEq] at found
      subst found
      rw [Nat.zero_mul, Nat.zero_add, getElem?_append_left (by omega)]
    | succ i =>
      rw [getElem?_cons_succ] at found
      have later := ih (fun x member => wide x (mem_cons_of_mem _ member)) found
      have offset : (i + 1) * width + k - first.length = i * width + k := by
        rw [size, Nat.succ_mul]
        omega
      have behind : first.length ≤ (i + 1) * width + k := by
        rw [size, Nat.succ_mul]
        omega
      rw [getElem?_append_right behind, offset]
      exact later

/-- The block of a row that the flattened table gives. -/
theorem BlockTable.blockNumber_eq (found : t.rows[i]? = some row) (held : row[k]? = some block) :
    t.blockNumber (i * t.maxNumBlocksPerReq + k) = .ok block := by
  have size : row.length = t.maxNumBlocksPerReq := t.wide row (mem_of_getElem? found)
  have inside : k < t.maxNumBlocksPerReq := by
    rw [← size]
    exact (List.getElem?_eq_some_iff.mp held).1
  unfold blockNumber
  rw [getElem?_flatten_row t.wide found inside, held]
  rfl

/-- The token at a position is on the rank of its residue. -/
theorem virtualOffset_mod (b d p : Nat) : p % (b * d) % d = p % d :=
  Nat.mod_mod_of_dvd p (Nat.dvd_mul_left d b)

/-- Within its virtual block a token stands at the offset of its local index. -/
theorem virtualOffset_div (b d p : Nat) : p % (b * d) / d = p / d % b := by
  rw [Nat.mul_comm b d, Nat.mod_mul_right_div_self]

/-- The slot of a token whose block is in the row. -/
theorem BlockTable.slot_eq (positive : 0 < t.dcpWorldSize)
    (rank : t.dcpRank < t.dcpWorldSize) (found : t.rows[i]? = some row)
    (held : row[p / t.dcpWorldSize / t.blockSize]? = some block)
    (fits : block * t.blockSize < 2 ^ 31) :
    t.slot i p = .ok (if p % t.dcpWorldSize = t.dcpRank then
      ((block * t.blockSize + p / t.dcpWorldSize % t.blockSize : Nat) : Int) else -1) := by
  have product : toInt32 ((block : Int) * t.blockSize) = (block : Int) * t.blockSize :=
    toInt32_of_lt (by positivity) (by exact_mod_cast fits)
  unfold slot
  split
  · -- Several ranks: the virtual block of the token is the block of its local index.
    have index : p / (t.blockSize * t.dcpWorldSize) = p / t.dcpWorldSize / t.blockSize := by
      rw [Nat.mul_comm, Nat.div_div_eq_div_mul]
    dsimp only
    rw [index, blockNumber_eq found held]
    simp only [Bind.bind, Except.bind, virtualOffset_mod, virtualOffset_div, product]
    push_cast
    rfl
  · have single : t.dcpWorldSize = 1 := by omega
    have zero : t.dcpRank = 0 := by omega
    rw [single, Nat.div_one] at held
    dsimp only
    rw [blockNumber_eq found held]
    simp only [Bind.bind, Except.bind, product, single, zero, Nat.mod_one, Nat.div_one, if_true]
    push_cast
    rfl

/-- Slots of one row meet only within one block at one offset. -/
theorem slot_inj {b x y kx ky : Nat} (offsetX : kx < b) (offsetY : ky < b)
    (same : x * b + kx = y * b + ky) : x = y ∧ kx = ky := by
  have positive : 0 < b := by omega
  have quotient : (x * b + kx) / b = (y * b + ky) / b := by rw [same]
  rw [Nat.mul_comm x, Nat.mul_comm y, Nat.mul_add_div positive, Nat.mul_add_div positive,
    Nat.div_eq_of_lt offsetX, Nat.div_eq_of_lt offsetY] at quotient
  have blocks : x = y := by omega
  subst blocks
  exact ⟨rfl, by omega⟩

end Slots

section Lengths

/-- The positions of a sequence that are stored on a rank. -/
def localPositions (dcpWorldSize dcpRank seqLen : Nat) : List Nat :=
  (List.range seqLen).filter fun p => p % dcpWorldSize = dcpRank

variable {d r : Nat}

/-- How many positions a rank stores. -/
theorem length_localPositions (rank : r < d) (s : Nat) :
    (localPositions d r s).length = s / d + (if r < s % d then 1 else 0) := by
  -- Position after position: a new one counts on the rank of its residue.
  induction s with
  | zero => simp [localPositions]
  | succ s ih =>
    unfold localPositions at ih ⊢
    rw [range_succ, filter_append, length_append, ih]
    have whole := Nat.div_add_mod s d
    by_cases last : s % d + 1 = d
    · -- The next position opens a new round.
      have next : s + 1 = d * (s / d + 1) := by
        rw [Nat.mul_add, Nat.mul_one]
        omega
      have quotient : (s + 1) / d = s / d + 1 := by
        rw [next, Nat.mul_div_cancel_left _ (by omega)]
      have remainder : (s + 1) % d = 0 := by
        rw [next]
        exact Nat.mul_mod_right _ _
      rw [quotient, remainder]
      by_cases here : s % d = r
      · simp [here]
      · simp [here, show r < s % d by omega]
    · have below : s % d < d := Nat.mod_lt s (by omega)
      have next : s + 1 = s % d + 1 + d * (s / d) := by omega
      have quotient : (s + 1) / d = s / d := by
        conv_lhs => rw [next]
        rw [Nat.add_mul_div_left _ _ (by omega), Nat.div_eq_of_lt (by omega), Nat.zero_add]
      have remainder : (s + 1) % d = s % d + 1 := by
        rw [← Nat.mod_add_mod]
        exact Nat.mod_eq_of_lt (by omega)
      rw [quotient, remainder]
      by_cases here : s % d = r
      · simp [here]
      · by_cases before : r < s % d
        · simp [here, before, show r < s % d + 1 by omega]
        · simp [here, before, show ¬ r < s % d + 1 by omega]

/-- The length `build` computes counts one position too many on every rank whenever the length of the
sequence is a multiple of the number of ranks. -/
theorem localSeqLen_eq (rank : r < d) (some : 0 < s) :
    localSeqLen d r s = (localPositions d r s).length + (if 1 < d ∧ d ∣ s then 1 else 0) := by
  rw [length_localPositions rank]
  unfold localSeqLen
  by_cases several : d > 1
  · have cast : ((s : Int) - 1) % d = (((s - 1) % d : Nat) : Int) := by
      have : ((s - 1 : Nat) : Int) = (s : Int) - 1 := by omega
      rw [← this]
      exact_mod_cast rfl
    rw [if_pos several, cast]
    by_cases divides : d ∣ s
    · obtain ⟨k, rfl⟩ := divides
      have positive : 0 < k := Nat.pos_of_mul_pos_left some
      have before : d * k - 1 = d * (k - 1) + (d - 1) := by
        obtain ⟨m, rfl⟩ := Nat.exists_eq_succ_of_ne_zero (by omega : k ≠ 0)
        rw [Nat.succ_sub_one, Nat.mul_succ]
        omega
      have remainder : (d * k - 1) % d = d - 1 := by
        rw [before, Nat.mul_add_mod]
        exact Nat.mod_eq_of_lt (by omega)
      have last : r ≤ d - 1 := by omega
      rw [remainder, Nat.mul_mod_right, if_pos (by exact_mod_cast last), if_neg (Nat.not_lt_zero r),
        if_pos ⟨several, Nat.dvd_mul_right d k⟩]
    · have nonzero : s % d ≠ 0 := fun zero => divides (Nat.dvd_of_mod_eq_zero zero)
      have remainder : (s - 1) % d = s % d - 1 := by
        have whole := Nat.div_add_mod s d
        have below : s % d < d := Nat.mod_lt s (by omega)
        have before : s - 1 = d * (s / d) + (s % d - 1) := by omega
        rw [before, Nat.mul_add_mod]
        exact Nat.mod_eq_of_lt (by omega)
      rw [remainder, if_neg (fun both : 1 < d ∧ d ∣ s => divides both.2)]
      by_cases before : r < s % d
      · rw [if_pos before, if_pos (by exact_mod_cast (by omega : r ≤ s % d - 1))]
      · rw [if_neg before, if_neg (by exact_mod_cast (by omega : ¬ r ≤ s % d - 1))]
  · have single : d = 1 := by omega
    subst single
    simp [Nat.mod_one]

/-- Every position is stored on exactly one rank. -/
theorem sum_localPositions (positive : 0 < d) (s : Nat) :
    ∑ r ∈ Finset.range d, (localPositions d r s).length = s := by
  induction s with
  | zero => simp [localPositions]
  | succ s ih =>
    have grown : ∀ r, (localPositions d r (s + 1)).length =
        (localPositions d r s).length + (if s % d = r then 1 else 0) := by
      intro r
      unfold localPositions
      rw [range_succ, filter_append, length_append]
      by_cases here : s % d = r <;> simp [here]
    simp only [grown, Finset.sum_add_distrib, ih, Finset.sum_ite_eq, Finset.mem_range,
      Nat.mod_lt s positive, if_true]

/-- One rank, or a length that the ranks do not share evenly. -/
theorem uneven_iff (positive : 0 < d) : ¬ (1 < d ∧ d ∣ s) ↔ d = 1 ∨ ¬ d ∣ s := by
  by_cases divides : d ∣ s
  · simp only [divides, and_true, not_true_eq_false, or_false]
    omega
  · simp [divides]

/-- The local lengths are right on a rank exactly if the length is not a multiple of the ranks. -/
theorem localSeqLen_right_iff (rank : r < d) (some : 0 < s) :
    localSeqLen d r s = (localPositions d r s).length ↔ d = 1 ∨ ¬ d ∣ s := by
  rw [localSeqLen_eq rank some, ← uneven_iff (by omega)]
  by_cases extra : 1 < d ∧ d ∣ s <;> simp [extra]

/-- A decode request of a batch gets its local length. -/
theorem getElem?_buildSeqLens {numDecodes : Nat} {seqLens : List Nat} (decode : k < numDecodes)
    (found : seqLens[k]? = some s) :
    (buildSeqLens d r numDecodes seqLens)[k]? = some (localSeqLen d r s) := by
  have below : k < seqLens.length := (List.getElem?_eq_some_iff.mp found).1
  unfold buildSeqLens
  rw [getElem?_append_left (by simp; omega), getElem?_map, getElem?_take_of_lt decode,
    found]
  rfl

/-- The local lengths sum to the length exactly if it is not a multiple of the ranks. -/
theorem sum_localSeqLen_iff (positive : 0 < d) (some : 0 < s) :
    ∑ r ∈ Finset.range d, localSeqLen d r s = s ↔ d = 1 ∨ ¬ d ∣ s := by
  have split : ∑ r ∈ Finset.range d, localSeqLen d r s =
      s + d * (if 1 < d ∧ d ∣ s then 1 else 0) := by
    calc ∑ r ∈ Finset.range d, localSeqLen d r s
        = ∑ r ∈ Finset.range d,
            ((localPositions d r s).length + (if 1 < d ∧ d ∣ s then 1 else 0)) :=
          Finset.sum_congr rfl fun r member => localSeqLen_eq (Finset.mem_range.mp member) some
      _ = s + d * (if 1 < d ∧ d ∣ s then 1 else 0) := by
          rw [Finset.sum_add_distrib, sum_localPositions positive, Finset.sum_const, Finset.card_range,
            nsmul_eq_mul, Nat.cast_id]
  rw [split, ← uneven_iff positive]
  by_cases extra : 1 < d ∧ d ∣ s
  · simp only [extra, and_self, if_true, not_true_eq_false, iff_false]
    omega
  · simp [extra]

end Lengths

section Ownership

variable {blocks padding : List Nat}

/-- Computing slots token by token. -/
theorem BlockTable.computeSlotMapping_eq {positions : List Nat} {value : Nat → Int}
    (all : ∀ p ∈ positions, t.slot i p = .ok (value p)) :
    t.computeSlotMapping (List.replicate positions.length i) positions =
      .ok (positions.map value) := by
  unfold computeSlotMapping
  induction positions with
  | nil => rfl
  | cons p rest ih =>
    rw [length_cons, replicate_succ, zip_cons_cons, mapM_cons,
      all p (mem_cons_self ..), ih fun x member => all x (mem_cons_of_mem _ member)]
    rfl

/-- Which slots the positions of a sequence get on a rank, and when the local lengths are right: slots
are always those of the rank's own positions, and lengths fail exactly at multiples of the ranks. -/
theorem contextParallel_ownership (positive : 0 < t.dcpWorldSize) (rank : t.dcpRank < t.dcpWorldSize)
    (sized : 0 < t.blockSize) (some : 0 < s) (found : t.rows[i]? = .some (blocks ++ padding))
    (distinct : blocks.Nodup) (covered : s ≤ blocks.length * (t.blockSize * t.dcpWorldSize))
    (fits : ∀ block ∈ blocks, block * t.blockSize < 2 ^ 31) :
    (∃ slot : Nat → Int,
      (∀ positions : List Nat, (∀ p ∈ positions, p < s) →
        t.computeSlotMapping (List.replicate positions.length i) positions =
          .ok (positions.map slot)) ∧
      (∀ p < s, 0 ≤ slot p ↔ p % t.dcpWorldSize = t.dcpRank) ∧
      (∀ p < s, p % t.dcpWorldSize ≠ t.dcpRank → slot p = -1) ∧
      (∀ j, j * t.dcpWorldSize + t.dcpRank < s → ∃ block, blocks[j / t.blockSize]? = .some block ∧
        slot (j * t.dcpWorldSize + t.dcpRank) = ((block * t.blockSize + j % t.blockSize : Nat) : Int)) ∧
      ∀ p < s, ∀ q < s, p % t.dcpWorldSize = t.dcpRank → q % t.dcpWorldSize = t.dcpRank →
        slot p = slot q → p = q) ∧
    (∀ (numDecodes k : Nat) (seqLens : List Nat), k < numDecodes → seqLens[k]? = .some s →
      ((buildSeqLens t.dcpWorldSize t.dcpRank numDecodes seqLens)[k]? =
          .some (localPositions t.dcpWorldSize t.dcpRank s).length ↔
        t.dcpWorldSize = 1 ∨ ¬ t.dcpWorldSize ∣ s)) ∧
    (∑ r ∈ Finset.range t.dcpWorldSize, localSeqLen t.dcpWorldSize r s = s ↔
      t.dcpWorldSize = 1 ∨ ¬ t.dcpWorldSize ∣ s) := by
  refine ⟨?_, fun numDecodes k seqLens decode held => ?_, sum_localSeqLen_iff positive some⟩
  rotate_left
  · rw [getElem?_buildSeqLens decode held, Option.some.injEq]
    exact localSeqLen_right_iff rank some
  set b := t.blockSize with b_def
  set d := t.dcpWorldSize with d_def
  -- The block of a position lies in the row, since the row covers the sequence.
  have inside : ∀ p < s, p / d / b < blocks.length := by
    intro p below
    rw [Nat.div_div_eq_div_mul, Nat.div_lt_iff_lt_mul (Nat.mul_pos positive sized), Nat.mul_comm d b]
    omega
  let blockAt : Nat → Nat := fun p => (blocks[p / d / b]?).getD 0
  have held : ∀ p < s, blocks[p / d / b]? = .some (blockAt p) := by
    intro p below
    show _ = Option.some ((blocks[p / d / b]?).getD 0)
    rw [getElem?_eq_getElem (inside p below)]
    rfl
  let slot : Nat → Int := fun p =>
    if p % d = t.dcpRank then ((blockAt p * b + p / d % b : Nat) : Int) else -1
  have computed : ∀ p < s, t.slot i p = .ok (slot p) := by
    intro p below
    have here : (blocks ++ padding)[p / d / b]? = .some (blockAt p) := by
      rw [getElem?_append_left (inside p below)]
      exact held p below
    exact BlockTable.slot_eq positive rank found here (fits _ (mem_of_getElem? (held p below)))
  have own : ∀ p, p % d = t.dcpRank → slot p = ((blockAt p * b + p / d % b : Nat) : Int) :=
    fun p mine => if_pos mine
  refine ⟨slot, fun positions below => ?_, fun p below => ?_, fun p below other => if_neg other,
    fun j below => ?_, fun p below q below' mine mine' same => ?_⟩
  · exact BlockTable.computeSlotMapping_eq fun p member => computed p (below p member)
  · constructor
    · intro nonneg
      by_contra other
      have value : slot p = -1 := if_neg other
      omega
    · intro mine
      rw [own p mine]
      positivity
  · -- The j-th local position is `j * d + r`.
    have quotient : (j * d + t.dcpRank) / d = j := by
      rw [Nat.mul_comm, Nat.mul_add_div positive, Nat.div_eq_of_lt rank, Nat.add_zero]
    have residue : (j * d + t.dcpRank) % d = t.dcpRank := by
      rw [Nat.mul_comm, Nat.mul_add_mod]
      exact Nat.mod_eq_of_lt rank
    have block := held _ below
    rw [quotient] at block
    refine ⟨_, block, ?_⟩
    rw [own _ residue, quotient]
  · -- Equal slots are in one block of the row at one offset, so the local indices are equal.
    rw [own p mine, own q mine'] at same
    obtain ⟨sameBlock, sameOffset⟩ := slot_inj (Nat.mod_lt _ sized) (Nat.mod_lt _ sized)
      (by exact_mod_cast same)
    have first := held p below
    have second := held q below'
    rw [sameBlock, ← second] at first
    rw [getElem?_eq_getElem (inside p below), getElem?_eq_getElem (inside q below'),
      Option.some.injEq] at first
    have index : p / d / b = q / d / b := distinct.getElem_inj_iff.mp first
    have localIndex : p / d = q / d := by
      rw [← Nat.div_add_mod (p / d) b, ← Nat.div_add_mod (q / d) b, index, sameOffset]
    rw [← Nat.div_add_mod p d, ← Nat.div_add_mod q d, localIndex, mine, mine']

/-- Two ranks with blocks of two tokens. -/
def twoRankTable (dcpRank : Nat) : BlockTable where
  blockSize := 2
  maxNumBlocksPerReq := 3
  rows := [[5, 3, 0]]
  wide := by simp
  dcpWorldSize := 2
  dcpRank := dcpRank

/-- A sequence of five tokens on the second of two ranks. -/
theorem contextParallel_ownership_five :
    ∃ slot : Nat → Int, (twoRankTable 1).computeSlotMapping [0, 0, 0, 0, 0] [0, 1, 2, 3, 4] =
      .ok ([0, 1, 2, 3, 4].map slot) ∧
      (buildSeqLens 2 1 1 [5, 8])[0]? = .some (localPositions 2 1 5).length := by
  obtain ⟨⟨slot, computed, _⟩, length, _⟩ := contextParallel_ownership (t := twoRankTable 1) (i := 0)
    (s := 5) (by decide) (by decide) (by decide) (by decide)
    (show (twoRankTable 1).rows[0]? = .some ([5, 3] ++ [0]) from rfl) (by decide) (by decide)
    (by decide)
  exact ⟨slot, computed [0, 1, 2, 3, 4] (by decide),
    (length 1 0 [5, 8] (by decide) rfl).mpr (.inr (by decide))⟩

/-- Two tokens on two ranks: each rank stores one of them and is told of two. -/
theorem localSeqLen_multiple_fails :
    buildSeqLens 2 0 1 [2] = [2] ∧ buildSeqLens 2 1 1 [2] = [2] ∧
      (localPositions 2 0 2).length = 1 ∧ (localPositions 2 1 2).length = 1 := by
  decide

end Ownership

end Mimir
