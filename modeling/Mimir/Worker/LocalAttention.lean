import Mimir.Kv.BlockPool
import Mimir.Theory.Ragged

/-! Chunked local attention by virtual batches: a request becomes one batch entry for each chunk it computes. -/

namespace Mimir

open Python Theory List

variable {c width blockSize j : Nat}

/-- The fields of `CommonAttentionMetadata` that the backends read here. -/
structure CommonAttentionMetadata where
  queryStartLoc : List Int
  seqLens : List Int
  numComputedTokens : List Int
  numReqs : Nat
  numActualTokens : Int
  maxQueryLen : Int
  maxSeqLen : Int
  blockTable : List (List BlockId)

/-- `make_local_attention_virtual_batches`. -/
def makeLocalAttentionVirtualBatches (attnChunkSize blockSize : Nat) (m : CommonAttentionMetadata) :
    Except Err CommonAttentionMetadata := do
  let c : Int := attnChunkSize
  let qSeqlens := diffs m.queryStartLoc
  let qTokensInFirstBlock :=
    List.zipWith (fun s q => min (c - (s - q).fmod c) q) m.seqLens qSeqlens
  let tokensInLastBlock := m.seqLens.map fun s => c + s.fmod (-c)
  let localBlocks :=
    List.zipWith (fun q first => (1 + cdiv (q - first) c).toNat) qSeqlens qTokensInFirstBlock
  let cuNumBlocks := cumsum localBlocks
  let virtualBatches ← orRaise cuNumBlocks.getLast? ⟨.index, .emptyBatch⟩
  -- The place of a virtual batch within its request, from the front and from the back.
  let blockOffsets := repeatEach (subEach cuNumBlocks (localBlocks.map Int.ofNat)) localBlocks
  let front := subEach (arange virtualBatches.toNat) blockOffsets
  let back := List.zipWith (fun n j => ((n : Nat) : Int) - j - 1) (repeatEach localBlocks localBlocks) front
  let seqlensQLocal := repeatEach (subEach qSeqlens qTokensInFirstBlock) localBlocks
  -- The first block may be partial, and so may the last one.
  let seqlensQLocal := maskAssign seqlensQLocal (front.map (· == 0)) qTokensInFirstBlock
  let seqlensQLocal :=
    List.zipWith (fun q j => if j > 0 then min (q - c * (j - 1)) c else q) seqlensQLocal front
  let cuSeqlensQLocal := seqlensQLocal.scanl (· + ·) 0
  let seqlensKLocal := setAt (List.replicate virtualBatches.toNat c) (cuNumBlocks.map (· - 1))
    tokensInLastBlock
  let kSeqstartsAbsolute := subEach (repeatEach m.seqLens localBlocks)
    (addEach (back.map (· * c)) (repeatEach tokensInLastBlock localBlocks))
  let blockStarts := kSeqstartsAbsolute.map fun k => k.fdiv blockSize
  require (attnChunkSize % blockSize = 0) ⟨.assertion, .chunkAlignment⟩
  let pagesPerLocalBatch := attnChunkSize / blockSize
  -- Indices behind the table are clipped; no query looks there.
  let width : Int := (m.blockTable.headD []).length
  let blockIndices := (blockStarts.flatMap fun b => (arange pagesPerLocalBatch).map (b + ·)).map
    (min · (width - 1))
  let batchIndices := repeatEach (List.range m.seqLens.length)
    (localBlocks.map (· * pagesPerLocalBatch))
  let entries ← (batchIndices.zip blockIndices).mapM fun entry =>
    orRaise ((m.blockTable[entry.1]?).bind (pyGet? · entry.2)) ⟨.index, .gatherIndex⟩
  .ok {
    queryStartLoc := cuSeqlensQLocal
    seqLens := seqlensKLocal
    numComputedTokens := subEach seqlensKLocal seqlensQLocal
    numReqs := seqlensKLocal.length
    numActualTokens := m.numActualTokens
    maxQueryLen := seqlensQLocal.foldl max 0
    maxSeqLen := seqlensKLocal.foldl max 0
    blockTable := (List.range virtualBatches.toNat).map fun v =>
      (entries.drop (v * pagesPerLocalBatch)).take pagesPerLocalBatch }

/-- Causal attention aligned at the end of each batch entry: for every query in order, the keys it attends to,
each as an entry of the block table and an offset in the block. -/
def causalKeys (blockSize : Nat) (m : CommonAttentionMetadata) : List (List (Option BlockId × Nat)) :=
  (((diffs m.queryStartLoc).zip m.seqLens).zip m.blockTable).flatMap fun entry =>
    (List.range entry.1.1.toNat).map fun (t : Nat) =>
      (List.range (entry.1.2 - entry.1.1 + (t : Int) + 1).toNat).map fun key =>
        (entry.2[key / blockSize]?, key % blockSize)

/-- A request of a batch: how many tokens it computes, how long it is then, and its blocks. -/
structure AttentionRequest where
  queryLen : Nat
  seqLen : Nat
  table : List BlockId

namespace AttentionRequest

/-- The batch of a list of requests. -/
def batch (requests : List AttentionRequest) : CommonAttentionMetadata where
  queryStartLoc := (requests.map fun r => (r.queryLen : Int)).scanl (· + ·) 0
  seqLens := requests.map fun r => (r.seqLen : Int)
  numComputedTokens := requests.map fun r => (r.seqLen : Int) - r.queryLen
  numReqs := requests.length
  numActualTokens := (requests.map fun r => (r.queryLen : Int)).sum
  maxQueryLen := (requests.map fun r => (r.queryLen : Int)).foldl max 0
  maxSeqLen := (requests.map fun r => (r.seqLen : Int)).foldl max 0
  blockTable := requests.map table

/-- Local attention as it is meant: the query at a position attends to the keys of its chunk up to it. -/
def localKeys (chunk blockSize : Nat) (r : AttentionRequest) : List (List (Option BlockId × Nat)) :=
  (List.range' (r.seqLen - r.queryLen) r.queryLen).map fun p =>
    ((List.range (p + 1)).filter fun k => k / chunk = p / chunk).map fun k =>
      (r.table[k / blockSize]?, k % blockSize)

/-- A request of a batch whose tables have a given width. -/
structure Fits (width blockSize : Nat) (r : AttentionRequest) : Prop where
  some : 0 < r.queryLen
  within : r.queryLen ≤ r.seqLen
  row : r.table.length = width
  wide : r.seqLen ≤ width * blockSize

/-- The chunk of the first query. -/
def firstChunk (chunk : Nat) (r : AttentionRequest) : Nat := (r.seqLen - r.queryLen) / chunk

/-- The chunks a request computes tokens of. -/
def numChunks (chunk : Nat) (r : AttentionRequest) : Nat :=
  (r.seqLen - 1) / chunk + 1 - r.firstChunk chunk

/-- The first query position in or behind a chunk, counted from the first one computed. -/
def cut (chunk : Nat) (r : AttentionRequest) (j : Nat) : Nat :=
  min r.seqLen (max (r.seqLen - r.queryLen) ((r.firstChunk chunk + j) * chunk))

section Chunks

variable {r : AttentionRequest}

variable (fits : r.Fits width blockSize)

include fits

section

variable (positive : 0 < c)

include positive

/-- Where a request lies among the chunks. -/
theorem Fits.chunks :
    r.firstChunk c * c ≤ r.seqLen - r.queryLen ∧
      r.seqLen - r.queryLen < (r.firstChunk c + 1) * c ∧
      r.firstChunk c + r.numChunks c = (r.seqLen - 1) / c + 1 ∧ 0 < r.numChunks c ∧
      (r.seqLen - 1) / c * c < r.seqLen ∧ r.seqLen ≤ ((r.seqLen - 1) / c + 1) * c := by
  have some := fits.some
  have within := fits.within
  have first := Nat.div_add_mod (r.seqLen - r.queryLen) c
  have offset := Nat.mod_lt (r.seqLen - r.queryLen) positive
  have last := Nat.div_add_mod (r.seqLen - 1) c
  have rest := Nat.mod_lt (r.seqLen - 1) positive
  have order : (r.seqLen - r.queryLen) / c ≤ (r.seqLen - 1) / c := Nat.div_le_div_right (by omega)
  unfold numChunks firstChunk
  rw [Nat.mul_comm] at first last
  rw [Nat.succ_mul, Nat.succ_mul]
  omega

/-- A chunk that is computed starts below the end of the request, and only the first one at or before its first
query. -/
theorem Fits.chunk (below : j < r.numChunks c) :
    (r.firstChunk c + j) * c < r.seqLen ∧
      r.seqLen - r.queryLen < (r.firstChunk c + j + 1) * c ∧
      (0 < j → r.seqLen - r.queryLen < (r.firstChunk c + j) * c) ∧
      (j + 1 < r.numChunks c → (r.firstChunk c + j + 1) * c < r.seqLen) ∧
      (j + 1 = r.numChunks c → r.seqLen ≤ (r.firstChunk c + j + 1) * c) := by
  obtain ⟨_, first, count, _, last, covers⟩ := fits.chunks positive
  have mono : ∀ x y, x ≤ y → x * c ≤ y * c := fun x y le => Nat.mul_le_mul_right c le
  refine ⟨?_, ?_, fun later => ?_, fun more => ?_, fun whole => ?_⟩
  · exact lt_of_le_of_lt (mono _ _ (by omega)) last
  · exact lt_of_lt_of_le first (mono _ _ (by omega))
  · exact lt_of_lt_of_le first (mono _ _ (by omega))
  · exact lt_of_le_of_lt (mono _ _ (by omega)) last
  · exact covers.trans (mono _ _ (by omega))

/-- The cuts lie between the first query and the end. -/
theorem Fits.cuts : r.cut c 0 = r.seqLen - r.queryLen ∧ r.cut c (r.numChunks c) = r.seqLen := by
  obtain ⟨first, _, count, _, _, covers⟩ := fits.chunks positive
  unfold cut
  rw [count, Nat.add_zero]
  omega

/-- `q_tokens_in_first_block`. -/
theorem Fits.firstTokens :
    min ((c : Int) - ((r.seqLen : Int) - r.queryLen).fmod c) r.queryLen =
      ((r.cut c 1 - r.cut c 0 : Nat) : Int) := by
  have some := fits.some
  have within := fits.within
  obtain ⟨first, offset, _⟩ := fits.chunks positive
  have parts := Nat.div_add_mod (r.seqLen - r.queryLen) c
  rw [(fits.cuts positive).1]
  rw [show (r.seqLen : Int) - r.queryLen = ((r.seqLen - r.queryLen : Nat) : Int) by omega,
    Int.fmod_eq_emod_of_nonneg _ (by omega), ← Int.natCast_emod]
  unfold cut firstChunk at *
  rw [Nat.mul_comm] at parts
  rw [Nat.succ_mul] at offset ⊢
  omega

/-- `local_blocks`. -/
theorem Fits.localBlocks :
    (1 + cdiv ((r.queryLen : Int) - (r.cut c 1 - r.cut c 0 : Nat)) c).toNat = r.numChunks c := by
  have some := fits.some
  have within := fits.within
  obtain ⟨_, offset, count, some', last, covers⟩ := fits.chunks positive
  have order : (r.firstChunk c + 1) * c ≤ ((r.seqLen - 1) / c + 1) * c :=
    Nat.mul_le_mul_right c (by omega)
  -- Both bounds with the products written out.
  have less : ((r.numChunks c : Int) - 1 - 1) * c =
      ((r.seqLen - 1) / c * c : Nat) - ((r.firstChunk c + 1) * c : Nat) := by
    rw [show (r.numChunks c : Int) = ((r.seqLen - 1) / c : Nat) + 1 - r.firstChunk c by omega]
    push_cast
    ring
  have more : ((r.numChunks c : Int) - 1) * c =
      (((r.seqLen - 1) / c + 1) * c : Nat) - ((r.firstChunk c + 1) * c : Nat) := by
    rw [show (r.numChunks c : Int) = ((r.seqLen - 1) / c : Nat) + 1 - r.firstChunk c by omega]
    push_cast
    ring
  rw [(fits.cuts positive).1, cdiv_eq_of (n := (r.numChunks c : Int) - 1) (by omega)]
  · omega
  · rw [less]
    unfold cut
    omega
  · rw [more]
    unfold cut
    omega

/-- `tokens_in_last_block`. -/
theorem Fits.lastTokens :
    (c : Int) + (r.seqLen : Int).fmod (-c) = r.seqLen - ((r.seqLen - 1) / c * c : Nat) := by
  obtain ⟨_, _, _, _, last, covers⟩ := fits.chunks positive
  have blocks : cdiv r.seqLen c = ((r.seqLen - 1) / c : Nat) + 1 :=
    cdiv_eq_of (by omega) (by push_cast at last ⊢; linarith) (by exact_mod_cast covers)
  have rounded : (r.seqLen : Int).fdiv (-c) = -(((r.seqLen - 1) / c : Nat) + 1) := by
    rw [← blocks, cdiv, neg_neg]
  rw [Int.fmod_def, rounded]
  push_cast
  ring

/-- `seqlens_q_local`. -/
theorem Fits.queryLens (below : j < r.numChunks c) :
    (if j = 0 then ((r.cut c 1 - r.cut c 0 : Nat) : Int) else
      min ((r.queryLen : Int) - (r.cut c 1 - r.cut c 0 : Nat) - c * ((j : Int) - 1)) c) =
      ((r.cut c (j + 1) - r.cut c j : Nat) : Int) := by
  by_cases first : j = 0
  · rw [if_pos first, first]
  · have within := fits.within
    obtain ⟨starts, _, later, more, whole⟩ := fits.chunk positive below
    obtain ⟨starts', _, later', _⟩ := fits.chunk positive (j := 1) (by omega)
    have apart : (c : Int) * ((j : Int) - 1) =
        ((r.firstChunk c + j) * c : Nat) - ((r.firstChunk c + 1) * c : Nat) := by
      push_cast
      ring
    have next : (r.firstChunk c + (j + 1)) * c = (r.firstChunk c + j) * c + c := by ring
    rw [if_neg first, apart, (fits.cuts positive).1]
    unfold cut
    rw [next]
    have := later (by omega)
    have := later' (by omega)
    omega

/-- `seqlens_k_local`. -/
theorem Fits.keyLens (below : j < r.numChunks c) :
    (if j + 1 = r.numChunks c then (r.seqLen : Int) - ((r.seqLen - 1) / c * c : Nat) else (c : Int)) =
      (r.cut c (j + 1) : Int) - ((r.firstChunk c + j) * c : Nat) := by
  obtain ⟨_, _, count, _⟩ := fits.chunks positive
  obtain ⟨starts, front, later, more, whole⟩ := fits.chunk positive below
  have next : (r.firstChunk c + (j + 1)) * c = (r.firstChunk c + j) * c + c := by ring
  unfold cut
  rw [next]
  rw [Nat.succ_mul] at front more whole
  by_cases last : j + 1 = r.numChunks c
  · rw [if_pos last, show (r.seqLen - 1) / c = r.firstChunk c + j by omega]
    have := whole last
    omega
  · rw [if_neg last]
    have := more (by omega)
    omega

/-- `k_seqstarts_absolute`. -/
theorem Fits.keyStart (j : Nat) : (r.seqLen : Int) - (((r.numChunks c : Int) - j - 1) * c +
      (r.seqLen - ((r.seqLen - 1) / c * c : Nat))) = ((r.firstChunk c + j) * c : Nat) := by
  obtain ⟨_, _, count, _⟩ := fits.chunks positive
  rw [show (r.numChunks c : Int) = ((r.seqLen - 1) / c : Nat) + 1 - r.firstChunk c by omega]
  push_cast
  ring

end

/-- The block table row of a virtual batch. -/
def localRow (c blockSize width : Nat) (r : AttentionRequest) (j : Nat) : List BlockId :=
  (List.range (c / blockSize)).map fun p =>
    r.table.getD (min ((r.firstChunk c + j) * c / blockSize + p) (width - 1)) 0

/-- The keys of a query are looked up in the blocks that hold them. -/
theorem Fits.localRow_get (positive : 0 < blockSize)
    (divides : blockSize ∣ c) {key : Nat} (inside : key < c)
    (below : (r.firstChunk c + j) * c + key < r.seqLen) :
    (localRow c blockSize width r j)[key / blockSize]? =
        r.table[((r.firstChunk c + j) * c + key) / blockSize]? ∧
      key % blockSize = ((r.firstChunk c + j) * c + key) % blockSize := by
  obtain ⟨pages, rfl⟩ := divides
  have wide := fits.wide
  have aligned : (r.firstChunk (blockSize * pages) + j) * (blockSize * pages) =
      blockSize * ((r.firstChunk (blockSize * pages) + j) * pages) := by ring
  rw [aligned] at below ⊢
  have page : key / blockSize < pages := by
    rw [Nat.div_lt_iff_lt_mul positive, Nat.mul_comm]
    exact inside
  have place : (blockSize * ((r.firstChunk (blockSize * pages) + j) * pages) + key) / blockSize =
      (r.firstChunk (blockSize * pages) + j) * pages + key / blockSize := by
    rw [Nat.mul_add_div positive]
  have small : (r.firstChunk (blockSize * pages) + j) * pages + key / blockSize < width := by
    rw [← place, Nat.div_lt_iff_lt_mul positive]
    omega
  refine ⟨?_, by rw [Nat.mul_add_mod]⟩
  unfold localRow
  rw [place, aligned, Nat.mul_div_cancel_left _ positive, Nat.mul_div_cancel_left _ positive,
    getElem?_map, getElem?_range page, Option.map_some, min_eq_left (by omega),
    getD_eq_getElem?_getD, getElem?_eq_getElem (by rw [fits.row]; exact small)]
  rfl

omit fits in
/-- Consecutive pieces make up the whole. -/
theorem flatMap_pieces {α : Type} (f : Nat → α) (cut : Nat → Nat) {n : Nat}
    (mono : ∀ j < n, cut j ≤ cut (j + 1)) :
    cut 0 ≤ cut n ∧ (List.range n).flatMap (fun j =>
        (List.range (cut (j + 1) - cut j)).map fun t => f (cut j + t)) =
      (List.range' (cut 0) (cut n - cut 0)).map f := by
  induction n with
  | zero => simp
  | succ n ih =>
    obtain ⟨order, before⟩ := ih fun j below => mono j (by omega)
    have step := mono n (Nat.lt_succ_self n)
    refine ⟨order.trans step, ?_⟩
    rw [range_succ, flatMap_append, before, flatMap_singleton,
      show cut (n + 1) - cut 0 = (cut n - cut 0) + (cut (n + 1) - cut n) by omega,
      ← range'_append_1, map_append, show cut 0 + (cut n - cut 0) = cut n by omega,
      range'_eq_map_range (s := cut n), map_map]
    rfl

omit fits in
/-- The keys of a chunk up to a position. -/
theorem filter_chunk (positive : 0 < c) {p i : Nat} (low : i * c ≤ p) (high : p < (i + 1) * c) :
    (List.range (p + 1)).filter (fun k => k / c = p / c) = List.range' (i * c) (p - i * c + 1) := by
  have here : p / c = i := Nat.div_eq_of_lt_le low high
  have split : List.range (p + 1) = List.range' 0 (i * c) ++ List.range' (i * c) (p - i * c + 1) := by
    have parts := range'_append_1 (s := 0) (m := i * c) (n := p - i * c + 1)
    rw [Nat.zero_add, show i * c + (p - i * c + 1) = p + 1 by omega] at parts
    rw [range_eq_range', parts]
  -- Keys before the chunk are left out, the others are kept.
  have before : (List.range' 0 (i * c)).filter (fun k => decide (k / c = i)) = [] := by
    refine filter_eq_nil_iff.mpr fun k member => ?_
    have early : k / c < i := (Nat.div_lt_iff_lt_mul positive).mpr (by
      simp only [mem_range'_1] at member
      omega)
    simp only [decide_eq_true_eq]
    omega
  have inside : (List.range' (i * c) (p - i * c + 1)).filter (fun k => decide (k / c = i)) =
      List.range' (i * c) (p - i * c + 1) := by
    refine filter_eq_self.mpr fun k member => ?_
    simp only [mem_range'_1] at member
    exact decide_eq_true (Nat.div_eq_of_lt_le (by omega) (by omega))
  rw [here, split, filter_append, before, inside, nil_append]

/-- The virtual batches of a request together attend as its queries are meant to. -/
theorem Fits.attended (positive : 0 < blockSize) (chunked : 0 < c) (divides : blockSize ∣ c) :
    (List.range (r.numChunks c)).flatMap (fun j =>
      (List.range (r.cut c (j + 1) - r.cut c j)).map fun (t : Nat) =>
        (List.range (((r.cut c (j + 1) : Int) - ((r.firstChunk c + j) * c : Nat)) -
          (r.cut c (j + 1) - r.cut c j : Nat) + t + 1).toNat).map fun key =>
            ((localRow c blockSize width r j)[key / blockSize]?, key % blockSize)) =
      r.localKeys c blockSize := by
  have within := fits.within
  obtain ⟨start, stop⟩ := fits.cuts chunked
  -- Each query of a virtual batch attends to the keys of its chunk up to it.
  have each : ∀ j < r.numChunks c, r.cut c j ≤ r.cut c (j + 1) ∧
      ∀ t < r.cut c (j + 1) - r.cut c j,
        (List.range (((r.cut c (j + 1) : Int) - ((r.firstChunk c + j) * c : Nat)) -
          (r.cut c (j + 1) - r.cut c j : Nat) + t + 1).toNat).map (fun key =>
            ((localRow c blockSize width r j)[key / blockSize]?, key % blockSize)) =
        ((List.range (r.cut c j + t + 1)).filter fun k => k / c = (r.cut c j + t) / c).map fun k =>
          (r.table[k / blockSize]?, k % blockSize) := by
    intro j below
    obtain ⟨starts, front, later, more, whole⟩ := fits.chunk chunked below
    have next : (r.firstChunk c + (j + 1)) * c = (r.firstChunk c + j) * c + c := by ring
    have bounds : (r.firstChunk c + j) * c ≤ r.cut c j ∧ r.cut c j ≤ r.cut c (j + 1) ∧
        r.cut c (j + 1) ≤ (r.firstChunk c + j) * c + c ∧ r.cut c (j + 1) ≤ r.seqLen := by
      unfold cut
      rw [next]
      rw [Nat.succ_mul] at front
      omega
    refine ⟨bounds.2.1, fun t small => ?_⟩
    rw [filter_chunk chunked (i := r.firstChunk c + j) (by omega) (by rw [Nat.succ_mul]; omega),
      range'_eq_map_range, map_map]
    rw [show (((r.cut c (j + 1) : Int) - ((r.firstChunk c + j) * c : Nat)) -
      (r.cut c (j + 1) - r.cut c j : Nat) + t + 1).toNat =
        r.cut c j + t - (r.firstChunk c + j) * c + 1 by omega]
    refine map_congr_left fun key member => ?_
    have few := mem_range.mp member
    have below' : (r.firstChunk c + j) * c + key < r.seqLen := by omega
    obtain ⟨row, offset⟩ := fits.localRow_get positive divides (by omega) below'
    simp only [Function.comp_apply, row, offset]
  have pieces := (flatMap_pieces (fun p => ((List.range (p + 1)).filter fun k => k / c = p / c).map
    fun k => (r.table[k / blockSize]?, k % blockSize)) (r.cut c) fun j below => (each j below).1).2
  unfold localKeys
  rw [start, stop, show r.seqLen - (r.seqLen - r.queryLen) = r.queryLen by omega] at pieces
  rw [← pieces]
  refine flatMap_congr fun j member => map_congr_left fun t small => ?_
  exact (each j (mem_range.mp member)).2 t (mem_range.mp small)

end Chunks

section Batches

variable {requests : List AttentionRequest}

/-- A property of all requests, for requests with their indices. -/
theorem forall_zipIdx {P : AttentionRequest → Prop} (all : ∀ r ∈ requests, P r) :
    ∀ x ∈ requests.zipIdx, requests[x.2]? = some x.1 ∧ P x.1 := by
  intro x member
  have found := mem_zipIdx_iff_getElem?.mp member
  exact ⟨found, all _ (mem_of_getElem? found)⟩

section

variable (fits : ∀ r ∈ requests, r.Fits width blockSize)

include fits

/-- The entries of the block tables of all virtual batches. -/
theorem entries_eq (positive : 0 < blockSize) (pages : Nat) :
    ((rowsOf (fun _ => pages) (fun place _ => place.1.2)
        (places (fun x => x.1.numChunks c) requests.zipIdx)).zip
      (rowsOf (fun _ => pages) (fun place (p : Nat) =>
        min ((((place.1.1.firstChunk c + place.2) * c : Nat) : Int).fdiv blockSize + p) ((width : Int) - 1))
        (places (fun x => x.1.numChunks c) requests.zipIdx))).mapM (fun entry =>
      orRaise (((requests.map table)[entry.1]?).bind (pyGet? · entry.2))
        (⟨.index, .gatherIndex⟩ : Err)) =
      .ok (rowsOf (fun _ => pages) (fun place p => place.1.1.table.getD
        (min ((place.1.1.firstChunk c + place.2) * c / blockSize + p) (width - 1)) 0)
          (places (fun x => x.1.numChunks c) requests.zipIdx)) := by
  show (List.zipWith Prod.mk _ _).mapM _ = _
  rw [zipWith_rowsOf, rowsOf_eq_map, rowsOf_eq_map]
  refine mapM_eq_ok.mpr (forall₂_map_left_iff.mpr (forall₂_map_right_iff.mpr
    (forall₂_same.mpr fun place member => ?_)))
  obtain ⟨found, here⟩ := forall_zipIdx fits _ (mem_places.mp (mem_places.mp member).1).1
  have some := here.some
  have within := here.within
  have wide := here.wide
  have width_pos : 0 < width := Nat.pos_of_ne_zero fun none => by
    rw [none, Nat.zero_mul] at wide
    omega
  have row := here.row
  rw [Int.fdiv_eq_ediv_of_nonneg _ (by omega), ← Int.natCast_ediv, getElem?_map, found]
  refine orRaise_eq_ok.mpr ?_
  show pyGet? _ _ = _
  unfold pyGet?
  generalize (place.1.1.1.firstChunk c + place.1.2) * c / blockSize = start
  -- The index is not negative, and it lies in the row.
  have clipped : min ((start : Int) + place.2) ((width : Int) - 1) =
      ((min (start + place.2) (width - 1) : Nat) : Int) := by omega
  rw [clipped, if_neg (by omega), if_neg (by omega), Int.toNat_natCast, getD_eq_getElem?_getD,
    getElem?_eq_getElem (by omega)]
  rfl

omit fits in
/-- One entry for each request, indexed or not. -/
theorem map_eq_zipIdx {β : Type} (f : AttentionRequest → β) :
    requests.map f = requests.zipIdx.map fun x => f x.1 := by
  conv_lhs => rw [← zipIdx_map_fst 0 requests, map_map]
  rfl

variable (chunked : 0 < c)

include chunked

/-- `q_tokens_in_first_block` of all requests. -/
theorem firstTokens_eq : List.zipWith (fun s q : Int => min ((c : Int) - (s - q).fmod c) q)
      (requests.map fun r => (r.seqLen : Int)) (requests.map fun r => (r.queryLen : Int)) =
      requests.zipIdx.map fun x => ((x.1.cut c 1 - x.1.cut c 0 : Nat) : Int) := by
  rw [map_eq_zipIdx, map_eq_zipIdx, zipWith_map, zipWith_self]
  exact map_congr_left fun x member => (forall_zipIdx fits x member).2.firstTokens chunked

/-- `local_blocks` of all requests. -/
theorem localBlocks_eq : List.zipWith (fun q first : Int => (1 + cdiv (q - first) c).toNat)
      (requests.map fun r => (r.queryLen : Int))
      (requests.zipIdx.map fun x => ((x.1.cut c 1 - x.1.cut c 0 : Nat) : Int)) =
      requests.zipIdx.map fun x => x.1.numChunks c := by
  rw [map_eq_zipIdx, zipWith_map, zipWith_self]
  exact map_congr_left fun x member => (forall_zipIdx fits x member).2.localBlocks chunked

/-- `tokens_in_last_block` of all requests. -/
theorem lastTokens_eq :
    (requests.map fun r => (r.seqLen : Int)).map (fun s => (c : Int) + s.fmod (-c)) =
      requests.zipIdx.map fun x => (x.1.seqLen : Int) - ((x.1.seqLen - 1) / c * c : Nat) := by
  rw [map_eq_zipIdx, map_map]
  exact map_congr_left fun x member => (forall_zipIdx fits x member).2.lastTokens chunked

/-- Every request has a virtual batch. -/
theorem numChunks_pos : ∀ x ∈ requests.zipIdx, 0 < x.1.numChunks c := fun x member =>
  ((forall_zipIdx fits x member).2.chunks chunked).2.2.2.1

/-- `seqlens_q_local`. -/
theorem queryLens_eq : List.zipWith (fun (q j : Int) => if j > 0 then min (q - c * (j - 1)) c else q)
      (maskAssign (repeatEach (subEach (requests.map fun r => (r.queryLen : Int))
          (requests.zipIdx.map fun x => ((x.1.cut c 1 - x.1.cut c 0 : Nat) : Int)))
            (requests.zipIdx.map fun x => x.1.numChunks c))
        ((rowsOf (fun x => x.1.numChunks c) (fun _ j => (j : Int)) requests.zipIdx).map (· == 0))
        (requests.zipIdx.map fun x => ((x.1.cut c 1 - x.1.cut c 0 : Nat) : Int)))
      (rowsOf (fun x => x.1.numChunks c) (fun _ j => (j : Int)) requests.zipIdx) =
      rowsOf (fun x => x.1.numChunks c) (fun x j => ((x.1.cut c (j + 1) - x.1.cut c j : Nat) : Int))
        requests.zipIdx := by
  rw [map_eq_zipIdx, subEach, zipWith_map, zipWith_self, repeatEach_map, map_rowsOf,
    maskAssign_rowsOf _ _ (numChunks_pos fits chunked), zipWith_rowsOf]
  refine rowsOf_congr fun x member j small => ?_
  rw [← (forall_zipIdx fits x member).2.queryLens chunked small]
  split <;> split <;> first | rfl | omega

/-- `seqlens_k_local`. -/
theorem keyLens_eq :
    setAt (List.replicate (requests.zipIdx.map fun x => x.1.numChunks c).sum (c : Int))
      ((cumsumFrom 0 (requests.zipIdx.map fun x => x.1.numChunks c)).map (· - 1))
      (requests.zipIdx.map fun x => (x.1.seqLen : Int) - ((x.1.seqLen - 1) / c * c : Nat)) =
      rowsOf (fun x => x.1.numChunks c) (fun x j => (x.1.cut c (j + 1) : Int) -
        ((x.1.firstChunk c + j) * c : Nat)) requests.zipIdx := by
  rw [replicate_sum]
  refine (setAt_rowsOf _ _ (numChunks_pos fits chunked) []).trans
    (rowsOf_congr fun x member j small => ?_)
  exact (forall_zipIdx fits x member).2.keyLens chunked small

/-- `k_seqstarts_absolute`. -/
theorem keyStarts_eq : subEach (repeatEach (requests.map fun r => (r.seqLen : Int))
        (requests.zipIdx.map fun x => x.1.numChunks c))
      (addEach ((List.zipWith (fun (n : Nat) (j : Int) => (n : Int) - j - 1)
          (repeatEach (requests.zipIdx.map fun x => x.1.numChunks c)
            (requests.zipIdx.map fun x => x.1.numChunks c))
          (rowsOf (fun x => x.1.numChunks c) (fun _ j => (j : Int)) requests.zipIdx)).map (· * (c : Int)))
        (repeatEach (requests.zipIdx.map fun x => (x.1.seqLen : Int) - ((x.1.seqLen - 1) / c * c : Nat))
          (requests.zipIdx.map fun x => x.1.numChunks c))) =
      (places (fun x => x.1.numChunks c) requests.zipIdx).map fun spot =>
        (((spot.1.1.firstChunk c + spot.2) * c : Nat) : Int) := by
  rw [map_eq_zipIdx, repeatEach_map, repeatEach_map, repeatEach_map, zipWith_rowsOf, map_rowsOf,
    addEach, zipWith_rowsOf, subEach, zipWith_rowsOf, rowsOf_eq_map]
  refine map_congr_left fun spot member => ?_
  exact (forall_zipIdx fits _ (mem_places.mp member).1).2.keyStart chunked _

end

/-- `batch_indices`. -/
theorem batchIndices_eq (pages : Nat) :
    repeatEach (List.range (requests.map fun r => (r.seqLen : Int)).length)
      ((requests.zipIdx.map fun x => x.1.numChunks c).map (· * pages)) =
      rowsOf (fun _ => pages) (fun place _ => place.1.2)
        (places (fun x => x.1.numChunks c) requests.zipIdx) := by
  rw [← rowsOf_mul, map_map, length_map, range_eq_range', ← zipIdx_map_snd 0 requests]
  exact repeatEach_map _ _

/-- `block_indices`, clipped at the width of the tables. -/
theorem blockIndices_eq (starts : List ((AttentionRequest × Nat) × Nat)) (pages : Nat) :
    (((starts.map fun spot => (((spot.1.1.firstChunk c + spot.2) * c : Nat) : Int)).map fun k =>
        k.fdiv (blockSize : Int)).flatMap fun b => (arange pages).map (b + ·)).map
          (min · ((width : Int) - 1)) =
      rowsOf (fun _ => pages) (fun place (p : Nat) =>
        min ((((place.1.1.firstChunk c + place.2) * c : Nat) : Int).fdiv blockSize + p)
          ((width : Int) - 1)) starts := by
  rw [map_map, flatMap_map, map_flatMap]
  unfold rowsOf arange
  simp only [map_map]
  rfl

/-- The virtual batches of a batch, place by place. -/
theorem makeLocalAttentionVirtualBatches_eq (positive : 0 < blockSize) (chunked : 0 < c)
    (divides : blockSize ∣ c) (nonempty : requests ≠ [])
    (fits : ∀ r ∈ requests, r.Fits width blockSize) :
    ∃ md, makeLocalAttentionVirtualBatches c blockSize (batch requests) = .ok md ∧
      md.queryStartLoc.head? = some 0 ∧
      diffs md.queryStartLoc = ((places (fun x => x.1.numChunks c) requests.zipIdx).map fun spot =>
        ((spot.1.1.cut c (spot.2 + 1) - spot.1.1.cut c spot.2 : Nat) : Int)) ∧
      md.seqLens = ((places (fun x => x.1.numChunks c) requests.zipIdx).map fun spot =>
        (spot.1.1.cut c (spot.2 + 1) : Int) - ((spot.1.1.firstChunk c + spot.2) * c : Nat)) ∧
      md.blockTable = (places (fun x => x.1.numChunks c) requests.zipIdx).map fun spot =>
        localRow c blockSize width spot.1.1 spot.2 := by
  have listed : (requests.zipIdx.map fun x => x.1.numChunks c) ≠ [] := by simpa using nonempty
  have total := getLast?_cumsumFrom 0 listed
  rw [Int.zero_add] at total
  have counted : orRaise (some (((requests.zipIdx.map fun x => x.1.numChunks c).sum : Nat) : Int))
    (⟨.index, .emptyBatch⟩ : Err) = .ok _ := rfl
  have front := subEach_arange (requests.zipIdx.map fun x => x.1.numChunks c)
  rw [flatten_arange] at front
  have aligned : require (c % blockSize = 0) (⟨.assertion, .chunkAlignment⟩ : Err) = .ok () :=
    require_eq_ok.mpr (Nat.mod_eq_zero_of_dvd divides)
  have widthEq : ((requests.map table).headD []).length = width := by
    cases requests with
    | nil => exact absurd rfl nonempty
    | cons r => exact (fits r (mem_cons_self ..)).row
  unfold makeLocalAttentionVirtualBatches batch
  simp only [diffs_scanl, firstTokens_eq fits chunked, localBlocks_eq fits chunked,
    lastTokens_eq fits chunked, cumsum, total, counted, aligned, Bind.bind, Except.bind,
    subEach_cumsumFrom, Int.toNat_natCast, front, widthEq, queryLens_eq fits chunked,
    keyLens_eq fits chunked, keyStarts_eq fits chunked, batchIndices_eq, blockIndices_eq,
    entries_eq fits positive]
  refine ⟨_, rfl, ?_, ?_, ?_, ?_⟩
  · simp
  · rw [diffs_scanl, rowsOf_eq_map]
  · exact rowsOf_eq_map _ _
  · rw [← length_places]
    exact chunks_rowsOf _ _ _

/-- The virtual batches hold every query once and in order, and each attends to the keys of its chunk up to it. A
batch without requests is not accepted. -/
theorem virtualBatches_attend (positive : 0 < blockSize) (chunked : 0 < c) (divides : blockSize ∣ c)
    (fits : ∀ r ∈ requests, r.Fits width blockSize) :
    (requests ≠ [] → ∃ md, makeLocalAttentionVirtualBatches c blockSize (batch requests) = .ok md ∧
        md.queryStartLoc.head? = some 0 ∧
        causalKeys blockSize md = requests.flatMap (localKeys c blockSize)) ∧
      (requests = [] → makeLocalAttentionVirtualBatches c blockSize (batch requests) =
        .error ⟨.index, .emptyBatch⟩) := by
  refine ⟨fun nonempty => ?_, fun empty => by rw [empty]; rfl⟩
  obtain ⟨md, made, start, queries, keys, tables⟩ :=
    makeLocalAttentionVirtualBatches_eq positive chunked divides nonempty fits
  refine ⟨md, made, start, ?_⟩
  -- One entry for each place, grouped by requests again.
  have grouped : requests.flatMap (localKeys c blockSize) =
      requests.zipIdx.flatMap fun x => x.1.localKeys c blockSize := by
    rw [List.flatMap, map_eq_zipIdx, ← List.flatMap]
  unfold causalKeys
  rw [queries, keys, tables, grouped, zip_map', zip_map', flatMap_map]
  unfold places
  rw [flatMap_assoc]
  refine flatMap_congr fun x member => ?_
  rw [flatMap_map, ← (forall_zipIdx fits x member).2.attended positive chunked divides]
  simp only [Int.toNat_natCast]

/-- Two requests, one of them in the middle of a chunk. -/
theorem virtualBatches_attend_two :
    ∃ md, makeLocalAttentionVirtualBatches 2 2 (batch [⟨2, 3, [5, 6]⟩, ⟨1, 1, [7, 8]⟩]) = .ok md ∧
      md.queryStartLoc.head? = some 0 ∧ causalKeys 2 md =
        [⟨2, 3, [5, 6]⟩, ⟨1, 1, [7, 8]⟩].flatMap (localKeys 2 2) := by
  have fits : ∀ r ∈ ([⟨2, 3, [5, 6]⟩, ⟨1, 1, [7, 8]⟩] : List AttentionRequest), r.Fits 2 2 := by
    simp only [mem_cons, not_mem_nil, or_false, forall_eq_or_imp, forall_eq]
    exact ⟨⟨by decide, by decide, rfl, by decide⟩, ⟨by decide, by decide, rfl, by decide⟩⟩
  exact (virtualBatches_attend (by decide) (by decide) (by decide) fits).1 (cons_ne_nil _ _)

end Batches

end AttentionRequest

end Mimir
