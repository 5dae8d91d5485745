import Mimir.Worker.InputBatch
import Mimir.Worker.LocalAttention

/-! Decodes in front of prefills: the swaps of the persistent batch, and the boundary a backend finds then. -/

namespace Mimir

open Python Theory List

/-- `split_decodes_and_prefills`: the numbers of decodes and prefills, and of the tokens of each. -/
def splitDecodesAndPrefills (m : CommonAttentionMetadata) (decodeThreshold : Nat) :
    Except Err (Int × Int × Int × Int) :=
  if m.maxQueryLen ≤ decodeThreshold then .ok (m.numReqs, 0, m.numActualTokens, 0)
  else
    let queryLens := diffs m.queryStartLoc
    let isPrefill := queryLens.map fun q => decide ((decodeThreshold : Int) < q)
    if isPrefill.any (· = true) = false then .ok (m.numReqs, 0, m.numActualTokens, 0)
    else do
      -- `argmax` of zeros and ones is the first one.
      let firstPrefill := isPrefill.findIdx (· = true)
      require (∀ q ∈ queryLens.drop firstPrefill, (decodeThreshold : Int) < q) ⟨.assertion, .decodesFirst⟩
      require (∀ q ∈ queryLens.take firstPrefill, q ≤ decodeThreshold) ⟨.assertion, .decodesFirst⟩
      let numDecodeTokens ← orRaise m.queryStartLoc[firstPrefill]? ⟨.index, .gatherIndex⟩
      .ok (firstPrefill, m.numReqs - firstPrefill, numDecodeTokens, m.numActualTokens - numDecodeTokens)

namespace InputBatch

/-- Swaps of a batch without gaps are exchanges of its ids, and are recorded in their order. -/
theorem swapAll_keys {b : InputBatch} {ids : List RequestId} (packed : b.reqIds = ids.map some)
    {pairs : List (Nat × Nat)} (inside : ∀ pair ∈ pairs, pair.1 < ids.length ∧ pair.2 < ids.length) :
    ∃ b', swapAll pairs b = .ok b' ∧ b'.reqIds = (exchangeAll ids pairs).map some ∧
      b'.isPoolingModel = b.isPoolingModel ∧
      b'.moved = if b.isPoolingModel then b.moved else b.moved ++ pairs := by
  induction pairs generalizing b ids with
  | nil => exact ⟨b, rfl, packed, rfl, by simp⟩
  | cons pair pairs ih =>
    obtain ⟨first, second⟩ := inside pair (mem_cons_self ..)
    have found : ∀ i (below : i < ids.length), b.reqIds[i]? = some (some ids[i]) := fun i below => by
      rw [packed, getElem?_map, getElem?_eq_getElem below, Option.map_some]
    obtain ⟨b₁, swapped, keys, kind, moved⟩ : ∃ b₁, b.swapStates pair.1 pair.2 = .ok b₁ ∧
        b₁.reqIds = (exchange ids pair).map some ∧ b₁.isPoolingModel = b.isPoolingModel ∧
        b₁.moved = if b.isPoolingModel then b.moved else b.moved ++ [pair] := by
      unfold swapStates
      rw [found _ first, found _ second]
      refine ⟨_, rfl, ?_, rfl, rfl⟩
      simp only [exchange, getElem?_eq_getElem first, getElem?_eq_getElem second, packed, map_set]
    have sized := (exchange_perm ids pair).length_eq
    obtain ⟨b', rest, keys', kind', moved'⟩ := ih keys fun other member => by
      rw [sized]
      exact inside other (mem_cons_of_mem _ member)
    refine ⟨b', bind_eq_ok.mpr ⟨b₁, swapped, rest⟩, keys', kind'.trans kind, ?_⟩
    rw [moved', kind, moved]
    cases b.isPoolingModel <;> simp

/-- The loop makes the swaps up to the first decode that stands in front, and says whether there were any. -/
theorem splitLoop_eq {numDecodes : Nat} {pairs : List (Nat × Nat)} {modifiedBatch : Bool} {b b' : InputBatch}
    (swapped : swapAll (pairs.takeWhile fun pair => !decide (pair.2 < numDecodes)) b = .ok b') :
    splitLoop numDecodes pairs modifiedBatch b = .ok
      (modifiedBatch || !(pairs.takeWhile fun pair => !decide (pair.2 < numDecodes)).isEmpty, b') := by
  induction pairs generalizing modifiedBatch b with
  | nil =>
    cases swapped
    simp [splitLoop]
  | cons pair pairs ih =>
    unfold splitLoop
    by_cases front : pair.2 < numDecodes
    · rw [takeWhile_cons_of_neg (by simp [front])] at swapped ⊢
      cases swapped
      simp [front]
    · rw [takeWhile_cons_of_pos (by simp [front])] at swapped ⊢
      obtain ⟨b₁, one, rest⟩ := bind_eq_ok.mp swapped
      rw [if_neg front]
      refine bind_eq_ok.mpr ⟨b₁, one, ?_⟩
      rw [ih rest]
      simp

end InputBatch

namespace CommonAttentionMetadata

/-- Metadata of a batch with the given numbers of scheduled tokens. -/
structure Describes (m : CommonAttentionMetadata) (numTokens : List Int) : Prop where
  numReqs : m.numReqs = numTokens.length
  queryStartLoc : m.queryStartLoc = numTokens.scanl (· + ·) 0
  numActualTokens : m.numActualTokens = numTokens.sum
  maxQueryLen : m.maxQueryLen = numTokens.foldl max 0

/-- A batch of decodes followed by prefills is cut at its boundary. -/
theorem Describes.split {m : CommonAttentionMetadata} {decodes prefills : List Int} {decodeThreshold : Nat}
    (described : m.Describes (decodes ++ prefills)) (short : ∀ q ∈ decodes, q ≤ (decodeThreshold : Int))
    (long : ∀ q ∈ prefills, (decodeThreshold : Int) < q) :
    splitDecodesAndPrefills m decodeThreshold =
      .ok (decodes.length, prefills.length, decodes.sum, prefills.sum) := by
  have most : ∀ (qs : List Int) (start : Int),
      qs.foldl max start ≤ decodeThreshold ↔ start ≤ decodeThreshold ∧ ∀ q ∈ qs, q ≤ (decodeThreshold : Int) := by
    intro qs
    induction qs with
    | nil => simp
    | cons q qs ih =>
      intro start
      rw [foldl_cons, ih]
      simp only [max_le_iff, forall_mem_cons, and_assoc]
  unfold splitDecodesAndPrefills
  simp only [described.numReqs, described.queryStartLoc, described.numActualTokens,
    described.maxQueryLen, most, diffs_scanl]
  cases prefills with
  | nil =>
    rw [append_nil, if_pos ⟨by omega, short⟩]
    simp
  | cons q prefills =>
    have first := long q (mem_cons_self ..)
    have found : ((decodes ++ q :: prefills).map fun q => decide ((decodeThreshold : Int) < q)).findIdx
        (· = true) = decodes.length := by
      rw [map_append, findIdx_append, if_neg, map_cons, findIdx_cons]
      · simp [first]
      · rw [findIdx_lt_length]
        simp only [mem_map, decide_eq_true_eq, not_exists, not_and]
        rintro _ ⟨x, member, rfl⟩
        have := short x member
        simp only [decide_eq_true_eq]
        omega
    rw [if_neg (by simp only [not_and, forall_mem_append, forall_mem_cons]; omega),
      if_neg (by simp [first]), found, drop_left, take_left]
    refine bind_eq_ok.mpr ⟨(), require_eq_ok.mpr long, bind_eq_ok.mpr ⟨(), require_eq_ok.mpr short,
      bind_eq_ok.mpr ⟨decodes.sum, orRaise_eq_ok.mpr ?_, ?_⟩⟩⟩
    · rw [getElem?_scanl, if_pos (by simp), take_left, sum_eq_foldl]
    · simp

end CommonAttentionMetadata

namespace InputBatch

/-- Fewest swaps put the decodes of a batch without gaps in front of its prefills, and a backend then finds their
numbers and those of their tokens. -/
theorem reorderBatch_splits {b : InputBatch} {ids : List RequestId} {numScheduledTokens : PyDict RequestId Int}
    {tokens : RequestId → Int} (decodeThreshold : Nat) (packed : b.reqIds = ids.map some)
    (scheduled : ∀ id ∈ ids, numScheduledTokens.get? id = some (tokens id)) :
    let isDecode := fun id => decide (tokens id ≤ (decodeThreshold : Int))
    ∃ swaps b', reorderBatchToSplitDecodesAndPrefills decodeThreshold numScheduledTokens b =
        .ok (!swaps.isEmpty, b') ∧ swapAll swaps b = .ok b' ∧
      b'.moved = (if b.isPoolingModel then b.moved else b.moved ++ swaps) ∧
      b'.reqIds = (exchangeAll ids swaps).map some ∧ (exchangeAll ids swaps).Perm ids ∧
      Separated isDecode (exchangeAll ids swaps) ∧
      swaps.length = ((ids.drop (ids.countP isDecode)).countP isDecode) ∧
      (∀ others, Separated isDecode (exchangeAll ids others) → swaps.length ≤ others.length) ∧
      ∀ m : CommonAttentionMetadata, m.Describes ((exchangeAll ids swaps).map tokens) →
        splitDecodesAndPrefills m decodeThreshold =
          .ok ((ids.filter isDecode).length, (ids.filter fun id => !isDecode id).length,
            ((ids.filter isDecode).map tokens).sum, ((ids.filter fun id => !isDecode id).map tokens).sum) := by
  intro isDecode
  obtain ⟨useful, _, _, size⟩ := splitPairs_useful isDecode ids
  have separated := splitPairs_separate isDecode ids
  have inside : ∀ pair ∈ splitPairs isDecode ids, pair.1 < ids.length ∧ pair.2 < ids.length := by
    intro pair member
    obtain ⟨_, _, ⟨_, first, _⟩, _, second, _⟩ := useful pair member
    exact ⟨(List.getElem?_eq_some_iff.mp first).1, (List.getElem?_eq_some_iff.mp second).1⟩
  obtain ⟨b', swapped, keys, _, moved⟩ := swapAll_keys packed inside
  have read : b.reqIds.mapM (fun id => orRaise (id.bind numScheduledTokens.get?)
      (⟨.key, .missingIndex⟩ : Err)) = .ok (ids.map tokens) := by
    rw [packed]
    exact mapM_eq_ok.mpr (forall₂_map_left_iff.mpr (forall₂_map_right_iff.mpr
      (forall₂_same.mpr fun id member => orRaise_eq_ok.mpr (scheduled id member))))
  refine ⟨splitPairs isDecode ids, b', bind_eq_ok.mpr ⟨_, read, ?_⟩, swapped, moved, keys,
    exchangeAll_perm _ _, separated, size, fun others separated' => ?_, fun m described => ?_⟩
  · rw [indicesWhere_map, indicesWhere_map]
    exact splitLoop_eq swapped
  · rw [size]
    exact behind_le_of_separated separated'
  · -- The decodes and prefills in their new order are those of the batch.
    have perm := exchangeAll_perm ids (splitPairs isDecode ids)
    obtain ⟨front, back, eq, decodes, prefills⟩ := separated
    have kept : (front ++ back).filter isDecode = front := by
      rw [filter_append, filter_eq_self.mpr decodes,
        filter_eq_nil_iff.mpr fun x member => by simp [prefills x member], append_nil]
    have left : (front ++ back).filter (fun id => !isDecode id) = back := by
      rw [filter_append, filter_eq_nil_iff.mpr fun x member => by simp [decodes x member],
        filter_eq_self.mpr fun x member => by simp [prefills x member], nil_append]
    rw [eq] at perm described
    have front' := perm.filter isDecode
    have back' := perm.filter fun id => !isDecode id
    rw [kept] at front'
    rw [left] at back'
    rw [map_append] at described
    rw [described.split, ← front'.length_eq, ← back'.length_eq, ← (front'.map tokens).sum_eq,
      ← (back'.map tokens).sum_eq, length_map, length_map]
    · intro q member
      obtain ⟨id, inside, rfl⟩ := mem_map.mp member
      exact of_decide_eq_true (decodes id inside)
    · intro q member
      obtain ⟨id, inside, rfl⟩ := mem_map.mp member
      have := of_decide_eq_false (prefills id inside)
      omega

/-- Three requests in a batch that has recorded no swaps. -/
def threeRequests : InputBatch :=
  ⟨[some 7, some 8, some 9], ((PyDict.empty.set 7 0).set 8 1).set 9 2, fun _ => ⟨fun _ => 0, 0, 0, 0, []⟩,
    false, []⟩

/-- A prefill in front of two decodes takes one recorded swap. -/
theorem reorderBatch_splits_mixed :
    ∃ b', reorderBatchToSplitDecodesAndPrefills 1 (((PyDict.empty.set 7 5).set 8 1).set 9 1)
        threeRequests = .ok (true, b') ∧ b'.moved.length = 1 := by
  obtain ⟨swaps, b', done, _, moved, _, _, _, size, _⟩ := @reorderBatch_splits threeRequests [7, 8, 9]
    (((PyDict.empty.set 7 5).set 8 1).set 9 1) (fun id => if id = 7 then 5 else 1) 1 rfl (by decide)
  have one : swaps.length = 1 := size
  have some : (!swaps.isEmpty) = true := by
    cases swaps with
    | nil => cases one
    | cons => rfl
  rw [some] at done
  exact ⟨b', done, by rw [moved]; exact one⟩

end InputBatch

end Mimir
