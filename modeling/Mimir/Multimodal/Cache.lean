import Mathlib.Data.List.Sort
import Mimir.Theory.Lru
import Mimir.Python.Except
import Mimir.Request.Types

/-! The multimodal item caches of the front-end and of the engine core. -/

namespace Mimir

open Python Theory List

variable {M H I U : Type} [DecidableEq H]

/-- `MultiModalProcessorCacheItemMetadata`: what the front-end keeps of an item. -/
structure ItemMetadata (U : Type) where
  itemSize : Nat
  promptUpdates : U

/-- Processing and cache configuration, shared by both processes. -/
structure MmConfig (H I U : Type) where
  /-- The processed item of a hash, with its prompt updates. -/
  process : H → I × U
  /-- `MultiModalCache.get_item_size`. -/
  itemSize : I → Nat
  maxsize : Nat

/-- `MultiModalProcessorSenderCache._cache`. -/
abbrev SenderCache (H U : Type) := PyDict H (ItemMetadata U)

/-- `MultiModalReceiverCache._cache`. -/
abbrev ReceiverCache (H I : Type) := PyDict H I

/-- A request: the hash and prompt offset of each item of each modality. -/
structure MmRequest (M H : Type) where
  items : PyDict M (List (H × Nat))
  /-- Some items bypass the processor, so the whole request bypasses its cache. -/
  passthrough : Bool
  /-- Whether the validation that follows preprocessing lets the request through. -/
  valid : Bool

/-- A multimodal feature of an engine core request. -/
structure FeatureSpec (H I : Type) where
  offset : Nat
  identifier : H
  data : Option I

namespace MmConfig

variable (P : MmConfig H I U)

/-- `MultiModalProcessorSenderCache.get_and_update_item`. -/
def senderGetAndUpdateItem (cache : SenderCache H U) (mmItem : Option (I × U)) (mmHash : H) :
    Except Err ((Option I × U) × SenderCache H U) :=
  match Lru.get cache mmHash with
  | (some cachedItem, cache) =>
    -- The engine core has the item: its data need not be sent.
    pure ((none, cachedItem.promptUpdates), cache)
  | (none, cache) => do
    let item ← orRaise mmItem ⟨.assertion, .senderCache⟩
    let cache ← orRaise
      (Lru.put ItemMetadata.itemSize P.maxsize cache mmHash ⟨P.itemSize item.1, item.2⟩)
      ⟨.value, .cacheValueSize⟩
    pure ((some item.1, item.2), cache)

/-- `MultiModalReceiverCache.get_and_update_item`. -/
def receiverGetAndUpdateItem (cache : ReceiverCache H I) (mmItem : Option I) (mmHash : H) :
    Except Err (I × ReceiverCache H I) :=
  match Lru.get cache mmHash with
  | (some cachedItem, cache) => pure (cachedItem, cache)
  | (none, cache) => do
    let item ← orRaise mmItem ⟨.assertion, .receiverCache⟩
    let cache ← orRaise (Lru.put P.itemSize P.maxsize cache mmHash item) ⟨.value, .cacheValueSize⟩
    pure (item, cache)

/-- The inner loop of `_merge_mm_kwargs`: the items of one modality, with what was cached before. -/
def mergeModality (cache : SenderCache H U) :
    List (H × Bool) → List (I × U) → Except Err (List (Option I × U) × SenderCache H U)
  | [], _ => pure ([], cache)
  | (itemHash, isCached) :: rest, missing => do
    -- The next processed item belongs to the next hash that was not cached.
    let (item, missing) ←
      if isCached then pure (none, missing)
      else match missing with
        | [] => .error ⟨.index, .missingKwargs⟩
        | next :: later => pure (some next, later)
    let (merged, cache) ← P.senderGetAndUpdateItem cache item itemHash
    let (others, cache) ← mergeModality cache rest missing
    pure (merged :: others, cache)

/-- `_get_cache_missing_items` and the processor's run on them, for one modality. -/
def missingKwargs (hashes : List (H × Bool)) : List (I × U) :=
  (hashes.filter fun entry => !entry.2).map fun entry => P.process entry.1

/-- The outer loop of `_merge_mm_kwargs` over the modalities. -/
def mergeModalities (cache : SenderCache H U) :
    List (List (H × Bool)) → Except Err (List (List (Option I × U)) × SenderCache H U)
  | [] => pure ([], cache)
  | hashes :: rest => do
    let (merged, cache) ← P.mergeModality cache hashes (P.missingKwargs hashes)
    let (others, cache) ← mergeModalities cache rest
    pure (merged :: others, cache)

/-- `is_cached` of every item, taken before the cache is updated. -/
def mmIsCached (cache : SenderCache H U) (request : MmRequest M H) : List (List (H × Bool)) :=
  request.items.values.map fun items => items.map fun item => (item.1, cache.contains item.1)

/-- `_merge_mm_kwargs`. -/
def mergeMmKwargs (cache : SenderCache H U) (request : MmRequest M H) :
    Except Err (List (List (Option I × U)) × SenderCache H U) :=
  P.mergeModalities cache (mmIsCached cache request)

/-- `_cached_apply_hf_processor`: the data of each item, modality by modality. -/
def cachedApplyHfProcessor (cache : SenderCache H U) (request : MmRequest M H) :
    Except Err (List (List (Option I)) × SenderCache H U) :=
  if request.passthrough then
    pure (request.items.values.map (·.map fun item => some (P.process item.1).1), cache)
  else do
    let (merged, cache) ← P.mergeMmKwargs cache request
    pure (merged.map (·.map Prod.fst), cache)

end MmConfig

/-- The items of a request in the order the processor walks them. -/
def MmRequest.walk (request : MmRequest M H) : List (H × Nat) := request.items.values.flatten

/-- The items of a request by prompt position, as `argsort_mm_positions` orders them. -/
def MmRequest.byPosition (request : MmRequest M H) : List (H × Nat) :=
  request.walk.insertionSort fun a b => a.2 ≤ b.2

/-- The feature of an item, with the data that is sent for it. -/
def featureOf (item : H × Nat) (data : Option I) : FeatureSpec H I := ⟨item.2, item.1, data⟩

/-- The features of `process_inputs`: the items with their data, by prompt position. -/
def mmFeatures (request : MmRequest M H) (kwargs : List (List (Option I))) :
    List (FeatureSpec H I) :=
  (List.zipWith featureOf request.walk kwargs.flatten).insertionSort fun a b => a.offset ≤ b.offset

namespace MmConfig

variable (P : MmConfig H I U)

/-- `process_inputs`: the features to send, or none when the request is refused. -/
def processInputs (cache : SenderCache H U) (request : MmRequest M H) :
    Except Err (Option (List (FeatureSpec H I)) × SenderCache H U) := do
  let (kwargs, cache) ← P.cachedApplyHfProcessor cache request
  -- The validation comes after the cache has been updated.
  pure (if request.valid then some (mmFeatures request kwargs) else none, cache)

/-- `get_and_update_features`: the items the engine core uses. -/
def getAndUpdateFeatures (cache : ReceiverCache H I) :
    List (FeatureSpec H I) → Except Err (List I × ReceiverCache H I)
  | [] => pure ([], cache)
  | feature :: rest => do
    let (item, cache) ← P.receiverGetAndUpdateItem cache feature.data feature.identifier
    let (items, cache) ← getAndUpdateFeatures cache rest
    pure (item :: items, cache)

/-- The two caches. -/
structure Caches (H I U : Type) where
  sender : SenderCache H U
  receiver : ReceiverCache H I

/-- One request through the front-end and, if it is let through, the engine core. -/
def submit (caches : Caches H I U) (request : MmRequest M H) :
    Except Err (Option (List I) × Caches H I U) := do
  let (features, sender) ← P.processInputs caches.sender request
  match features with
  | none => pure (none, { caches with sender := sender })
  | some features =>
    let (items, receiver) ← P.getAndUpdateFeatures caches.receiver features
    pure (some items, ⟨sender, receiver⟩)

/-- A sequence of requests. -/
def submitAll (caches : Caches H I U) :
    List (MmRequest M H) → Except Err (List (Option (List I)) × Caches H I U)
  | [] => pure ([], caches)
  | request :: rest => do
    let (items, caches) ← P.submit caches request
    let (others, caches) ← submitAll caches rest
    pure (items :: others, caches)

/-- Both caches before the first request. -/
def noItems : Caches H I U := ⟨.empty, .empty⟩

/-! ### Requests that keep the caches in step -/

/-- The front-end's cache after an access to a hash. -/
def accessed (cache : SenderCache H U) (h : H) : SenderCache H U :=
  match cache.get? h with
  | some _ => Lru.touch cache h
  | none =>
    (Lru.put ItemMetadata.itemSize P.maxsize cache h
      ⟨P.itemSize (P.process h).1, (P.process h).2⟩).getD cache

/-- No hash that was cached at the start is evicted before its turn. -/
def Kept (start : SenderCache H U) : SenderCache H U → List H → Prop
  | _, [] => True
  | cache, h :: rest => (h ∈ start.keys → h ∈ cache.keys) ∧ Kept start (P.accessed cache h) rest

/-- What the caches need of a request with items. -/
structure Orderly (cache : SenderCache H U) (request : MmRequest M H) : Prop where
  valid : request.valid = true
  processed : request.passthrough = false
  /-- The items stand in the prompt in the order of the walk. -/
  ascending : request.walk.Pairwise fun a b => a.2 ≤ b.2
  kept : P.Kept cache cache (request.walk.map Prod.fst)

/-- What a request is answered with: the items processed for its hashes, by prompt position. -/
def served (request : MmRequest M H) : Option (List I) :=
  if request.valid then some (request.byPosition.map fun item => (P.process item.1).1) else none

/-- The front-end keeps the size and updates of exactly the items the engine core holds. -/
def InStep (caches : Caches H I U) : Prop :=
  Lru.Mirror (fun h data item => data = ⟨P.itemSize (P.process h).1, (P.process h).2⟩ ∧
    item = (P.process h).1) caches.sender caches.receiver

variable {P}

variable {caches : Caches H I U} {start : SenderCache H U}

/-- One access on both sides, with the data the front-end decides to send. -/
theorem InStep.access (step : P.InStep caches) {h : H}
    (fits : P.itemSize (P.process h).1 ≤ P.maxsize) (given : Option (I × U))
    (supplied : h ∉ caches.sender.keys → given = some (P.process h)) :
    ∃ merged receiver, P.senderGetAndUpdateItem caches.sender given h =
        .ok (merged, P.accessed caches.sender h) ∧
      P.receiverGetAndUpdateItem caches.receiver merged.1 h = .ok ((P.process h).1, receiver) ∧
      P.InStep ⟨P.accessed caches.sender h, receiver⟩ := by
  -- Either both sides hit, or both miss and store entries of one size.
  unfold senderGetAndUpdateItem receiverGetAndUpdateItem accessed Lru.get
  rcases Lru.Mirror.lookup step h with ⟨here, there⟩ | ⟨data, item, here, there, -, rfl⟩
  · have absent : h ∉ caches.sender.keys := PyDict.get?_eq_none_iff.mp here
    have sized : ∀ k (data : ItemMetadata U) item,
        (data = ⟨P.itemSize (P.process k).1, (P.process k).2⟩ ∧ item = (P.process k).1) →
          data.itemSize = P.itemSize item := fun k data item related => by
      rw [related.1, related.2]
    obtain ⟨sender, receiver, stored, storedThere, mirror⟩ :=
      Lru.Mirror.put sized step (k := h) ⟨rfl, rfl⟩ fits
    have same : Lru.touch caches.sender h = caches.sender := by rw [Lru.touch, here]
    have sameThere : Lru.touch caches.receiver h = caches.receiver := by rw [Lru.touch, there]
    simp only [here, there, same, sameThere, supplied absent, orRaise, Bind.bind, Except.bind]
    refine ⟨(some (P.process h).1, (P.process h).2), receiver, ?_, ?_, ?_⟩
    · simp only [stored]
      rfl
    · simp only [storedThere]
      rfl
    · rw [stored]
      exact mirror
  · simp only [here, there]
    exact ⟨_, _, rfl, rfl, Lru.Mirror.touch step h⟩

/-- The inner loop on one side and the features it makes on the other. -/
theorem InStep.mergeModality (items : List (H × Nat)) (rest : List H) (step : P.InStep caches)
    (fits : ∀ item ∈ items, P.itemSize (P.process item.1).1 ≤ P.maxsize)
    (kept : P.Kept start caches.sender (items.map Prod.fst ++ rest)) :
    ∃ merged after, P.mergeModality caches.sender
        (items.map fun item => (item.1, start.contains item.1))
        (P.missingKwargs (items.map fun item => (item.1, start.contains item.1))) =
          .ok (merged, after.sender) ∧
      merged.length = items.length ∧
      P.getAndUpdateFeatures caches.receiver (List.zipWith featureOf items (merged.map Prod.fst)) =
        .ok (items.map fun item => (P.process item.1).1, after.receiver) ∧
      P.InStep after ∧ P.Kept start after.sender rest := by
  -- The induction follows the walk; the processed items are used up in step with it.
  induction items generalizing caches with
  | nil => exact ⟨[], caches, rfl, rfl, rfl, step, kept⟩
  | cons item items ih =>
    simp only [map_cons, cons_append, Kept] at kept ⊢
    obtain ⟨still, kept⟩ := kept
    have small := fits item mem_cons_self
    have later := fun i member => fits i (mem_cons_of_mem _ member)
    -- The sender leaves out what its cache held at the start, and the cache still holds it.
    obtain ⟨merged, receiver, sent, used, step⟩ := step.access small
      (if start.contains item.1 then none else some (P.process item.1))
      fun absent => if_neg fun cached => absent (still (PyDict.contains_iff.mp cached))
    obtain ⟨others, after, sentLater, length, usedLater, stepLater, keptLater⟩ := ih step later kept
    refine ⟨merged :: others, after, ?_, by simp [length], ?_, stepLater, keptLater⟩
    · simp only [missingKwargs] at sentLater
      cases cached : start.contains item.1 <;>
        simp only [missingKwargs, MmConfig.mergeModality, cached, Bool.not_true, Bool.not_false,
          Bool.false_eq_true, not_false_eq_true, filter_cons_of_neg, filter_cons_of_pos,
          map_cons, if_true, if_false, Pure.pure, Except.pure, Bind.bind, Except.bind] at sent ⊢ <;>
        rw [sent] <;> dsimp only <;> rw [sentLater]
    · simp only [map_cons, zipWith_cons_cons, getAndUpdateFeatures, featureOf, used,
        Bind.bind, Except.bind]
      simp only at usedLater
      rw [usedLater]
      rfl

/-- Features are used one after the other. -/
theorem getAndUpdateFeatures_append {first second : List (FeatureSpec H I)}
    {start middle final : ReceiverCache H I} {items others : List I}
    (used : P.getAndUpdateFeatures start first = .ok (items, middle))
    (usedLater : P.getAndUpdateFeatures middle second = .ok (others, final)) :
    P.getAndUpdateFeatures start (first ++ second) = .ok (items ++ others, final) := by
  induction first generalizing start items with
  | nil =>
    cases used
    exact usedLater
  | cons feature rest ih =>
    simp only [getAndUpdateFeatures] at used
    obtain ⟨⟨item, cache⟩, here, used⟩ := bind_eq_ok.mp used
    obtain ⟨⟨more, cache'⟩, there, used⟩ := bind_eq_ok.mp used
    cases used
    simp only [cons_append, getAndUpdateFeatures, here, ih there, Bind.bind, Except.bind]
    rfl

/-- The whole walk on one side and the features it makes on the other. -/
theorem InStep.mergeModalities (modalities : List (List (H × Nat))) (step : P.InStep caches)
    (fits : ∀ item ∈ modalities.flatten, P.itemSize (P.process item.1).1 ≤ P.maxsize)
    (kept : P.Kept start caches.sender (modalities.flatten.map Prod.fst)) :
    ∃ merged after, P.mergeModalities caches.sender
        (modalities.map fun items => items.map fun item => (item.1, start.contains item.1)) =
          .ok (merged, after.sender) ∧
      P.getAndUpdateFeatures caches.receiver (List.zipWith featureOf modalities.flatten
        (merged.map (·.map Prod.fst)).flatten) =
          .ok (modalities.flatten.map fun item => (P.process item.1).1, after.receiver) ∧
      P.InStep after := by
  induction modalities generalizing caches with
  | nil => exact ⟨[], caches, rfl, rfl, step⟩
  | cons items rest ih =>
    simp only [flatten_cons, map_append, mem_append] at fits kept ⊢
    obtain ⟨merged, middle, sent, length, used, step, kept⟩ :=
      step.mergeModality items _ (fun item member => fits item (.inl member)) kept
    obtain ⟨others, after, sentLater, usedLater, step⟩ :=
      ih step (fun item member => fits item (.inr member)) kept
    refine ⟨merged :: others, after, ?_, ?_, step⟩
    · simp only [map_cons, MmConfig.mergeModalities, sent, sentLater, Bind.bind, Except.bind]
      rfl
    · rw [map_cons, flatten_cons, zipWith_append (by simp [length])]
      exact getAndUpdateFeatures_append used usedLater

/-- A request without items changes no cache, whether it is let through or not. -/
theorem InStep.submit_noItems (step : P.InStep caches) {request : MmRequest M H}
    (none : request.walk = []) :
    ∃ after, P.submit caches request = .ok (P.served request, after) ∧ P.InStep after := by
  have features : ∀ kwargs, (mmFeatures request kwargs : List (FeatureSpec H I)) = [] := fun kwargs => by
    rw [mmFeatures, none]
    rfl
  have answer : P.served request = if request.valid then some [] else Option.none := by
    rw [served, MmRequest.byPosition, none]
    rfl
  rw [answer]
  unfold MmRequest.walk at none
  cases past : request.passthrough with
  | true =>
    refine ⟨caches, ?_, step⟩
    simp only [MmConfig.submit, processInputs, cachedApplyHfProcessor, past, features, if_true]
    cases request.valid <;> rfl
  | false =>
    obtain ⟨merged, after, sent, used, step⟩ := step.mergeModalities request.items.values
      (by rw [none]; simp) (by rw [none]; trivial)
    have merges : P.mergeMmKwargs caches.sender request = .ok (merged, after.sender) := sent
    rw [none] at used
    have idle : caches.receiver = after.receiver := congrArg Prod.snd (Except.ok.inj used)
    refine ⟨after, ?_, step⟩
    simp only [MmConfig.submit, processInputs, cachedApplyHfProcessor, past, merges, features,
      Bool.false_eq_true, if_false, Bind.bind, Except.bind, Pure.pure, Except.pure]
    cases request.valid <;> simp [getAndUpdateFeatures, idle, Pure.pure, Except.pure]

/-- An orderly request is served with the items processed for its hashes, by prompt position. -/
theorem InStep.submit (step : P.InStep caches) {request : MmRequest M H}
    (orderly : P.Orderly caches.sender request)
    (fits : ∀ item ∈ request.walk, P.itemSize (P.process item.1).1 ≤ P.maxsize) :
    ∃ after, P.submit caches request = .ok (P.served request, after) ∧ P.InStep after := by
  obtain ⟨merged, after, sent, used, step⟩ :=
    step.mergeModalities request.items.values fits orderly.kept
  have walked : request.byPosition = request.walk := orderly.ascending.insertionSort_eq
  have placed : mmFeatures request (merged.map (·.map Prod.fst)) =
      List.zipWith featureOf request.walk (merged.map (·.map Prod.fst)).flatten := by
    apply List.Pairwise.insertionSort_eq
    rw [pairwise_iff_getElem]
    intro i j small smallJ below
    simp only [length_zipWith] at small smallJ
    simp only [getElem_zipWith, featureOf]
    exact pairwise_iff_getElem.mp orderly.ascending i j (by omega) (by omega) below
  refine ⟨after, ?_, step⟩
  have merges : P.mergeMmKwargs caches.sender request = .ok (merged, after.sender) := sent
  simp only [MmConfig.submit, processInputs, cachedApplyHfProcessor, served, orderly.processed,
    orderly.valid, merges, Bind.bind, Except.bind, Bool.false_eq_true, if_false, if_true, Pure.pure,
    Except.pure]
  rw [placed, walked]
  simp only [MmRequest.walk] at used ⊢
  rw [used]

/-- A run of requests each of which is orderly when its turn comes. -/
theorem InStep.submitAll (requests : List (MmRequest M H)) (step : P.InStep caches)
    (fits : ∀ request ∈ requests, ∀ item ∈ request.walk, P.itemSize (P.process item.1).1 ≤ P.maxsize)
    (orderly : ∀ front request rest, requests = front ++ request :: rest → ∀ used middle,
      P.submitAll caches front = .ok (used, middle) → request.walk ≠ [] →
        P.Orderly middle.sender request) :
    ∃ after, P.submitAll caches requests = .ok (requests.map P.served, after) ∧ P.InStep after := by
  induction requests generalizing caches with
  | nil => exact ⟨caches, rfl, step⟩
  | cons request rest ih =>
    obtain ⟨middle, served, step⟩ : ∃ middle,
        P.submit caches request = .ok (P.served request, middle) ∧ P.InStep middle := by
      by_cases none : request.walk = []
      · exact step.submit_noItems none
      · exact step.submit (orderly [] request rest rfl [] caches rfl none)
          (fits request mem_cons_self)
    have later : ∀ front next behind, rest = front ++ next :: behind → ∀ used last,
        P.submitAll middle front = .ok (used, last) → next.walk ≠ [] →
          P.Orderly last.sender next := by
      intro front next behind split used last ran
      refine orderly (request :: front) next behind (by rw [split]; rfl)
        (P.served request :: used) last ?_
      simp only [MmConfig.submitAll, served, ran, Bind.bind, Except.bind]
      rfl
    obtain ⟨after, servedLater, step⟩ :=
      ih step (fun r member => fits r (mem_cons_of_mem _ member)) later
    refine ⟨after, ?_, step⟩
    simp only [MmConfig.submitAll, served, servedLater, Bind.bind, Except.bind, map_cons]
    rfl

/-- The mirror of the two caches: in every run in which the requests with items are orderly, no assertion
fails, and the engine core uses for each feature the item processed for its hash. -/
theorem caches_mirror (P : MmConfig H I U) (requests : List (MmRequest M H))
    (fits : ∀ request ∈ requests, ∀ item ∈ request.walk, P.itemSize (P.process item.1).1 ≤ P.maxsize)
    (orderly : ∀ front request rest, requests = front ++ request :: rest → ∀ used middle,
      P.submitAll noItems front = .ok (used, middle) → request.walk ≠ [] →
        P.Orderly middle.sender request) :
    ∃ after, P.submitAll noItems requests = .ok (requests.map P.served, after) := by
  have start : P.InStep noItems := Lru.Mirror.empty
  obtain ⟨after, served, -⟩ := start.submitAll requests fits orderly
  exact ⟨after, served⟩

/-- Items of size one in caches that hold two of them. -/
def twoItems : MmConfig Nat Nat Unit := ⟨fun h => (100 + h, ()), fun _ => 1, 2⟩

/-- A request with one modality, accepted or not. -/
def oneModality (items : List (Nat × Nat)) (valid : Bool) : MmRequest Nat Nat :=
  ⟨⟨[(0, items)], by simp⟩, false, valid⟩

/-- A request that repeats an item is served, and a refused one without items follows it. -/
theorem caches_mirror_repeated :
    ∃ after, twoItems.submitAll noItems [oneModality [(5, 0), (6, 4), (5, 9)] true,
      oneModality [] false] = .ok ([some [105, 106, 105], none], after) := by
  apply caches_mirror twoItems [oneModality [(5, 0), (6, 4), (5, 9)] true, oneModality [] false]
  · intro request _ item _
    exact Nat.le_succ 1
  · intro front request rest split used middle ran some
    match front with
    | [] =>
      cases split
      cases ran
      exact ⟨rfl, rfl, by decide, by
        simp [Kept, noItems, oneModality, MmRequest.walk, PyDict.values]⟩
    | [first] =>
      cases split
      exact absurd rfl some
    | first :: second :: others =>
      cases others with
      | nil => cases split
      | cons => cases split

/-- A refused request leaves its items in the front-end's cache only: the next request with one of them
fails in the engine core. Items out of prompt order and evictions within a request fail as well. -/
theorem caches_not_mirrored :
    twoItems.submitAll noItems [oneModality [(5, 0)] false, oneModality [(5, 0)] true] =
        .error ⟨.assertion, .receiverCache⟩ ∧
      twoItems.submitAll noItems [oneModality [(5, 9), (5, 0)] true] =
        .error ⟨.assertion, .receiverCache⟩ ∧
      twoItems.submitAll noItems [oneModality [(5, 0), (6, 4)] true,
        oneModality [(7, 0), (5, 4)] true] = .error ⟨.assertion, .senderCache⟩ :=
  ⟨rfl, rfl, rfl⟩

end MmConfig

end Mimir
