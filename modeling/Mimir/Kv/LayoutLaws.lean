import Mathlib.Data.List.Pairwise
import Mimir.Kv.Layout

/-! Laws of the memory layout: every layer once, memory within bounds, and shared tensors across groups only. -/

namespace Mimir

open Python List

section Lists

variable {α : Type}

/-- Consecutive slices make up the list as far as they go. -/
theorem flatten_slices (layers : List α) (size n : Nat) :
    ((List.range n).map fun i => (layers.drop (i * size)).take size).flatten =
      layers.take (n * size) := by
  induction n with
  | zero => simp
  | succ n ih =>
    rw [range_succ, map_append, flatten_append, ih]
    simp [Nat.succ_mul, take_add]

variable {size n : Nat} {rows : List (List α)}

/-- The chunks of a list make up the list. -/
theorem flatten_chunks (positive : 0 < size) (layers : List α) :
    (chunks size layers).flatten = layers := by
  unfold chunks
  rw [flatten_slices, take_of_length_le]
  -- The number of chunks is rounded up.
  have enough := le_cdiv_mul (layers.length : Int) (show (0 : Int) < size by omega)
  have count : cdiv (layers.length : Int) size ≤ (cdiv (layers.length : Int) size).toNat :=
    Int.self_le_toNat _
  have scaled := Int.mul_le_mul_of_nonneg_right count (show (0 : Int) ≤ size by omega)
  zify
  omega

/-- A list of lists cut into chunks still holds the same elements. -/
theorem flatten_flatMap_chunks (positive : 0 < size) (lists : List (List α)) :
    (lists.flatMap (chunks size)).flatten = lists.flatten := by
  induction lists with
  | nil => rfl
  | cons list lists ih =>
    rw [flatMap_cons, flatten_append, flatten_chunks positive, ih, flatten_cons]

/-- Equal sizes add up to a multiple. -/
theorem sum_map_const (xs : List α) (size : Nat) : (xs.map fun _ => size).sum = xs.length * size := by
  rw [map_const', sum_replicate_nat]

/-- No chunk is longer than asked for. -/
theorem length_of_mem_chunks {layers chunk : List α} (member : chunk ∈ chunks size layers) :
    chunk.length ≤ size := by
  obtain ⟨i, -, rfl⟩ := mem_map.mp member
  exact length_take_le _ _

/-- Reading a list position by position gives the list. -/
theorem flatMap_getElem? (row : List α) (long : row.length ≤ n) :
    ((List.range n).flatMap fun i => row[i]?.toList) = row := by
  induction n generalizing row with
  | zero => simp [length_eq_zero_iff.mp (Nat.le_zero.mp long)]
  | succ n ih =>
    rw [range_succ_eq_map, flatMap_cons, flatMap_map]
    cases row with
    | nil => simp
    | cons first rest =>
      have tail := ih rest (Nat.succ_le_succ_iff.mp long)
      simpa using tail

/-- The columns of some rows hold what the rows hold. -/
theorem columns_perm (rows : List (List α)) (short : ∀ row ∈ rows, row.length ≤ n) :
    ((List.range n).flatMap (sharedBy rows)).Perm rows.flatten := by
  induction rows with
  | nil => simp [sharedBy]
  | cons row rows ih =>
    have step : sharedBy (row :: rows) = fun i => row[i]?.toList ++ sharedBy rows i := by
      funext i
      unfold sharedBy
      cases found : row[i]? <;> simp [found]
    rw [step, flatten_cons]
    have split := flatMap_append_perm (List.range n) (fun i => row[i]?.toList) (sharedBy rows)
    rw [flatMap_getElem? row (short row mem_cons_self)] at split
    exact split.symm.trans
      ((ih fun row' member => short row' (mem_cons_of_mem _ member)).append_left row)

/-- Rows without repetitions that share an element are one row. -/
theorem row_unique (nodup : rows.flatten.Nodup) {row row' : List α}
    (known : row ∈ rows) (known' : row' ∈ rows) {a : α} (member : a ∈ row) (member' : a ∈ row') :
    row = row' := by
  by_contra other
  have apart := (nodup_flatten.mp nodup).2
  have symmetric : Std.Symm (List.Disjoint (α := α)) := ⟨fun _ _ disjoint => disjoint.symm⟩
  exact apart.forall known known' other member member'

/-- Two elements of one column are in no row together. -/
theorem column_apart (nodup : rows.flatten.Nodup) {i : Nat} {a b : α}
    (first : a ∈ sharedBy rows i) (second : b ∈ sharedBy rows i) (other : a ≠ b) {row : List α}
    (known : row ∈ rows) (member : a ∈ row) : b ∉ row := by
  intro member'
  obtain ⟨row₁, known₁, at₁⟩ := mem_filterMap.mp first
  obtain ⟨row₂, known₂, at₂⟩ := mem_filterMap.mp second
  have same₁ := row_unique nodup known known₁ member (mem_of_getElem? at₁)
  have same₂ := row_unique nodup known known₂ member' (mem_of_getElem? at₂)
  rw [← same₁] at at₁
  rw [← same₂, at₁] at at₂
  exact other (Option.some.inj at₂)

end Lists

section Groups

variable {L : Type}

/-- Appending to the list of a key appends to all lists together. -/
theorem flatten_values_push {K V : Type} [DecidableEq K] (d : PyDict K (List V)) (k : K) (v : V) :
    (d.set k ((d.get? k).getD [] ++ [v])).values.flatten.Perm (d.values.flatten ++ [v]) := by
  have replaced : ∀ items : List (K × List V), k ∈ items.map Prod.fst →
      ((PyDict.replace k ((items.lookup k).getD [] ++ [v]) items).map Prod.snd).flatten.Perm
        ((items.map Prod.snd).flatten ++ [v]) := by
    intro items known
    induction items with
    | nil => cases known
    | cons item rest ih =>
      obtain ⟨k', list⟩ := item
      rw [PyDict.lookup_cons_ite]
      unfold PyDict.replace
      by_cases here : k' = k
      · subst here
        simp only [if_true, Option.getD_some, map_cons, flatten_cons, append_assoc]
        exact (perm_append_comm).append_left list
      · rw [if_neg here, if_neg (Ne.symm here)]
        simp only [map_cons, flatten_cons, append_assoc]
        have later : k ∈ rest.map Prod.fst := by
          rcases mem_cons.mp known with same | later
          · exact absurd same.symm here
          · exact later
        exact (ih later).append_left list
  unfold PyDict.values PyDict.set
  split
  · next known => exact replaced d.items known
  · next absent =>
    have none : d.get? k = none := PyDict.get?_eq_none_iff.mpr absent
    simp [none]

/-- The layers by type are the layers. -/
theorem sameTypeLayers_perm (kvCacheSpec : PyDict L LayerSpec) :
    (sameTypeLayers kvCacheSpec).values.flatten.Perm kvCacheSpec.keys := by
  -- The induction is on the layers still to come; those before them are in the lists.
  have loop : ∀ (items : List (L × LayerSpec)) (layers : PyDict LayerSpec (List L)),
      (items.foldl (fun layers item => layers.set item.2 ((layers.get? item.2).getD [] ++ [item.1]))
        layers).values.flatten.Perm (layers.values.flatten ++ items.map Prod.fst) := by
    intro items
    induction items with
    | nil => simp
    | cons item rest ih =>
      intro layers
      rw [foldl_cons]
      refine (ih _).trans ?_
      have push := flatten_values_push layers item.2 item.1
      simpa using push.append_right (rest.map Prod.fst)
  exact loop kvCacheSpec.items .empty

variable {kvCacheSpec : PyDict L LayerSpec} {pageSize numBlocks : Nat} {availableMemory : Int}
  {config : KVCacheConfig L}

/-- The one page size is the size of every layer's page. -/
theorem getUniformPageSize_spec (done : getUniformPageSize kvCacheSpec = .ok pageSize) :
    ∀ spec ∈ kvCacheSpec.values, spec.pageSizeBytes = .ok pageSize := by
  obtain ⟨pageSizes, sizes, tail⟩ := bind_eq_ok.mp done
  split at tail
  · next only single =>
    cases tail
    have each := mapM_eq_ok.mp sizes
    -- A list with one value without repetitions has no other value.
    have same : ∀ size ∈ pageSizes, size = pageSize := fun size member => by
      rw [← mem_dedup, single, mem_singleton] at member
      exact member
    clear sizes done single
    generalize kvCacheSpec.values = specs at each ⊢
    induction each with
    | nil => simp
    | cons here _ ih =>
      intro spec member
      rcases mem_cons.mp member with rfl | later
      · rw [here, same _ mem_cons_self]
      · exact ih (fun size member => same size (mem_cons_of_mem _ member)) spec later
  · cases tail

/-- As many blocks as fit leave the memory sufficient. -/
theorem getNumBlocks_spec {numLayers : Nat} (positive : 0 < availableMemory)
    (done : getNumBlocks numLayers availableMemory pageSize = .ok numBlocks) :
    ((numLayers * (pageSize * numBlocks) : Nat) : Int) ≤ availableMemory := by
  obtain ⟨_, nonzero, built⟩ := bind_eq_ok.mp done
  cases built
  have sizes := require_eq_ok.mp nonzero
  have page : (0 : Int) < pageSize := by omega
  have layers : (0 : Int) < numLayers := by omega
  rw [Int.fdiv_eq_ediv_of_nonneg _ page.le, Int.fdiv_eq_ediv_of_nonneg _ layers.le]
  have pages : availableMemory / pageSize * pageSize ≤ availableMemory :=
    Int.ediv_mul_le _ page.ne'
  have blocks : availableMemory / pageSize / numLayers * numLayers ≤ availableMemory / pageSize :=
    Int.ediv_mul_le _ layers.ne'
  have scaled := Int.mul_le_mul_of_nonneg_right blocks page.le
  have count : ((availableMemory / pageSize / numLayers).toNat : Int) =
      availableMemory / pageSize / numLayers :=
    Int.toNat_of_nonneg (Int.ediv_nonneg (Int.ediv_nonneg positive.le page.le) layers.le)
  push_cast
  rw [count]
  calc (numLayers : Int) * (pageSize * (availableMemory / pageSize / numLayers))
      = availableMemory / pageSize / numLayers * numLayers * pageSize := by ring
    _ ≤ availableMemory / pageSize * pageSize := scaled
    _ ≤ availableMemory := pages

/-- A layout of some layers within some memory. -/
structure KVCacheConfig.Laid (config : KVCacheConfig L) (layers : List L) (pageSize : Nat)
    (availableMemory : Int) : Prop where
  groups : (config.kvCacheGroups.flatMap (·.layerNames)).Perm layers
  tensors : (config.kvCacheTensors.flatMap (·.sharedBy)).Perm layers
  total : (((config.kvCacheTensors.map (·.size)).sum : Nat) : Int) ≤ availableMemory
  size : ∀ tensor ∈ config.kvCacheTensors, pageSize * config.numBlocks ≤ tensor.size
  /-- Layers of one tensor are in different groups. -/
  apart : ∀ tensor ∈ config.kvCacheTensors, ∀ a ∈ tensor.sharedBy, ∀ b ∈ tensor.sharedBy, a ≠ b →
    ∀ group ∈ config.kvCacheGroups, a ∈ group.layerNames → b ∉ group.layerNames

/-- Full attention in place of a window or a chunk has pages of the same size. -/
theorem LayerSpec.toFullAttention_pageSize (spec : LayerSpec) :
    spec.toFullAttention.pageSizeBytes = spec.pageSizeBytes := by
  cases spec with
  | attention fields kind => cases kind <;> rfl
  | mamba => rfl

/-- Making the specs alike keeps the layers and their page sizes. -/
theorem unifyHybridKvCacheSpecs_spec {unified : PyDict L LayerSpec}
    (done : unifyHybridKvCacheSpecs kvCacheSpec = .ok unified) :
    unified.keys = kvCacheSpec.keys ∧ ∀ pageSize : Nat,
      (∀ spec ∈ unified.values, spec.pageSizeBytes = .ok pageSize) →
        ∀ spec ∈ kvCacheSpec.values, spec.pageSizeBytes = .ok pageSize := by
  obtain ⟨uniform, -, tail⟩ := bind_eq_ok.mp done
  split at tail
  · cases tail
    exact ⟨rfl, fun _ each => each⟩
  · obtain ⟨_, -, tail⟩ := bind_eq_ok.mp tail
    obtain ⟨_, -, built⟩ := bind_eq_ok.mp tail
    split at built
    · cases built
      refine ⟨?_, fun pageSize each spec member => ?_⟩
      · simp [mapValues, PyDict.keys, Function.comp_def]
      · rw [← LayerSpec.toFullAttention_pageSize]
        apply each
        simp only [mapValues, PyDict.values, map_map] at member ⊢
        obtain ⟨item, known, rfl⟩ := mem_map.mp member
        exact mem_map.mpr ⟨item, known, rfl⟩
    · cases built
      exact ⟨rfl, fun _ each => each⟩

/-- The sort only moves groups, and puts the classes in order. -/
theorem sortGroups_spec (fieldsBefore : LayerSpec → LayerSpec → Bool) (config : KVCacheConfig L) :
    (sortGroups fieldsBefore config).kvCacheGroups.Perm config.kvCacheGroups ∧
      (sortGroups fieldsBefore config).kvCacheGroups.Pairwise
        fun a b => a.kvCacheSpec.className ≤ b.kvCacheSpec.className := by
  refine ⟨perm_insertionSort _ _, ?_⟩
  -- Inserting a group puts it behind smaller classes and before larger ones, whatever the fields say.
  have insert : ∀ (a : KVCacheGroupSpec L) (groups : List (KVCacheGroupSpec L)),
      groups.Pairwise (fun a b => a.kvCacheSpec.className ≤ b.kvCacheSpec.className) →
      (groups.orderedInsert (groupBefore fieldsBefore) a).Pairwise
        fun a b => a.kvCacheSpec.className ≤ b.kvCacheSpec.className := by
    intro a groups sorted
    induction groups with
    | nil => simp
    | cons b groups ih =>
      have later := pairwise_cons.mp sorted
      rw [orderedInsert_cons]
      split
      · next first =>
        have below : a.kvCacheSpec.className ≤ b.kvCacheSpec.className := by
          rcases first with less | ⟨same, -⟩ <;> omega
        refine pairwise_cons.mpr ⟨fun x member => ?_, sorted⟩
        rcases mem_cons.mp member with rfl | behind
        · exact below
        · exact Nat.le_trans below (later.1 x behind)
      · next second =>
        have above : b.kvCacheSpec.className ≤ a.kvCacheSpec.className := by
          by_contra less
          exact second (.inl (by omega))
        refine pairwise_cons.mpr ⟨fun x member => ?_, ih later.2⟩
        rw [mem_orderedInsert] at member
        rcases member with rfl | behind
        · exact above
        · exact later.1 x behind
  unfold sortGroups
  generalize config.kvCacheGroups = groups
  induction groups with
  | nil => simp
  | cons a groups ih => exact insert a _ ih

/-- What all workers get: their own layout, with the smallest number of blocks of all. -/
theorem unifyKvCacheConfigs_spec {fieldsBefore : LayerSpec → LayerSpec → Bool}
    {configs unified : List (KVCacheConfig L)}
    (done : unifyKvCacheConfigs fieldsBefore configs = .ok unified) :
    ∃ numBlocks, List.Forall₂ (fun before after => numBlocks ≤ before.numBlocks ∧
      after = { sortGroups fieldsBefore before with numBlocks := numBlocks }) configs unified := by
  obtain ⟨_, -, tail⟩ := bind_eq_ok.mp done
  obtain ⟨minNumBlocks, least, built⟩ := bind_eq_ok.mp tail
  cases built
  rw [map_map]
  have bound := orRaise_eq_ok.mp least
  refine ⟨minNumBlocks, forall₂_map_right_iff.mpr (forall₂_same.mpr fun config member => ?_)⟩
  refine ⟨?_, rfl⟩
  rw [map_map] at bound
  exact (min?_eq_some_iff.mp bound).2 _ (mem_map_of_mem member)

/-- Sorting groups and lowering the number of blocks keeps a layout. -/
theorem KVCacheConfig.Laid.unified {layers : List L}
    (laid : config.Laid layers pageSize availableMemory)
    (fieldsBefore : LayerSpec → LayerSpec → Bool)
    (fewer : numBlocks ≤ config.numBlocks) :
    ({ sortGroups fieldsBefore config with numBlocks := numBlocks } : KVCacheConfig L).Laid layers
      pageSize availableMemory := by
  have perm := (sortGroups_spec fieldsBefore config).1
  exact {
    groups := (perm.flatMap_right _).trans laid.groups
    tensors := laid.tensors
    total := laid.total
    size := fun tensor member =>
      Nat.le_trans (Nat.mul_le_mul_left pageSize fewer) (laid.size tensor member)
    apart := fun tensor member a first b second other group known =>
      laid.apart tensor member a first b second other group (perm.mem_iff.mp known) }

variable [DecidableEq L]

/-- The groups have the layers they were made for. -/
theorem createKvCacheGroupSpecs_layers
    {groupedLayerNames : List (List L)} {groups : List (KVCacheGroupSpec L)}
    (done : createKvCacheGroupSpecs kvCacheSpec groupedLayerNames = .ok groups) :
    groups.map (·.layerNames) = groupedLayerNames := by
  have each := mapM_eq_ok.mp done
  clear done
  induction each with
  | nil => rfl
  | cons here _ ih =>
    obtain ⟨specs, -, tail⟩ := bind_eq_ok.mp here
    obtain ⟨merged, -, built⟩ := bind_eq_ok.mp tail
    cases built
    rw [map_cons, ih]

/-- A tensor for each layer. -/
theorem getKvCacheConfigUniformType_laid (positive : 0 < availableMemory)
    (done : getKvCacheConfigUniformType kvCacheSpec availableMemory = .ok config) :
    ∃ pageSize, (∀ spec ∈ kvCacheSpec.values, spec.pageSizeBytes = .ok pageSize) ∧
      config.Laid kvCacheSpec.keys pageSize availableMemory := by
  obtain ⟨pageSize, uniform, tail⟩ := bind_eq_ok.mp done
  obtain ⟨numBlocks, counted, tail⟩ := bind_eq_ok.mp tail
  obtain ⟨groups, created, built⟩ := bind_eq_ok.mp tail
  cases built
  have enough := getNumBlocks_spec positive counted
  refine ⟨pageSize, getUniformPageSize_spec uniform, ?_, ?_, ?_, ?_, ?_⟩
  · have layers := createKvCacheGroupSpecs_layers created
    simp only [flatMap_def, layers, flatten_cons, flatten_nil, append_nil]
    exact .refl _
  · simp [flatMap_map]
  · rw [map_map]
    exact (congrArg Int.ofNat (sum_map_const _ _)).trans_le enough
  · intro tensor member
    obtain ⟨name, -, rfl⟩ := mem_map.mp member
    exact Nat.le_refl _
  · intro tensor member a first b second other
    obtain ⟨name, -, rfl⟩ := mem_map.mp member
    rw [mem_singleton] at first second
    exact absurd (first.trans second.symm) other

/-- A tensor for each column of the groups. -/
theorem getKvCacheConfigUniformPageSize_laid (positive : 0 < availableMemory)
    (done : getKvCacheConfigUniformPageSize kvCacheSpec availableMemory = .ok config) :
    ∃ pageSize, (∀ spec ∈ kvCacheSpec.values, spec.pageSizeBytes = .ok pageSize) ∧
      config.Laid kvCacheSpec.keys pageSize availableMemory := by
  obtain ⟨groupSize, -, tail⟩ := bind_eq_ok.mp done
  obtain ⟨groups, created, tail⟩ := bind_eq_ok.mp tail
  obtain ⟨pageSize, uniform, tail⟩ := bind_eq_ok.mp tail
  obtain ⟨numBlocks, counted, built⟩ := bind_eq_ok.mp tail
  cases built
  have enough := getNumBlocks_spec positive counted
  have nonempty : 0 < groupSize := by
    obtain ⟨_, nonzero, -⟩ := bind_eq_ok.mp counted
    exact Nat.pos_of_ne_zero (require_eq_ok.mp nonzero).2
  have layers := createKvCacheGroupSpecs_layers created
  generalize rows : (sameTypeLayers kvCacheSpec).values.flatMap (chunks groupSize) = groupedLayers
    at layers created
  have flat : groupedLayers.flatten.Perm kvCacheSpec.keys := by
    refine List.Perm.trans ?_ (sameTypeLayers_perm kvCacheSpec)
    rw [← rows, flatten_flatMap_chunks nonempty]
  have short : ∀ row ∈ groupedLayers, row.length ≤ groupSize := by
    intro row member
    rw [← rows] at member
    obtain ⟨list, -, member⟩ := mem_flatMap.mp member
    exact length_of_mem_chunks member
  have nodup : groupedLayers.flatten.Nodup := flat.nodup_iff.mpr kvCacheSpec.nodup
  refine ⟨pageSize, getUniformPageSize_spec uniform, ?_, ?_, ?_, ?_, ?_⟩
  · simp only [flatMap_def, layers]
    exact flat
  · rw [flatMap_map]
    exact (columns_perm groupedLayers short).trans flat
  · rw [map_map]
    have total := sum_map_const (List.range groupSize) (pageSize * numBlocks)
    rw [length_range] at total
    exact (congrArg Int.ofNat total).trans_le enough
  · intro tensor member
    obtain ⟨i, -, rfl⟩ := mem_map.mp member
    exact Nat.le_refl _
  · intro tensor member a first b second other group known inside
    obtain ⟨i, -, rfl⟩ := mem_map.mp member
    have row : group.layerNames ∈ groupedLayers := by
      rw [← layers]
      exact mem_map_of_mem known
    exact column_apart nodup first second other row inside

/-- Every configuration of a model with layers is a layout of them. -/
theorem getKvCacheConfig_laid {disableHybrid : Bool} (nonempty : kvCacheSpec.keys ≠ [])
    (done : getKvCacheConfig disableHybrid kvCacheSpec availableMemory = .ok config) :
    ∃ pageSize, (∀ spec ∈ kvCacheSpec.values, spec.pageSizeBytes = .ok pageSize) ∧
      config.Laid kvCacheSpec.keys pageSize availableMemory := by
  obtain ⟨_, memory, tail⟩ := bind_eq_ok.mp done
  have positive := (require_eq_ok.mp memory).resolve_left nonempty
  obtain ⟨specs, unified, tail⟩ := bind_eq_ok.mp tail
  have same : specs.keys = kvCacheSpec.keys ∧ ∀ pageSize : Nat,
      (∀ spec ∈ specs.values, spec.pageSizeBytes = .ok pageSize) →
        ∀ spec ∈ kvCacheSpec.values, spec.pageSizeBytes = .ok pageSize := by
    unfold layoutSpecs at unified
    split at unified
    · exact unifyHybridKvCacheSpecs_spec unified
    · cases unified
      exact ⟨rfl, fun _ each => each⟩
  rw [if_neg (by rw [same.1]; exact nonempty)] at tail
  obtain ⟨uniform, -, tail⟩ := bind_eq_ok.mp tail
  have laid : ∃ pageSize, (∀ spec ∈ specs.values, spec.pageSizeBytes = .ok pageSize) ∧
      config.Laid specs.keys pageSize availableMemory := by
    split at tail
    · exact getKvCacheConfigUniformType_laid positive tail
    · obtain ⟨_, -, tail⟩ := bind_eq_ok.mp tail
      obtain ⟨_, -, tail⟩ := bind_eq_ok.mp tail
      exact getKvCacheConfigUniformPageSize_laid positive tail
  obtain ⟨pageSize, pages, laid⟩ := laid
  exact ⟨pageSize, same.2 pageSize pages, same.1 ▸ laid⟩


end Groups

end Mimir
