import Mathlib.Data.List.Forall2
import Mathlib.Data.List.NodupEquivFin
import Mimir.Kv.CacheManager
import Mimir.Kv.PoolLaws

/-! What a cache lookup returns: blocks that carry the hashes of their positions. -/

namespace Mimir

open Python List

variable {H : Type} {p : BlockPool H} {hashes : List H} {hit : List BlockId}
  {lists result : List (List BlockId)} {cfg : KVConfig} {kv : KVCacheManager H}
  {n i contiguous count dcpWorldSize : Nat} {maxLength numTokens needed : Int} {h : H} {spec : KVCacheSpec}
  {useEagle : Bool}

section Lists

variable {α β γ : Type}

variable {R : α → β → Prop} {as : List α} {bs : List β}

/-- Pointwise facts about two lists of one length give facts about their combination. -/
theorem forall₂_zipWith {δ : Type} {S : α → γ → Prop} {T : α → δ → Prop}
    {f : β → γ → δ} (combine : ∀ a b c, R a b → S a c → T a (f b c))
    {cs : List γ} (first : List.Forall₂ R as bs) (second : List.Forall₂ S as cs) :
    List.Forall₂ T as (List.zipWith f bs cs) := by
  induction first generalizing cs with
  | nil => cases second; exact .nil
  | cons here _ ih =>
    cases second with
    | cons here' rest' => exact .cons (combine _ _ _ here here') (ih rest')

/-- An element occurs at most once if it stands at one index only. -/
theorem count_le_one_iff [DecidableEq α] {list : List α} {a : α} :
    list.count a ≤ 1 ↔ ∀ i j : Nat, list[i]? = some a → list[j]? = some a → i = j := by
  rw [← Nat.not_lt, Nat.lt_iff_add_one_le, ← duplicate_iff_two_le_count, duplicate_iff_exists_distinct_get]
  constructor
  · intro none i j first second
    obtain ⟨below, rfl⟩ := List.getElem?_eq_some_iff.mp first
    obtain ⟨below', eq⟩ := List.getElem?_eq_some_iff.mp second
    by_contra other
    rcases Nat.lt_or_gt_of_ne other with lt | lt
    · exact none ⟨⟨i, below⟩, ⟨j, below'⟩, lt, rfl, eq.symm⟩
    · exact none ⟨⟨j, below'⟩, ⟨i, below⟩, lt, eq.symm, rfl⟩
  · rintro once ⟨i, j, lt, first, second⟩
    exact lt.ne (Fin.ext (once i j (by simp [first]) (by simp [second])))

end Lists

variable {g : Nat}

/-- A lookup result: each entry is the placeholder or goes with the hash of its index. -/
def HitsBy (C : H → BlockId → Prop) (hashes : List H) (hit : List BlockId) : Prop :=
  ∀ (i : Nat) (b : BlockId), hit[i]? = some b → b = nullBlock ∨ ∃ h, hashes[i]? = some h ∧ C h b

namespace HitsBy

variable {C : H → BlockId → Prop}

/-- No hits at all. -/
theorem nil : HitsBy C hashes [] := by
  intro i b found
  simp at found

variable (hits : HitsBy C hashes hit)

include hits

/-- A shorter lookup result. -/
theorem take (n : Nat) : HitsBy C hashes (hit.take n) := by
  intro i b found
  rw [getElem?_take] at found
  split at found
  · exact hits i b found
  · cases found

omit hits in
/-- Hits found with a part of the hashes are hits. -/
theorem of_take (hits : HitsBy C (hashes.take n) hit) : HitsBy C hashes hit := by
  intro i b found
  rcases hits i b found with null | ⟨h, atIndex, hashed⟩
  · exact .inl null
  · rw [getElem?_take] at atIndex
    split at atIndex
    · exact .inr ⟨h, atIndex, hashed⟩
    · cases atIndex

omit hits in
/-- Placeholders are no hits. -/
theorem replicate (n : Nat) : HitsBy C hashes (List.replicate n nullBlock) := by
  intro i b found
  rw [getElem?_replicate] at found
  split at found
  · exact .inl (Option.some.inj found).symm
  · cases found

variable {b : BlockId}

/-- One more hit behind the others. -/
theorem append (next : hashes[hit.length]? = some h) (carries : C h b) : HitsBy C hashes (hit ++ [b]) := by
  intro i x found
  rw [getElem?_append] at found
  split at found
  · exact hits i x found
  · rename_i beyond
    obtain ⟨index, same⟩ : i - hit.length = 0 ∧ b = x := by
      cases offset : i - hit.length with
      | zero => rw [offset] at found; exact ⟨rfl, Option.some.inj found⟩
      | succ => rw [offset] at found; simp at found
    have exact' : i = hit.length := by omega
    subst same exact'
    exact .inr ⟨h, next, carries⟩

/-- One more hit in the middle. -/
theorem set (atIndex : hashes[i]? = some h) (carries : C h b) : HitsBy C hashes (hit.set i b) := by
  intro j x found
  rw [getElem?_set] at found
  split at found
  · rename_i same
    subst same
    split at found
    · cases found
      exact .inr ⟨h, atIndex, carries⟩
    · cases found
  · exact hits j x found

end HitsBy

/-- A lookup result of one group: each entry is the placeholder or carries the hash of its index. -/
abbrev Hits (p : BlockPool H) (hashes : List H) (g : Nat) (hit : List BlockId) : Prop :=
  HitsBy (fun h b => (p.blocks b).blockHash = some (h, g)) hashes hit

namespace Hits

variable (hits : Hits p hashes g hit)

include hits

/-- An element found at one index only occurs at most once. -/
theorem count_le_one {b : BlockId} (distinct : hashes.Nodup) (real : b ≠ nullBlock) : hit.count b ≤ 1 := by
  refine count_le_one_iff.mpr fun i j first second => ?_
  obtain ⟨h, atFirst, hashed⟩ := (hits i b first).resolve_left real
  obtain ⟨h', atSecond, hashed'⟩ := (hits j b second).resolve_left real
  rw [hashed] at hashed'
  simp only [Option.some.injEq, Prod.mk.injEq, and_true] at hashed'
  subst hashed'
  -- One block has one hash, and one hash stands at one index.
  obtain ⟨below, eq⟩ := List.getElem?_eq_some_iff.mp atFirst
  obtain ⟨below', eq'⟩ := List.getElem?_eq_some_iff.mp atSecond
  exact (List.Nodup.getElem_inj_iff distinct).mp (eq.trans eq'.symm)

/-- Hits depend on the hashes of the blocks only. -/
theorem same {p' : BlockPool H}
    (kept : ∀ b, (p'.blocks b).blockHash = (p.blocks b).blockHash) : Hits p' hashes g hit := by
  intro i b found
  simpa only [kept] using hits i b found

end Hits

/-- The lookup results of some groups. -/
abbrev AllHits (p : BlockPool H) (hashes : List H) (groupIds : List Nat)
    (lists : List (List BlockId)) : Prop :=
  List.Forall₂ (Hits p hashes) groupIds lists

variable {groupIds : List Nat}

namespace KVCacheManager

/-- The hit lists of a lookup: one for each group, each with the hashes of some group. -/
structure Lookup (cfg : KVConfig) (p : BlockPool H) (hashes : List H)
    (lists : List (List BlockId)) : Prop where
  length : lists.length = cfg.groups.length
  hits : ∀ hit ∈ lists, ∃ g, Hits p hashes g hit

/-- Lists of hits by group are lists of hits. -/
theorem lookup_mem (all : AllHits p hashes groupIds lists)
    (member : hit ∈ lists) : ∃ g, Hits p hashes g hit := by
  induction all with
  | nil => cases member
  | cons here _ ih =>
    rcases mem_cons.mp member with rfl | later
    · exact ⟨_, here⟩
    · exact ih later

/-- Empty hit lists. -/
theorem createEmptyBlockList_lookup (shape : kv.managers.length = cfg.groups.length) :
    Lookup cfg kv.blockPool hashes kv.createEmptyBlockList := by
  refine ⟨?_, ?_⟩
  · unfold createEmptyBlockList
    rw [length_map, shape]
  · intro hit member
    obtain ⟨_, _, rfl⟩ := mem_map.mp member
    exact ⟨0, .nil⟩

end KVCacheManager

variable [DecidableEq H]

section Found

/-- The first block that the pool's table lists under a hash, for a group. -/
def BlockPool.Lists (p : BlockPool H) (g : Nat) (h : H) (b : BlockId) : Prop :=
  ∃ others, p.cachedBlockHashToBlock.get? (h, g) = some (b :: others)

/-- A lookup result of one group, from the table of the pool and not longer than a number of blocks. -/
structure Found (p : BlockPool H) (hashes : List H) (n : Nat) (g : Nat) (hit : List BlockId) : Prop where
  hits : HitsBy (p.Lists g) hashes hit
  short : hit.length ≤ n

/-- A shorter lookup result. -/
theorem Found.take (found : Found p hashes n g hit) (k : Nat) : Found p hashes n g (hit.take k) :=
  ⟨found.hits.take k, (length_take_le' k hit).trans found.short⟩

/-- Dropping the last hit for the speculative head leaves hits. -/
theorem dropLastForEagle_found (useEagle : Bool) (found : List.Forall₂ (Found p hashes n) groupIds lists) :
    List.Forall₂ (Found p hashes n) groupIds (dropLastForEagle useEagle lists) := by
  unfold dropLastForEagle
  split
  · split
    · refine forall₂_map_right_iff.mpr (found.imp fun g hit here => ?_)
      rw [dropLast_eq_take]
      exact here.take _
    · exact found
  · exact found

/-- The pool lists the cached block of each group under the hash it was looked up by. -/
theorem getCachedBlock_lists {blocks : List BlockId} (found : p.getCachedBlock h groupIds = some blocks) :
    List.Forall₂ (fun g b => p.Lists g h b) groupIds blocks := by
  induction groupIds generalizing blocks with
  | nil =>
    cases found
    exact .nil
  | cons g rest ih =>
    unfold BlockPool.getCachedBlock at found
    split at found
    · rename_i first others entry
      obtain ⟨tail, later, eq⟩ := Option.map_eq_some_iff.mp found
      subst eq
      exact .cons ⟨others, entry⟩ (ih later)
    · cases found

/-- A list of hits that has run to some length. -/
structure RunTo (p : BlockPool H) (hashes : List H) (i : Nat) (g : Nat) (hit : List BlockId) : Prop where
  hits : HitsBy (p.Lists g) hashes hit
  length : hit.length = i

/-- One more hit for each group. -/
theorem RunTo.appendHit {blocks : List BlockId} (before : List.Forall₂ (RunTo p hashes i) groupIds lists)
    (here : hashes[i]? = some h) (found : p.getCachedBlock h groupIds = some blocks) :
    List.Forall₂ (RunTo p hashes (i + 1)) groupIds (appendHit lists blocks) := by
  refine forall₂_zipWith (fun g hit b run carries => ?_) before (getCachedBlock_lists found)
  exact ⟨run.hits.append (by rw [run.length]; exact here) carries, by simp [run.length]⟩

/-- A list that has run to some length is not longer than a bound above it. -/
theorem RunTo.found (run : RunTo p hashes i g hit) (le : i ≤ n) : Found p hashes n g hit :=
  ⟨run.hits, run.length ▸ le⟩

/-- The leading run of hits, from an index on. -/
theorem leadingHits_found {rest : List H} (suffix : hashes.drop i = rest)
    (before : List.Forall₂ (RunTo p hashes i) groupIds lists) :
    List.Forall₂ (Found p hashes (i + rest.length)) groupIds (leadingHits p groupIds rest lists) := by
  -- The lists have run to the index of the hash that is looked up next.
  induction rest generalizing i lists with
  | nil => exact before.imp fun _ _ run => run.found (Nat.le_add_right ..)
  | cons h rest ih =>
    unfold leadingHits
    split
    · rename_i b bs found
      have here : hashes[i]? = some h := by
        have head := congrArg List.head? suffix
        rwa [head?_drop] at head
      have next : hashes.drop (i + 1) = rest := by
        have tail := congrArg List.tail suffix
        rwa [tail_drop] at tail
      have all := ih next (RunTo.appendHit before here found)
      rwa [Nat.add_assoc, Nat.add_comm 1] at all
    · exact before.imp fun _ _ run => run.found (Nat.le_add_right ..)

/-- Sliding window: a run of hits behind placeholders, in lists of a fixed length that are trimmed. -/
theorem slidingWindowScan_found (before : List.Forall₂ (Found p hashes n) groupIds lists)
    (done : slidingWindowScan p groupIds hashes needed i contiguous lists = .ok result) :
    List.Forall₂ (Found p hashes n) groupIds result := by
  induction i generalizing contiguous lists with
  | zero =>
    cases done
    exact forall₂_map_right_iff.mpr (before.imp fun _ _ here => here.take _)
  | succ i ih =>
    obtain ⟨h, here, tail⟩ := bind_eq_ok.mp done
    rw [orRaise_eq_ok] at here
    split at tail
    · rename_i b bs found
      have after : List.Forall₂ (Found p hashes n) groupIds
          (List.zipWith (fun list hit => list.set i hit) lists (b :: bs)) :=
        forall₂_zipWith (fun _ _ _ old carries => ⟨old.hits.set here carries, by simpa using old.short⟩)
          before (getCachedBlock_lists found)
      dsimp only at tail
      split at tail
      · cases tail
        exact forall₂_map_right_iff.mpr (after.imp fun _ _ here => here.take _)
      · exact ih after tail
    · exact ih before tail

/-- Chunked local attention: placeholders before the chunk, then a run of hits. -/
theorem chunkedLocalScan_found (before : List.Forall₂ (RunTo p hashes i) groupIds lists)
    (done : chunkedLocalScan p groupIds hashes count i lists = .ok result) :
    List.Forall₂ (Found p hashes (i + count)) groupIds result := by
  induction count generalizing i lists with
  | zero =>
    cases done
    exact before.imp fun _ _ run => run.found (Nat.le_add_right ..)
  | succ count ih =>
    obtain ⟨h, here, tail⟩ := bind_eq_ok.mp done
    rw [orRaise_eq_ok] at here
    split at tail
    · rename_i b bs found
      have all := ih (RunTo.appendHit before here found) tail
      rwa [Nat.add_assoc, Nat.add_comm 1] at all
    · cases tail
      exact before.imp fun _ _ run => run.found (Nat.le_add_right ..)

/-- The start of the current chunk lies before the end of the lookup. -/
theorem chunkStart_le (maxLength : Int) (chunkSize blockSize : Nat) :
    ((if maxLength > 0 then maxLength.fdiv chunkSize * chunkSize else 0 : Int).fdiv blockSize).toNat ≤
      (maxLength.fdiv blockSize).toNat := by
  split
  · have below : maxLength.fdiv chunkSize * chunkSize ≤ maxLength := by
      rw [Int.fdiv_eq_ediv_of_nonneg _ (by omega)]
      rcases Nat.eq_zero_or_pos chunkSize with zero | positive
      · subst zero; simp; omega
      · exact Int.ediv_mul_le _ (by omega)
    have divided : ∀ {a b : Int}, a ≤ b → a.fdiv blockSize ≤ b.fdiv blockSize := by
      intro a b le
      rw [Int.fdiv_eq_ediv_of_nonneg a (by omega), Int.fdiv_eq_ediv_of_nonneg b (by omega)]
      rcases Nat.eq_zero_or_pos blockSize with zero | positive
      · subst zero; simp
      · exact Int.ediv_le_ediv (by omega) le
    have := divided below
    omega
  · simp

/-- The size of the blocks a lookup counts in. -/
def lookupBlockSize (spec : KVCacheSpec) (dcpWorldSize : Nat) : Nat :=
  if dcpWorldSize > 1 then spec.blockSize * dcpWorldSize else spec.blockSize

/-- Whatever the attention type, a lookup returns listed blocks and stays within the length it is given. -/
theorem findLongestCacheHit_found
    (done : findLongestCacheHit p spec dcpWorldSize groupIds useEagle hashes maxLength = .ok lists) :
    List.Forall₂ (Found p hashes (maxLength.fdiv (lookupBlockSize spec dcpWorldSize)).toNat) groupIds lists := by
  unfold findLongestCacheHit at done
  split at done
  · cases done
    refine dropLastForEagle_found _ ?_
    refine (leadingHits_found (i := 0) drop_zero (forall₂_map_right_iff.mpr (forall₂_same.mpr fun _ _ =>
      ⟨.nil, rfl⟩))).imp fun _ _ found => ⟨found.hits.of_take, found.short.trans ?_⟩
    rw [length_take, lookupBlockSize]
    omega
  · obtain ⟨_, single, tail⟩ := bind_eq_ok.mp done
    obtain ⟨scanned, scan, built⟩ := bind_eq_ok.mp tail
    cases built
    rw [require_eq_ok] at single
    rw [lookupBlockSize, if_neg (by omega)]
    refine dropLastForEagle_found _ (slidingWindowScan_found ?_ scan)
    exact forall₂_map_right_iff.mpr (forall₂_same.mpr fun _ _ => ⟨.replicate _, by simp⟩)
  · rename_i chunkSize _
    obtain ⟨_, _, tail⟩ := bind_eq_ok.mp done
    obtain ⟨_, single, scan⟩ := bind_eq_ok.mp tail
    rw [require_eq_ok] at single
    rw [lookupBlockSize, if_neg (by omega)]
    -- The blocks before the chunk and those of the chunk together.
    have all := chunkedLocalScan_found
      (forall₂_map_right_iff.mpr (forall₂_same.mpr fun _ _ => ⟨.replicate _, length_replicate⟩)) scan
    have start := chunkStart_le maxLength chunkSize spec.blockSize
    exact all.imp fun _ _ found => ⟨found.hits, found.short.trans (by omega)⟩
  · obtain ⟨_, _, built⟩ := bind_eq_ok.mp done
    cases built
    exact forall₂_map_right_iff.mpr (forall₂_same.mpr fun _ _ => ⟨.nil, Nat.zero_le _⟩)
  · cases done

/-- The length of the first list is bounded, also when there is none. -/
theorem headD_length_le (found : List.Forall₂ (Found p hashes n) groupIds lists) :
    (lists.headD []).length ≤ n := by
  cases found with
  | nil => exact Nat.zero_le n
  | cons here => exact here.short

end Found

/-- A lookup returns blocks that carry the hashes of their indices. -/
theorem findLongestCacheHit_spec (table : TableInv p)
    (done : findLongestCacheHit p spec dcpWorldSize groupIds useEagle hashes maxLength = .ok lists) :
    AllHits p hashes groupIds lists := by
  refine (findLongestCacheHit_found done).imp fun g hit found i b entry => ?_
  refine (found.hits i b entry).imp_right fun ⟨h, atIndex, others, listed⟩ => ⟨h, atIndex, ?_⟩
  exact table.listed _ _ listed b mem_cons_self

namespace KVCacheManager

/-- The groups with and without a property make up all groups. -/
theorem groupIdsWhere_perm (cfg : KVConfig) (test : SpecKind → Bool) :
    (groupIdsWhere cfg test ++ groupIdsWhere cfg fun kind => !test kind).Perm
      (List.range cfg.groups.length) := by
  have whole : (groupIdsWhere cfg test ++ _).Perm (List.range cfg.groups.length) :=
    filter_append_perm _ _
  refine (List.Perm.append_left _ (List.Perm.of_eq ?_)).trans whole
  refine filter_congr fun i below => ?_
  rw [getElem?_eq_getElem (mem_range.mp below)]

/-- Each group either has a property or does not have it. -/
theorem length_groupIdsWhere (cfg : KVConfig) (test : SpecKind → Bool) :
    (groupIdsWhere cfg test).length + (groupIdsWhere cfg fun kind => !test kind).length =
      cfg.groups.length := by
  have whole := (groupIdsWhere_perm cfg test).length_eq
  rwa [length_append, length_range] at whole

/-- The hit lists for two types of groups: those of both types, in the order of the groups. -/
theorem hybridHit_spec {full other : KVCacheSpec} (table : TableInv p)
    (done : hybridHit cfg p full other hashes maxLength = .ok (lists, numTokens)) :
    ∃ hitFull hitOther, AllHits p hashes (groupIdsWhere cfg isFull) hitFull ∧
      AllHits p hashes (groupIdsWhere cfg fun kind => !isFull kind) hitOther ∧
      lists = if (decide ((groupIdsWhere cfg isFull).getLast?.getD 0 <
          (groupIdsWhere cfg fun kind => !isFull kind).headD 0)) = true then hitFull ++ hitOther
        else hitOther ++ hitFull := by
  obtain ⟨hitFull, foundFull, tail⟩ := bind_eq_ok.mp done
  obtain ⟨hitOther, foundOther, tail⟩ := bind_eq_ok.mp tail
  obtain ⟨_, _, built⟩ := bind_eq_ok.mp tail
  cases built
  exact ⟨_, hitOther, forall₂_map_right_iff.mpr ((findLongestCacheHit_spec table foundFull).imp fun _ _ here => here.take _),
    findLongestCacheHit_spec table foundOther, rfl⟩

/-- A lookup of the coordinator returns hit lists. -/
theorem findLongestHit_lookup (table : TableInv kv.blockPool)
    (shape : kv.managers.length = cfg.groups.length)
    (done : findLongestHit cfg kv hashes maxLength = .ok (lists, numTokens)) :
    Lookup cfg kv.blockPool hashes lists := by
  unfold findLongestHit at done
  split at done
  · split at done
    · rename_i spec single
      obtain ⟨hit, found, built⟩ := bind_eq_ok.mp done
      cases built
      have all := findLongestCacheHit_spec table found
      refine ⟨?_, fun hit member => lookup_mem all member⟩
      rw [← all.length_eq, single]
      rfl
    · split at done
      · obtain ⟨hitFull, hitOther, allFull, allOther, rfl⟩ := hybridHit_spec table done
        have count := length_groupIdsWhere cfg isFull
        have lengths := allFull.length_eq
        have lengths' := allOther.length_eq
        constructor
        · split <;> (rw [length_append]; omega)
        · intro hit member
          split at member
          · rcases mem_append.mp member with first | second
            · exact lookup_mem allFull first
            · exact lookup_mem allOther second
          · rcases mem_append.mp member with first | second
            · exact lookup_mem allOther first
            · exact lookup_mem allFull second
      · cases done
  · cases done
    exact createEmptyBlockList_lookup shape

/-- Where a lookup succeeds with prefix caching on, no group has cross-attention. -/
theorem findLongestHit_kind {found : List (List BlockId) × Int} (verified : Verified cfg)
    (caching : cfg.enableCaching = true)
    (done : findLongestHit cfg kv hashes maxLength = .ok found)
    (member : spec ∈ cfg.groups) : spec.kind ≠ .crossAttention := by
  -- A lookup for cross-attention raises.
  have raises : ∀ {spec : KVCacheSpec} {dcpWorldSize : Nat} {groupIds : List Nat} {useEagle : Bool}
      {maxLength : Int} {lists : List (List BlockId)},
      findLongestCacheHit kv.blockPool spec dcpWorldSize groupIds useEagle hashes maxLength =
        .ok lists → spec.kind ≠ .crossAttention := by
    intro spec dcpWorldSize groupIds useEagle maxLength lists looked cross
    unfold findLongestCacheHit at looked
    rw [cross] at looked
    cases looked
  unfold findLongestHit at done
  rw [if_pos caching] at done
  split at done
  · rename_i only single
    obtain ⟨hit, looked, _⟩ := bind_eq_ok.mp done
    rw [single] at member
    rw [mem_singleton.mp member]
    exact raises looked
  · split at done
    · rename_i full other _ isOther
      obtain ⟨_, _, tail⟩ := bind_eq_ok.mp done
      obtain ⟨_, looked, _⟩ := bind_eq_ok.mp tail
      intro cross
      -- All groups without full attention are like the one that was looked up.
      have same : spec = other := by
        refine verified caching spec member other (mem_of_find?_eq_some isOther) ?_
        have notFull := find?_some isOther
        have notFull' : isFull spec.kind = false := by rw [cross]; rfl
        rw [notFull']
        simpa using notFull
      exact raises looked (same ▸ cross)
    · cases done

end KVCacheManager

namespace KVCacheManager

variable {r : Request H}

/-- Whole blocks within a length are not longer than it. -/
theorem fdiv_mul_le {blockSize : Nat} (within : count ≤ (maxLength.fdiv blockSize).toNat) :
    (count : Int) * blockSize ≤ max maxLength 0 := by
  rw [Int.fdiv_eq_ediv_of_nonneg _ (by omega)] at within
  rcases Nat.eq_zero_or_pos blockSize with zero | positive
  · subst zero; simp
  · rcases Nat.eq_zero_or_pos count with none | some'
    · subst none; simp
    · have whole : (count : Int) ≤ maxLength / blockSize := by omega
      have scaled := (Int.le_ediv_iff_mul_le (by omega : (0 : Int) < blockSize)).mp whole
      omega

/-- A lookup of the coordinator stays within the length it is given. -/
theorem findLongestHit_le (done : findLongestHit cfg kv hashes maxLength = .ok (lists, numTokens)) :
    numTokens ≤ max maxLength 0 := by
  unfold findLongestHit at done
  split at done
  · split at done
    · obtain ⟨hit, found, built⟩ := bind_eq_ok.mp done
      cases built
      exact fdiv_mul_le (headD_length_le (findLongestCacheHit_found found))
    · split at done
      · rename_i full other _ _
        obtain ⟨hitFull, foundFull, tail⟩ := bind_eq_ok.mp done
        obtain ⟨hitOther, foundOther, tail⟩ := bind_eq_ok.mp tail
        obtain ⟨_, _, built⟩ := bind_eq_ok.mp tail
        cases built
        -- The other groups search within what the full-attention groups found.
        have outer : ((hitFull.headD []).length : Int) * full.blockSize ≤ max maxLength 0 :=
          fdiv_mul_le (headD_length_le (findLongestCacheHit_found foundFull))
        have inner := fdiv_mul_le (headD_length_le (findLongestCacheHit_found foundOther))
        have size : lookupBlockSize other 1 = other.blockSize := by simp [lookupBlockSize]
        rw [size] at inner
        push_cast
        omega
      · cases done
  · cases done
    exact le_max_right ..

/-- `get_computed_blocks` leaves the last token of a request to compute. -/
theorem getComputedBlocks_lt (some' : 0 < r.numTokens)
    (done : kv.getComputedBlocks cfg r = .ok (lists, numTokens)) : numTokens < r.numTokens := by
  unfold getComputedBlocks at done
  split at done
  · cases done
    omega
  · have bound := findLongestHit_le done
    omega

/-- `get_computed_blocks` returns hit lists for the request's hashes. -/
theorem getComputedBlocks_lookup (table : TableInv kv.blockPool)
    (shape : kv.managers.length = cfg.groups.length)
    (done : kv.getComputedBlocks cfg r = .ok (lists, numTokens)) :
    Lookup cfg kv.blockPool r.blockHashes lists := by
  unfold getComputedBlocks at done
  split at done
  · cases done
    exact createEmptyBlockList_lookup shape
  · exact findLongestHit_lookup table shape done

end KVCacheManager

end Mimir
