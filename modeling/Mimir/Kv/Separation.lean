import Mimir.Kv.Slots

/-! Blocks and groups: in the lists of one group a block never occurs that another group has. -/

namespace Mimir

open Python List

variable {H : Type} {p : BlockPool H} {ms : List Manager} {id : RequestId} {m m' : Manager}
  {hashes : List H} {numTokens : Int} {hits : List (List BlockId)} {event : Option Bool}

section Assignment

variable {p' : BlockPool H} {ms' : List Manager} {owner : BlockId → Nat}

/-- Every listed block belongs to the group that lists it, and so does its hash. -/
def Assigned (owner : BlockId → Nat) (p : BlockPool H) (ms : List Manager) : Prop :=
  ∀ m ∈ ms, ∀ id, ∀ b ∈ m.blocksOf id, b ≠ nullBlock →
    owner b = m.kvCacheGroupId ∧
      ∀ key, (p.blocks b).blockHash = some key → key.2 = m.kvCacheGroupId

/-- Lists that only lost blocks, over hashes that are no newer. -/
theorem Assigned.shrink (assigned : Assigned owner p ms)
    (related : List.Forall₂ (fun m m' : Manager => m'.kvCacheGroupId = m.kvCacheGroupId ∧
      ∀ id, ∀ b ∈ m'.blocksOf id, b ≠ nullBlock → b ∈ m.blocksOf id) ms ms')
    (hash : ∀ b key, (p'.blocks b).blockHash = some key → (p.blocks b).blockHash = some key) :
    Assigned owner p' ms' := by
  intro m' member id b listed real
  obtain ⟨m, earlier, group, kept⟩ := exists_of_forall₂ related member
  obtain ⟨mine, hashes⟩ := assigned m earlier id b (kept id b listed real) real
  rw [group]
  exact ⟨mine, fun key hashed => hashes key (hash b key hashed)⟩

variable {rest : BlockId → Nat}

/-- A manager that differs for one request, whose new list is part of the old one. -/
theorem Manager.Sole.shrinks (sole : Manager.Sole id m m')
    (kept : ∀ b ∈ m'.blocksOf id, b ≠ nullBlock → b ∈ m.blocksOf id) :
    m'.kvCacheGroupId = m.kvCacheGroupId ∧
      ∀ id, ∀ b ∈ m'.blocksOf id, b ≠ nullBlock → b ∈ m.blocksOf id := by
  refine ⟨sole.group, fun other b listed real => ?_⟩
  by_cases mine : other = id
  · subst mine
    exact kept b listed real
  · rwa [sole.blocks other mine] at listed

/-- Saving hits adds nothing but hits. -/
theorem Manager.saveNewComputedBlocks_blocks {hits : List BlockId}
    (done : m.saveNewComputedBlocks id hits = .ok m') :
    m'.kvCacheGroupId = m.kvCacheGroupId ∧
      ∀ other, ∀ b ∈ m'.blocksOf other, b ∈ m.blocksOf other ∨ b ∈ hits := by
  rcases Manager.saveNewComputedBlocks_cases done with ⟨_, rfl, _⟩ | ⟨_, _, _, rfl⟩
  · exact ⟨rfl, fun _ _ listed => .inl listed⟩
  · refine ⟨rfl, fun other b listed => ?_⟩
    change b ∈ (m.withBlocks id hits).blocksOf other at listed
    rw [Manager.blocksOf_withBlocks] at listed
    split at listed
    · exact .inr listed
    · exact .inl listed

/-- Saving the hits of each group gives blocks to the group of their hash. -/
theorem Assigned.saveNewComputedBlocks (assigned : Assigned owner p ms)
    (each : List.Forall₂ (fun m hit => Hits p hashes m.kvCacheGroupId hit) ms hits)
    (done : KVCacheManager.saveNewComputedBlocks id ms hits = .ok ms') :
    Assigned (fun b => ((p.blocks b).blockHash.map Prod.snd).getD (owner b)) p ms' := by
  have origin : ∀ m' ∈ ms', ∃ m ∈ ms, m'.kvCacheGroupId = m.kvCacheGroupId ∧ ∀ other,
      ∀ b ∈ m'.blocksOf other, b ≠ nullBlock → b ∈ m.blocksOf other ∨
        ∃ h, (p.blocks b).blockHash = some (h, m.kvCacheGroupId) := by
    clear assigned
    induction each generalizing ms' with
    | nil =>
      cases done
      simp
    | @cons m hit ms hits here later ih =>
      obtain ⟨m₁, first, tail⟩ := bind_eq_ok.mp done
      obtain ⟨ms₁, last, built⟩ := bind_eq_ok.mp tail
      cases built
      intro m' member
      rcases mem_cons.mp member with rfl | behind
      · obtain ⟨group, lists⟩ := Manager.saveNewComputedBlocks_blocks first
        refine ⟨m, mem_cons_self, group, fun other b listed real => ?_⟩
        rcases lists other b listed with old | new
        · exact .inl old
        · obtain ⟨i, found⟩ := getElem?_of_mem new
          obtain ⟨h, -, hashed⟩ := (here i b found).resolve_left real
          exact .inr ⟨h, hashed⟩
      · obtain ⟨m, known, rest⟩ := ih last m' behind
        exact ⟨m, mem_cons_of_mem _ known, rest⟩
  intro m' member other b listed real
  obtain ⟨m, known, group, from_⟩ := origin m' member
  rw [group]
  rcases from_ other b listed real with old | ⟨h, hashed⟩
  · obtain ⟨mine, hashes⟩ := assigned m known other b old real
    refine ⟨?_, hashes⟩
    cases hash : (p.blocks b).blockHash with
    | none => simpa [hash] using mine
    | some key => simpa [hash] using hashes key hash
  · refine ⟨by simp [hashed], fun key found => ?_⟩
    rw [hashed] at found
    cases found
    rfl

variable [DecidableEq H]

/-- New blocks were in no list, so they can go to any group. -/
theorem Assigned.allocateNewBlocks {numEncoderTokens : Int} {news : List (List BlockId)}
    (ledger : Ledger p ms rest) (assigned : Assigned owner p ms)
    (done : KVCacheManager.allocateNewBlocks id numTokens numEncoderTokens ms p =
      .ok (news, ms', p')) :
    ∃ owner', Assigned owner' p' ms' ∧ ∀ b, b ≠ nullBlock → 0 < occurrences ms b + rest b →
      owner' b = owner b ∧ (p'.blocks b).blockHash = (p.blocks b).blockHash := by
  -- What the managers before hold is held outside of the managers that follow.
  induction ms generalizing p rest ms' news owner with
  | nil =>
    cases done
    exact ⟨owner, assigned, fun _ _ _ => ⟨rfl, rfl⟩⟩
  | cons m ms ih =>
    obtain ⟨⟨new, m₁, p₁⟩, first, tail⟩ := bind_eq_ok.mp done
    obtain ⟨⟨news₁, ms₁, p₂⟩, last, built⟩ := bind_eq_ok.mp tail
    cases built
    obtain ⟨books, what, sole, -, blocks, -, moved⟩ := ledger.head.allocateNewBlocks first
    have fresh : ∀ b, 0 < occurrences (m :: ms) b + rest b → b ∉ new := by
      intro b held member
      have unused := what.unused b member
      rw [occurrences_cons] at held
      omega
    have others : Assigned (fun b => if b ∈ new then m.kvCacheGroupId else owner b) p₁ ms := by
      intro m' member other b listed real
      have held := occurrences_pos (mem_cons_of_mem m member) listed
      have old := fresh b (by omega)
      obtain ⟨mine, hashes⟩ := assigned m' (mem_cons_of_mem m member) other b listed real
      simp only [if_neg old, what.hash b old]
      exact ⟨mine, hashes⟩
    obtain ⟨owner', later, kept⟩ := ih (Ledger.later books ledger.others) others last
    refine ⟨owner', fun m' member => ?_, fun b real held => ?_⟩
    · rcases mem_cons.mp member with rfl | behind
      · intro other b listed real
        -- The blocks of this manager stay as they are for the managers that follow.
        have held := m'.count_le_occurrences other b
        have counted := count_pos_iff.mpr listed
        obtain ⟨mine, hash⟩ := kept b real (by omega)
        rw [mine, hash, sole.group]
        by_cases taken : b ∈ new
        · rw [if_pos taken, what.gone b taken]
          exact ⟨rfl, by simp⟩
        · rw [if_neg taken, what.hash b taken]
          refine assigned m mem_cons_self other b ?_ real
          by_cases here : other = id
          · subst here
            rw [blocks] at listed
            exact (mem_append.mp listed).resolve_right taken
          · rwa [sole.blocks other here] at listed
      · exact later m' behind
    · have old := fresh b held
      rw [occurrences_cons] at held
      obtain ⟨mine, hash⟩ := kept b real (by rw [moved b]; omega)
      rw [mine, hash, if_neg old, what.hash b old]
      exact ⟨rfl, rfl⟩

/-- Caching gives a block a hash of the group that lists it. -/
theorem Assigned.cacheAll {all : List Manager} (ledger : Ledger p ms rest)
    (enabled : p.enableCaching = true)
    (part : ∀ m ∈ ms, m ∈ all) (assigned : Assigned owner p all)
    (done : KVCacheManager.cacheAll event id hashes numTokens ms p = .ok (ms', p')) :
    Assigned owner p' all := by
  have sweep := KVCacheManager.cacheAll_sweep done
  clear done
  induction sweep generalizing rest with
  | nil => exact assigned
  | @cons m _ _ _ _ _ _ first _ ih =>
    obtain ⟨books, stay, -, numCached, -, what⟩ := ledger.head.cacheBlocks enabled first
    refine ih (Ledger.later books ledger.others) (by rw [stay.caching]; exact enabled)
      (fun m' member => part m' (mem_cons_of_mem _ member)) ?_
    rcases what with ⟨rfl, -⟩ | ⟨-, hashed⟩
    · exact assigned
    · intro m' member other b listed real
      obtain ⟨mine, before⟩ := assigned m' member other b listed real
      refine ⟨mine, fun key found => ?_⟩
      by_cases now : b ∈ pySlice (m.blocksOf id) numCached (numTokens.fdiv m.blockSize)
      · -- The block is listed by both managers, so they are for one group.
        obtain ⟨i, here⟩ := getElem?_of_mem now
        obtain ⟨h, -, after⟩ := hashed.after i b here
        rw [after] at found
        cases found
        have same := (assigned m (part m mem_cons_self) id b (mem_of_mem_pySlice now) real).1
        exact same.symm.trans mine
      · rw [hashed.hash b now] at found
        exact before key found

/-- Caching the full blocks of a request, whose lists stay. -/
theorem Assigned.cached
    (ledger : Ledger p ms rest) (enabled : p.enableCaching = true) (assigned : Assigned owner p ms)
    (done : KVCacheManager.cacheAll event id hashes numTokens ms p = .ok (ms', p')) :
    Assigned owner p' ms' := by
  obtain ⟨-, -, recached⟩ := ledger.cacheAll enabled done
  have hashed := assigned.cacheAll ledger enabled (fun _ member => member) done
  refine hashed.shrink (recached.imp fun m m' here => ⟨here.group, ?_⟩) fun _ _ found => found
  intro other b listed _
  unfold Manager.blocksOf at listed ⊢
  rwa [here.lists] at listed

end Assignment

namespace KVCacheManager

variable {cfg : KVConfig} {kv kv' : KVCacheManager H}

/-- Each real block of the lists can be given a group that alone lists it. -/
def Separate (kv : KVCacheManager H) : Prop :=
  ∃ owner : BlockId → Nat, Assigned owner kv.blockPool kv.managers

/-- Blocks that two groups list are the placeholder. -/
theorem Separate.disjoint (separate : kv.Separate) (known : m ∈ kv.managers)
    (known' : m' ∈ kv.managers) (apart : m.kvCacheGroupId ≠ m'.kvCacheGroupId)
    {id' : RequestId} {b : BlockId} (listed : b ∈ m.blocksOf id) (listed' : b ∈ m'.blocksOf id') :
    b = nullBlock := by
  by_contra real
  obtain ⟨owner, assigned⟩ := separate
  have first := (assigned m known id b listed real).1
  have second := (assigned m' known' id' b listed' real).1
  exact apart (first.symm.trans second)

/-- A lookup with the hits of each group at the place of the group. -/
def GroupHits (cfg : KVConfig) (p : BlockPool H) (hashes : List H) (hits : List (List BlockId)) : Prop :=
  AllHits p hashes (List.range cfg.groups.length) hits

variable {new lists : List (List BlockId)} {r : Request H}
  {args : AllocArgs}

/-- Empty hit lists are hits of every group. -/
theorem createEmptyBlockList_groupHits (shape : kv.managers.length = cfg.groups.length) :
    GroupHits cfg kv.blockPool hashes kv.createEmptyBlockList := by
  unfold GroupHits createEmptyBlockList
  rw [map_const', shape]
  exact forall₂_iff_get.mpr ⟨by simp, fun i _ _ => by simpa using HitsBy.nil⟩

/-- Hits at their groups' places are hits. -/
theorem GroupHits.lookup (groupHits : GroupHits cfg p hashes hits) : Lookup cfg p hashes hits where
  length := by
    rw [← List.Forall₂.length_eq groupHits, length_range]
  hits _ member := lookup_mem groupHits member

/-- Before any request no block is listed. -/
theorem Separate.init (cfg : KVConfig) : (KVCacheManager.init cfg : KVCacheManager H).Separate := by
  refine ⟨fun _ => 0, fun m member id b listed => ?_⟩
  obtain ⟨i, _, rfl⟩ := mem_mapIdx.mp member
  cases listed

variable [DecidableEq H]

/-- The managers are for the groups in their order. -/
theorem Balanced.groupIds (balanced : Balanced cfg kv) :
    kv.managers.map Manager.kvCacheGroupId = List.range cfg.groups.length := by
  have ids := congrArg (List.map fun layout : KVCacheSpec × Nat × Nat => layout.2.2) balanced.layout
  rw [map_map, map_map] at ids
  refine ids.trans (ext_getElem ?_ fun i _ _ => ?_)
  · simp [KVCacheManager.init]
  · simp [KVCacheManager.init, Manager.layout, Manager.init]

/-- The hits of a lookup, manager by manager. -/
theorem GroupHits.managers (groupHits : GroupHits cfg kv.blockPool hashes hits) (balanced : Balanced cfg kv) :
    List.Forall₂ (fun m hit => Hits kv.blockPool hashes m.kvCacheGroupId hit) kv.managers hits := by
  unfold GroupHits AllHits at groupHits
  rw [← balanced.groupIds] at groupHits
  exact forall₂_map_left_iff.mp groupHits

/-- Freeing a request keeps the groups apart. -/
theorem Separate.free (separate : kv.Separate) (balanced : Balanced cfg kv) (id : RequestId) :
    (kv.free id).Separate := by
  obtain ⟨owner, assigned⟩ := separate
  obtain ⟨-, same, freed⟩ := balanced.ledger.freeAll id
  have fewer := freed.imp fun m m' here => here.toSole.shrinks fun b listed _ => by
    rw [here.noBlocks] at listed
    cases listed
  refine ⟨owner, assigned.shrink fewer fun b key hashed => ?_⟩
  rwa [← same.hash b]

/-- Removing skipped blocks keeps the groups apart. -/
theorem Separate.removeSkippedBlocks {numComputedTokens : Int}
    (separate : kv.Separate) (balanced : Balanced cfg kv)
    (done : KVCacheManager.removeSkippedBlocks id numComputedTokens kv.managers kv.blockPool =
      .ok (ms, p)) : (⟨p, ms⟩ : KVCacheManager H).Separate := by
  obtain ⟨owner, assigned⟩ := separate
  obtain ⟨-, same, skipped⟩ := balanced.ledger.removeSkippedBlocks done
  refine ⟨owner, assigned.shrink (skipped.imp fun m m' here => here.toSole.shrinks fun _ => here.kept) ?_⟩
  intro b key hashed
  rwa [← same.hash b]

/-- Caching full blocks keeps the groups apart. -/
theorem Separate.cacheBlocks (separate : kv.Separate)
    (balanced : Balanced cfg kv) (done : kv.cacheBlocks cfg r numTokens = .ok kv') : kv'.Separate := by
  rcases cacheBlocks_cases done with ⟨_, rfl⟩ | ⟨enabled, cached⟩
  · exact separate
  · obtain ⟨owner, assigned⟩ := separate
    exact ⟨owner, assigned.cached balanced.ledger (by rw [balanced.caching, enabled]) cached⟩

/-- Forgetting hashes keeps the groups apart. -/
theorem Separate.resetPrefixCache (separate : kv.Separate) (balanced : Balanced cfg kv) :
    kv.resetPrefixCache.2.Separate := by
  obtain ⟨-, unchanged | unheld⟩ := balanced.resetPrefixCache
  · rw [unchanged]
    exact separate
  · -- Hashes are forgotten only when no real block is listed.
    refine ⟨fun _ => 0, fun m member id b listed real => ?_⟩
    have held : 0 < occurrences kv.managers b := occurrences_pos member listed
    rw [unheld b real] at held
    cases held

/-- The part of `allocate_slots` behind the check of the free blocks keeps the groups apart. -/
theorem Separate.commitSlots
    (separate : kv.Separate) (balanced : Balanced cfg kv) (nodup : r.blockHashes.Nodup)
    (groupHits : GroupHits cfg kv.blockPool r.blockHashes hits)
    (done : KVCacheManager.commitSlots cfg kv r args hits = .ok (new, kv')) : kv'.Separate := by
  obtain ⟨p₁, ms₂, ms₃, p₃, touched, save, allocate, cache⟩ := commitSlots_cases done
  obtain ⟨owner, assigned⟩ := separate
  have lookup := groupHits.lookup
  obtain ⟨ledger₁, same₁⟩ := touchComputed_spec balanced.ledger lookup touched
  have assigned₁ : Assigned owner p₁ kv.managers :=
    assigned.shrink (forall₂_same.mpr fun m _ => ⟨rfl, fun _ _ listed _ => listed⟩)
      fun b key hashed => by rwa [← same₁.hash b]
  have each := (groupHits.managers balanced).imp fun m hit here => here.same same₁.hash
  have assigned₂ := assigned₁.saveNewComputedBlocks each save
  obtain ⟨ledger₂, saved, -⟩ := ledger₁.saveNewComputedBlocks
    (by rw [balanced.groups]; exact lookup.length.le)
    (fun hit member b real => by
      obtain ⟨g, hits⟩ := lookup.hits hit member
      exact hits.count_le_one nodup real) save
  obtain ⟨owner₃, assigned₃, -⟩ := assigned₂.allocateNewBlocks ledger₂ allocate
  obtain ⟨ledger₃, kept₃, -⟩ := ledger₂.allocateNewBlocks allocate
  rcases kv' with ⟨p₄, ms₄⟩
  rcases cacheCommitted_cases cache with ⟨_, rfl, rfl⟩ | ⟨enabled, _, cached⟩
  · exact ⟨owner₃, assigned₃⟩
  · have caching : p₃.enableCaching = true := by
      rw [kept₃.caching, same₁.caching, balanced.caching, enabled]
    exact ⟨owner₃, assigned₃.cached ledger₃ caching cached⟩

/-- A refused call of `allocate_slots` keeps the groups apart. -/
theorem Separate.allocateSlots_refused (separate : kv.Separate)
    (balanced : Balanced cfg kv) (done : kv.allocateSlots cfg r args = .ok (none, kv')) :
    kv'.Separate := by
  obtain ⟨ms, p, skip, ⟨_, rfl⟩ | ⟨_, some, _⟩⟩ := allocateSlots_cases done
  · exact separate.removeSkippedBlocks balanced skip
  · cases some

/-- A successful call of `allocate_slots` with hits at their groups' places keeps the groups apart. -/
theorem Separate.allocateSlots_granted
    (separate : kv.Separate) (balanced : Balanced cfg kv) (nodup : r.blockHashes.Nodup)
    (groupHits : ∀ hits, args.newComputedBlocks = some hits →
      GroupHits cfg kv.blockPool r.blockHashes hits)
    (done : kv.allocateSlots cfg r args = .ok (some new, kv')) : kv'.Separate := by
  obtain ⟨ms₁, p₁, skip, ⟨none, _⟩ | ⟨_, some, commit⟩⟩ := allocateSlots_cases done
  · cases none
  · obtain ⟨balanced₁, -, same₁, -⟩ := balanced.removeSkippedBlocks skip
    have separate₁ := separate.removeSkippedBlocks balanced skip
    have before : GroupHits cfg kv.blockPool r.blockHashes (kv.givenHits args) := by
      unfold givenHits
      cases given : args.newComputedBlocks with
      | none => exact createEmptyBlockList_groupHits balanced.groups
      | some hits => exact groupHits hits given
    have after : GroupHits cfg p₁ r.blockHashes (kv.givenHits args) :=
      List.Forall₂.imp (fun _ _ here => here.same same₁.hash) before
    exact separate₁.commitSlots balanced₁ nodup after commit

/-- The groups with full attention do not interleave with the others, as the coordinator checks. -/
def Contiguous (cfg : KVConfig) : Prop :=
  (∀ i ∈ groupIdsWhere cfg isFull, ∀ j ∈ groupIdsWhere cfg fun kind => !isFull kind, i < j) ∨
    ∀ i ∈ groupIdsWhere cfg isFull, ∀ j ∈ groupIdsWhere cfg fun kind => !isFull kind, j < i

omit [DecidableEq H] in
/-- Two parts of the groups, one before the other, are all groups in their order. -/
theorem groupIds_append {ids ids' : List Nat} (perm : (ids ++ ids').Perm (List.range cfg.groups.length))
    (sorted : ids.Pairwise (· < ·)) (sorted' : ids'.Pairwise (· < ·))
    (before : ∀ i ∈ ids, ∀ j ∈ ids', i < j) : ids ++ ids' = List.range cfg.groups.length := by
  have whole : (ids ++ ids').Pairwise (· < ·) := pairwise_append.mpr ⟨sorted, sorted', before⟩
  apply List.Perm.eq_of_pairwise _ whole pairwise_lt_range perm
  intro a b _ _ less less'
  omega

omit [DecidableEq H] in
/-- The ids of some groups go upwards. -/
theorem groupIdsWhere_sorted (cfg : KVConfig) (test : SpecKind → Bool) :
    (groupIdsWhere cfg test).Pairwise (· < ·) :=
  List.Pairwise.filter _ pairwise_lt_range

omit [DecidableEq H] in
/-- A group with a property has an id. -/
theorem groupIdsWhere_ne_nil (test : SpecKind → Bool) {spec : KVCacheSpec}
    (found : cfg.groups.find? (fun spec => test spec.kind) = some spec) :
    groupIdsWhere cfg test ≠ [] := by
  obtain ⟨i, atIndex⟩ := getElem?_of_mem (mem_of_find?_eq_some found)
  have below := (List.getElem?_eq_some_iff.mp atIndex).choose
  have passes := find?_some found
  refine ne_nil_of_mem (a := i) (mem_filter.mpr ⟨mem_range.mpr below, ?_⟩)
  rw [atIndex]
  exact passes

omit [DecidableEq H] in
/-- What relates the groups of both types to their lists relates all groups to the merged lists. -/
theorem forall₂_merged {R : Nat → List BlockId → Prop} {full other : List (List BlockId)}
    (contiguous : Contiguous cfg) (someFull : groupIdsWhere cfg isFull ≠ [])
    (someOther : (groupIdsWhere cfg fun kind => !isFull kind) ≠ [])
    (allFull : List.Forall₂ R (groupIdsWhere cfg isFull) full)
    (allOther : List.Forall₂ R (groupIdsWhere cfg fun kind => !isFull kind) other) :
    List.Forall₂ R (List.range cfg.groups.length)
      (if (decide ((groupIdsWhere cfg isFull).getLast?.getD 0 <
        (groupIdsWhere cfg fun kind => !isFull kind).headD 0)) = true then full ++ other
      else other ++ full) := by
  have last := getLast_mem someFull
  have first := head_mem someOther
  -- Which part comes first is read off the last full id and the first other id.
  rw [getLast?_eq_some_getLast someFull, headD_eq_head?_getD, head?_eq_some_head someOther]
  simp only [Option.getD_some]
  have perm := groupIdsWhere_perm cfg isFull
  have sorted := groupIdsWhere_sorted cfg isFull
  have sorted' := groupIdsWhere_sorted cfg fun kind => !isFull kind
  rcases contiguous with before | after
  · rw [if_pos (by simpa using before _ last _ first),
      ← groupIds_append perm sorted sorted' before]
    exact rel_append allFull allOther
  · have order := after _ last _ first
    rw [if_neg (by simp; omega), ← groupIds_append (perm_append_comm.trans perm) sorted' sorted
      fun j member i known => after i known j member]
    exact rel_append allOther allFull

/-- A lookup of the coordinator returns the hits of each group at the place of the group. -/
theorem findLongestHit_groupHits {maxLength : Int}
    (contiguous : cfg.enableCaching = true → Contiguous cfg)
    (table : TableInv kv.blockPool) (shape : kv.managers.length = cfg.groups.length)
    (done : findLongestHit cfg kv hashes maxLength = .ok (lists, numTokens)) :
    GroupHits cfg kv.blockPool hashes lists := by
  unfold findLongestHit at done
  split at done
  · rename_i enabled
    split at done
    · rename_i spec single
      obtain ⟨hit, found, built⟩ := bind_eq_ok.mp done
      cases built
      have all := findLongestCacheHit_spec table found
      unfold GroupHits
      rw [single]
      exact all
    · split at done
      · rename_i full other isFull' isOther
        obtain ⟨hitFull, hitOther, allFull, allOther, rfl⟩ := hybridHit_spec table done
        exact forall₂_merged (contiguous enabled) (groupIdsWhere_ne_nil isFull isFull')
          (groupIdsWhere_ne_nil (fun kind => !isFull kind) isOther) allFull allOther
      · cases done
  · cases done
    exact createEmptyBlockList_groupHits shape

/-- `get_computed_blocks` returns the hits of each group at the place of the group. -/
theorem getComputedBlocks_groupHits
    (contiguous : cfg.enableCaching = true → Contiguous cfg) (table : TableInv kv.blockPool)
    (shape : kv.managers.length = cfg.groups.length)
    (done : kv.getComputedBlocks cfg r = .ok (lists, numTokens)) :
    GroupHits cfg kv.blockPool r.blockHashes lists := by
  unfold getComputedBlocks at done
  split at done
  · cases done
    exact createEmptyBlockList_groupHits shape
  · exact findLongestHit_groupHits contiguous table shape done

end KVCacheManager

end Mimir
