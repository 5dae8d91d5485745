import Mimir.Kv.Ledger
import Mimir.Kv.Raises

/-! What allocating, caching and freeing the slots of one request does to the KV cache as a whole. -/

namespace Mimir

open Python List

variable {H : Type} {m m' : Manager} {id : RequestId} {p p' : BlockPool H} {ms ms' : List Manager}
  {r : Request H} {i : Nat} {n numTokens : Int} {b : BlockId}

variable {α β : Type}

variable {R : α → α → Prop} {as : List α} {bs : List β}

/-- Pointwise relations compose. -/
theorem forall₂_trans {S T : α → α → Prop} (compose : ∀ a b c, R a b → S b c → T a c)
    {bs cs : List α} (first : List.Forall₂ R as bs) (second : List.Forall₂ S bs cs) :
    List.Forall₂ T as cs := by
  induction first generalizing cs with
  | nil => cases second; exact .nil
  | cons here _ ih =>
    cases second with
    | cons here' rest' => exact .cons (compose _ _ _ here here') (ih rest')

/-- Every partner comes from the element at its index. -/
theorem forall₂_at {R : α → β → Prop}
    (related : List.Forall₂ R as bs) {b : β} (found : bs[i]? = some b) :
    ∃ a, as[i]? = some a ∧ R a b := by
  induction related generalizing i with
  | nil => simp at found
  | cons here _ ih =>
    cases i with
    | zero =>
      cases found
      exact ⟨_, rfl, here⟩
    | succ => exact ih found

/-- Every partner comes from an element. -/
theorem exists_of_forall₂ {R : α → β → Prop}
    (related : List.Forall₂ R as bs) {b : β} (member : b ∈ bs) : ∃ a ∈ as, R a b := by
  obtain ⟨i, found⟩ := mem_iff_getElem?.mp member
  obtain ⟨a, here, holds⟩ := forall₂_at related found
  exact ⟨a, mem_of_getElem? here, holds⟩

/-- What each element hands on to its partner, all elements hand on to all partners. -/
theorem forall_of_forall₂ {P Q : α → Prop}
    (keep : ∀ a b, R a b → P a → Q b) {bs : List α} (related : List.Forall₂ R as bs)
    (all : ∀ a ∈ as, P a) : ∀ b ∈ bs, Q b := by
  intro b member
  obtain ⟨a, earlier, here⟩ := exists_of_forall₂ related member
  exact keep a b here (all a earlier)

namespace Manager

/-- Outside cross-attention, a request with blocks has a count of cached blocks. -/
def Tracked (m : Manager) : Prop :=
  m.spec.kind ≠ .crossAttention → ∀ id, m.blocksOf id ≠ [] → id ∈ m.numCachedBlock.keys

variable (tracked : m.Tracked)

include tracked

/-- Other requests are tracked as before. -/
theorem Tracked.other (sole : Sole id m m')
    (own : m.spec.kind ≠ .crossAttention → m'.blocksOf id ≠ [] → id ∈ m'.numCachedBlock.keys) :
    m'.Tracked := by
  intro kind other nonempty
  rw [sole.spec] at kind
  by_cases same : other = id
  · subst same; exact own kind nonempty
  · rw [sole.blocks other same] at nonempty
    have known := tracked kind other nonempty
    rw [PyDict.mem_keys_iff] at known ⊢
    rw [sole.cached other same]
    exact known

theorem Tracked.freed (freed : Freed id m m') : m'.Tracked :=
  tracked.other freed.toSole fun _ nonempty => absurd freed.noBlocks nonempty

theorem Tracked.skipped (skipped : Skipped id n m m') : m'.Tracked :=
  tracked.other skipped.toSole fun kind nonempty => by
    rw [skipped.counts]
    refine tracked kind id fun empty => nonempty ?_
    rw [← length_eq_zero_iff, skipped.length, empty, length_nil]

theorem Tracked.saved (saved : Saved id m m') : m'.Tracked :=
  tracked.other saved.toSole fun kind _ => saved.known kind

theorem Tracked.recached (recached : Recached id n m m') : m'.Tracked :=
  tracked.other recached.toSole fun _ _ => recached.known

end Manager

namespace KVCacheManager

variable {cfg : KVConfig} {kv kv' : KVCacheManager H}

/-- A real block in the list of another request. -/
def Guarded (ms : List Manager) (id : RequestId) (b : BlockId) : Prop :=
  b ≠ nullBlock ∧ ∃ m ∈ ms, ∃ other, other ≠ id ∧ b ∈ m.blocksOf other

/-- What an operation for one request leaves alone. -/
structure Aside (id : RequestId) (p : BlockPool H) (ms : List Manager) (p' : BlockPool H)
    (ms' : List Manager) : Prop where
  soles : List.Forall₂ (Manager.Sole id) ms ms'
  size : p'.numGpuBlocks = p.numGpuBlocks
  caching : p'.enableCaching = p.enableCaching
  hash : ∀ b key, Guarded ms id b → (p.blocks b).blockHash = some key →
    (p'.blocks b).blockHash = some key

/-- Blocks of other requests stay theirs. -/
theorem Guarded.soles (guarded : Guarded ms id b)
    (soles : List.Forall₂ (Manager.Sole id) ms ms') : Guarded ms' id b := by
  obtain ⟨real, m, known, other, apart, member⟩ := guarded
  obtain ⟨m', known', sole⟩ := exists_of_forall₂ soles.flip known
  exact ⟨real, m', known', other, apart, by rw [sole.blocks other apart]; exact member⟩

namespace Aside

variable {p'' : BlockPool H} {ms'' : List Manager}

/-- Nothing is served by doing nothing. -/
theorem refl (id : RequestId) (p : BlockPool H) (ms : List Manager) : Aside id p ms p ms :=
  ⟨forall₂_same.mpr fun m _ => .refl id m, rfl, rfl, fun _ _ _ hashed => hashed⟩

theorem trans (first : Aside id p ms p' ms') (second : Aside id p' ms' p'' ms'') :
    Aside id p ms p'' ms'' where
  soles := forall₂_trans (fun _ _ _ a b => a.trans b) first.soles second.soles
  size := second.size.trans first.size
  caching := second.caching.trans first.caching
  hash b key guarded hashed :=
    second.hash b key (guarded.soles first.soles) (first.hash b key guarded hashed)

variable (soles : List.Forall₂ (Manager.Sole id) ms ms')

include soles

/-- Where no hash changes. -/
theorem of_same (same : SameHashes p p') :
    Aside id p ms p' ms' :=
  ⟨soles, same.size, same.caching, fun b key _ hashed => by rw [same.hash]; exact hashed⟩

/-- Where every hash stays. -/
theorem of_stay (stay : HashesStay p p') :
    Aside id p ms p' ms' :=
  ⟨soles, stay.size, stay.caching, fun b key _ hashed => stay.hash b key hashed⟩

/-- Where held blocks keep their hashes. -/
theorem of_held {held : BlockId → Nat}
    (kept : HeldKept p p' held) (covers : ∀ b, occurrences ms b ≤ held b) :
    Aside id p ms p' ms' := by
  refine ⟨soles, kept.size, kept.caching, fun b key guarded hashed => ?_⟩
  obtain ⟨real, m, known, other, _, member⟩ := guarded
  have occurs := occurrences_pos known member
  rw [kept.hash b real (Nat.lt_of_lt_of_le occurs (covers b))]
  exact hashed

end Aside

variable [DecidableEq H]

omit [DecidableEq H] in
/-- Work for one request leaves the layout alone. -/
theorem layout_eq (soles : List.Forall₂ (Manager.Sole id) ms ms') :
    ms'.map Manager.layout = ms.map Manager.layout := by
  induction soles with
  | nil => rfl
  | cons here _ ih =>
    rw [map_cons, map_cons, ih]
    unfold Manager.layout
    rw [here.spec, here.blockSize, here.group]

/-- The block size of a group's manager: over all context-parallel ranks. -/
def groupSize (cfg : KVConfig) (spec : KVCacheSpec) : Nat :=
  if cfg.dcpWorldSize > 1 then spec.blockSize * cfg.dcpWorldSize else spec.blockSize

/-- The KV cache in balance: every block is held exactly as often as the block lists say. -/
structure Balanced (cfg : KVConfig) (kv : KVCacheManager H) : Prop where
  ledger : Ledger kv.blockPool kv.managers fun _ => 0
  layout : kv.managers.map Manager.layout =
    (KVCacheManager.init cfg : KVCacheManager H).managers.map Manager.layout
  size : kv.blockPool.numGpuBlocks = cfg.numBlocks
  caching : kv.blockPool.enableCaching = cfg.enableCaching
  tracked : ∀ m ∈ kv.managers, m.Tracked

namespace Balanced

variable (balanced : Balanced cfg kv)

include balanced

/-- There is one manager for each group. -/
theorem groups : kv.managers.length = cfg.groups.length := by
  have lengths := congrArg List.length balanced.layout
  rw [length_map, length_map] at lengths
  exact lengths.trans length_mapIdx

/-- The managers stand for the groups in their order. -/
theorem group_at (found : kv.managers[i]? = some m) :
    cfg.groups[i]? = some m.spec ∧ m.blockSize = groupSize cfg m.spec ∧ m.kvCacheGroupId = i := by
  have same := congrArg (·[i]?) balanced.layout
  simp only [getElem?_map, found, KVCacheManager.init, getElem?_mapIdx, Option.map_some]
    at same
  cases at_i : cfg.groups[i]? with
  | none => simp [at_i] at same
  | some =>
    simp only [at_i, Option.map_some, Option.some.injEq, Manager.layout, Manager.init,
      Prod.mk.injEq] at same
    obtain ⟨spec_eq, size, group⟩ := same
    refine ⟨by rw [spec_eq], ?_, group⟩
    rw [size, spec_eq]
    rfl

/-- What a manager manages is a group. -/
theorem spec_mem (member : m ∈ kv.managers) : m.spec ∈ cfg.groups := by
  obtain ⟨i, found⟩ := getElem?_of_mem member
  exact mem_of_getElem? (balanced.group_at found).1

/-- The reference count of a real block is the number of its occurrences. -/
theorem refCnt_eq (real : b ≠ nullBlock) :
    (kv.blockPool.blocks b).refCnt = occurrences kv.managers b := by
  have counted := balanced.ledger.pool.counted b real
  simpa using counted

omit balanced in
/-- A cache without requests is in balance. -/
theorem init (cfg : KVConfig) : Balanced cfg (KVCacheManager.init cfg : KVCacheManager H) := by
  have blocksOf : ∀ m ∈ (KVCacheManager.init cfg : KVCacheManager H).managers, ∀ id,
      m.blocksOf id = [] := by
    intro m member id
    obtain ⟨i, _, rfl⟩ := mem_mapIdx.mp member
    rfl
  refine ⟨⟨?_, ?_⟩, ?_, rfl, rfl, ?_⟩
  · refine (PoolInv.init cfg.blocksPositive cfg.enableCaching).congr fun b _ => ?_
    rw [occurrences_eq_zero blocksOf]
  · intro m member id b _
    rw [blocksOf m member]
    simp
  · rfl
  · intro m member _ id nonempty
    exact absurd (blocksOf m member id) nonempty

/-- The balance after an operation for one request. -/
theorem of_aside (kv' : KVCacheManager H) (ledger : Ledger kv'.blockPool kv'.managers fun _ => 0)
    (aside : Aside id kv.blockPool kv.managers kv'.blockPool kv'.managers)
    (tracked : ∀ m ∈ kv'.managers, m.Tracked) : Balanced cfg kv' where
  ledger := ledger
  layout := (layout_eq aside.soles).trans balanced.layout
  size := aside.size.trans balanced.size
  caching := aside.caching.trans balanced.caching
  tracked := tracked

/-- Freeing a request gives all its blocks back. -/
theorem free (id : RequestId) :
    Balanced cfg (kv.free id) ∧
      Aside id kv.blockPool kv.managers (kv.free id).blockPool (kv.free id).managers ∧
      List.Forall₂ (Manager.Freed id) kv.managers (kv.free id).managers := by
  obtain ⟨ledger, same, freed⟩ := balanced.ledger.freeAll id
  have aside : Aside id kv.blockPool kv.managers (kv.free id).blockPool (kv.free id).managers :=
    .of_same (freed.imp fun _ _ here => here.toSole) same
  refine ⟨balanced.of_aside _ ledger aside ?_, aside, freed⟩
  exact forall_of_forall₂ (fun _ _ here tracked => Manager.Tracked.freed tracked here) freed
    balanced.tracked

/-- Caching the full blocks of a request. -/
theorem cacheAll (enabled : cfg.enableCaching = true)
    (done : KVCacheManager.cacheAll (cfg.event r) r.requestId r.blockHashes numTokens kv.managers
      kv.blockPool = .ok (ms, p)) :
    Balanced cfg ⟨p, ms⟩ ∧ Aside r.requestId kv.blockPool kv.managers p ms ∧
      List.Forall₂ (Manager.Recached r.requestId numTokens) kv.managers ms := by
  obtain ⟨ledger, stay, recached⟩ := balanced.ledger.cacheAll (by rw [balanced.caching, enabled]) done
  have aside : Aside r.requestId kv.blockPool kv.managers p ms :=
    .of_stay (recached.imp fun _ _ here => here.toSole) stay
  refine ⟨balanced.of_aside ⟨p, ms⟩ ledger aside ?_, aside, recached⟩
  exact forall_of_forall₂ (fun _ _ here tracked => Manager.Tracked.recached tracked here) recached
    balanced.tracked

end Balanced

/-- Two states of the cache with the same block lists for a request. -/
theorem listed_eq {R : Manager → Manager → Prop}
    (related : List.Forall₂ R ms ms') (same : ∀ m m', R m m' → m'.blocksOf id = m.blocksOf id) :
    listed ms' id = listed ms id := by
  induction related with
  | nil => rfl
  | cons here _ ih =>
    unfold listed at ih ⊢
    rw [flatMap_cons, flatMap_cons, same _ _ here, ih]

omit [DecidableEq H] in
/-- Work for one request leaves the block lists of the others alone. -/
theorem getBlocks_eq (soles : List.Forall₂ (Manager.Sole id) kv.managers kv'.managers)
    {other : RequestId} (apart : other ≠ id) : kv'.getBlocks other = kv.getBlocks other := by
  unfold getBlocks
  generalize kv.managers = ms at soles
  generalize kv'.managers = ms' at soles
  induction soles with
  | nil => rfl
  | cons here _ ih => rw [map_cons, map_cons, here.blocks other apart, ih]

variable {args : AllocArgs}

variable {hashes : List H} {hits new : List (List BlockId)}

/-- Looked-up blocks lie within the pool. -/
theorem Lookup.below {lists : List (List BlockId)}
    (lookup : Lookup cfg p hashes lists) (positive : 0 < p.numGpuBlocks) (table : TableInv p) :
    ∀ b ∈ lists.flatten, b < p.numGpuBlocks := by
  intro b member
  obtain ⟨hit, known, member⟩ := mem_flatten.mp member
  obtain ⟨g, hits⟩ := lookup.hits hit known
  obtain ⟨i, found⟩ := getElem?_of_mem member
  rcases hits i b found with rfl | ⟨h, _, hashed⟩
  · exact positive
  · exact table.within b _ hashed

/-- The hits are touched: each has one more holder, outside the lists for now. -/
theorem touchComputed_spec (ledger : Ledger p ms fun _ => 0)
    (lookup : Lookup cfg p hashes hits) (done : touchComputed cfg p hits = .ok p') :
    Ledger p' ms (fun b => hits.flatten.count b + 0) ∧ SameHashes p p' := by
  unfold touchComputed at done
  split at done
  · obtain ⟨pool, same⟩ := ledger.pool.touch
      (lookup.below ledger.pool.positive ledger.pool.table) done
    exact ⟨⟨pool.congr fun b _ => by omega, ledger.distinct⟩, same⟩
  · obtain ⟨_, none, built⟩ := bind_eq_ok.mp done
    cases built
    have empty : hits.flatten = [] := flatten_eq_nil_iff.mpr (require_eq_ok.mp none)
    exact ⟨ledger.congr fun b _ => by simp [empty], .refl _⟩

omit [DecidableEq H] in
/-- Each group saves its own hits. -/
theorem saveNewComputedBlocks_at (done : saveNewComputedBlocks id ms hits = .ok ms')
    (found : ms'[i]? = some m') :
    ∃ m, ms[i]? = some m ∧ m.saveNewComputedBlocks id (hits.getD i []) = .ok m' := by
  induction ms generalizing hits ms' i with
  | nil =>
    cases done
    simp at found
  | cons m ms ih =>
    obtain ⟨m₁, first, tail⟩ := bind_eq_ok.mp done
    obtain ⟨ms₁, last, built⟩ := bind_eq_ok.mp tail
    cases built
    cases i with
    | zero =>
      cases found
      refine ⟨m, rfl, ?_⟩
      cases hits <;> exact first
    | succ =>
      obtain ⟨old, before, saved⟩ := ih last found
      refine ⟨old, before, ?_⟩
      cases hits <;> exact saved

/-- What a committed call did to the list and the count of its request in one group. -/
structure Gains (cfg : KVConfig) (r : Request H) (args : AllocArgs) (hit : List BlockId)
    (m m' : Manager) : Prop extends Manager.Sole r.requestId m m' where
  list : ∃ new, (∀ b ∈ new, b ≠ nullBlock) ∧
    m'.blocksOf r.requestId = m.blocksOf r.requestId ++ hit ++ new
  length : ((m'.blocksOf r.requestId).length : Int) =
    max ((m.blocksOf r.requestId).length + hit.length : Int)
      (m.required (tokensNeedSlot cfg r args) args.numEncoderTokens)
  count : (m'.numCachedBlock.get? r.requestId).getD 0 =
    if cfg.enableCaching = true ∧ args.delayCacheBlocks = false then
      (tokensToCache r args).fdiv m.blockSize
    else (m.numCachedBlock.get? r.requestId).getD 0 + hit.length

omit [DecidableEq H] in
/-- A group saves its hits, gets the blocks it misses, and caches what is full. -/
theorem Gains.of_parts {hit : List BlockId} {m₁ m₂ m₃ m₄ : Manager} (sole : Manager.Sole r.requestId m₁ m₂)
    (saved : m₁.saveNewComputedBlocks r.requestId hit = .ok m₂)
    (extended : Manager.Extended r.requestId (tokensNeedSlot cfg r args) args.numEncoderTokens m₂ m₃)
    (cached : ((cfg.enableCaching = false ∨ args.delayCacheBlocks = true) ∧ m₄ = m₃) ∨
      cfg.enableCaching = true ∧ args.delayCacheBlocks = false ∧
        Manager.Recached r.requestId (tokensToCache r args) m₃ m₄) : Gains cfg r args hit m₁ m₄ := by
  have list₂ := Manager.saveNewComputedBlocks_list saved
  obtain ⟨new, real, list₃⟩ := extended.grown
  -- The count before caching.
  have count₂ : (m₂.numCachedBlock.get? r.requestId).getD 0 =
      (m₁.numCachedBlock.get? r.requestId).getD 0 + hit.length := by
    rcases Manager.saveNewComputedBlocks_cases saved with ⟨rfl, rfl, _⟩ | ⟨_, _, unknown, rfl⟩
    · simp
    · rw [PyDict.get?_eq_none_iff.mpr unknown]
      show (((m₁.numCachedBlock.set r.requestId hit.length).get? r.requestId).getD 0) = _
      simp
  have length₃ := extended.length
  rw [list₂, length_append, Manager.required_eq sole.spec sole.blockSize] at length₃
  push_cast at length₃
  rw [list₂] at list₃
  have before := sole.trans extended.toSole
  rcases cached with ⟨off, rfl⟩ | ⟨enabled, now, recached⟩
  · refine ⟨before, ⟨new, real, list₃⟩, length₃, ?_⟩
    rw [extended.counts, count₂, if_neg ?_]
    rintro ⟨enabled, now⟩
    rcases off with disabled | delayed
    · rw [enabled] at disabled
      cases disabled
    · rw [now] at delayed
      cases delayed
  · refine ⟨before.trans recached.toSole, ⟨new, real, recached.list.trans list₃⟩, ?_, ?_⟩
    · rw [recached.list]
      exact length₃
    · rw [recached.count, if_pos ⟨enabled, now⟩, before.blockSize]
      rfl

variable (balanced : Balanced cfg kv)

include balanced

/-- The part of `allocate_slots` behind the check of the free blocks. -/
theorem commitSlots_spec
    (nodup : r.blockHashes.Nodup) (lookup : Lookup cfg kv.blockPool r.blockHashes hits)
    (done : commitSlots cfg kv r args hits = .ok (new, kv')) :
    Balanced cfg kv' ∧ Aside r.requestId kv.blockPool kv.managers kv'.blockPool kv'.managers ∧
      (∀ b ∈ listed kv'.managers r.requestId,
        b ∈ listed kv.managers r.requestId ∨ b ∈ hits.flatten ∨ b ∈ new.flatten) ∧
      new.length = kv.managers.length ∧
      (∀ m ∈ kv'.managers, m.spec.kind ≠ .crossAttention →
        r.requestId ∈ m.numCachedBlock.keys) ∧
      ∀ i m', kv'.managers[i]? = some m' → ∃ m, kv.managers[i]? = some m ∧
        Gains cfg r args (hits.getD i []) m m' := by
  obtain ⟨p₁, ms₂, ms₃, p₃, touched, save, allocate, cache⟩ := commitSlots_cases done
  obtain ⟨ledger₁, same₁⟩ := touchComputed_spec balanced.ledger lookup touched
  obtain ⟨ledger₂, saved, origin₂⟩ := ledger₁.saveNewComputedBlocks
    (by rw [balanced.groups]; exact lookup.length.le)
    (fun hit member b real => by
      obtain ⟨g, hits⟩ := lookup.hits hit member
      exact hits.count_le_one nodup real) save
  obtain ⟨ledger₃, kept₃, extended, count₃, origin₃⟩ := ledger₂.allocateNewBlocks allocate
  have count : new.length = kv.managers.length := count₃.trans saved.length_eq.symm
  have aside₂ : Aside r.requestId kv.blockPool kv.managers p₁ ms₂ :=
    .of_same (saved.imp fun _ _ here => here.toSole) same₁
  have aside₃ : Aside r.requestId p₁ ms₂ p₃ ms₃ :=
    .of_held (extended.imp fun _ _ here => here.toSole) kept₃ fun b => by omega
  have known₂ : ∀ m ∈ ms₂, m.spec.kind ≠ .crossAttention → r.requestId ∈ m.numCachedBlock.keys :=
    forall_of_forall₂ (P := fun _ => True)
      (fun m m' here _ kind => here.known (by rw [here.spec] at kind; exact kind)) saved
      fun _ _ => trivial
  have known₃ : ∀ m ∈ ms₃, m.spec.kind ≠ .crossAttention → r.requestId ∈ m.numCachedBlock.keys :=
    forall_of_forall₂ (fun m m' here known kind => by
      rw [here.counts]
      exact known (by rw [here.spec] at kind; exact kind)) extended known₂
  have tracked₂ : ∀ m ∈ ms₂, m.Tracked :=
    forall_of_forall₂ (fun _ _ here tracked => Manager.Tracked.saved tracked here) saved
      balanced.tracked
  have tracked₃ : ∀ m ∈ ms₃, m.Tracked := by
    intro m member
    obtain ⟨m₂, earlier, here⟩ := exists_of_forall₂ extended member
    exact (tracked₂ m₂ earlier).other here.toSole fun kind _ =>
      known₃ m member (by rw [here.spec]; exact kind)
  have balanced₃ : Balanced cfg ⟨p₃, ms₃⟩ :=
    balanced.of_aside ⟨p₃, ms₃⟩ ledger₃ (aside₂.trans aside₃) tracked₃
  have origin : ∀ b ∈ listed ms₃ r.requestId,
      b ∈ listed kv.managers r.requestId ∨ b ∈ hits.flatten ∨ b ∈ new.flatten := by
    intro b member
    rcases origin₃ b member with old | fresh
    · rcases origin₂ b old with older | hit
      · exact .inl older
      · exact .inr (.inl hit)
    · exact .inr (.inr fresh)
  -- What the first three parts did to one group.
  have parts : ∀ {i m₃}, ms₃[i]? = some m₃ → ∃ m m₂, kv.managers[i]? = some m ∧
      Manager.Sole r.requestId m m₂ ∧
      m.saveNewComputedBlocks r.requestId (hits.getD i []) = .ok m₂ ∧
      Manager.Extended r.requestId (tokensNeedSlot cfg r args) args.numEncoderTokens m₂ m₃ := by
    intro i m₃ found
    obtain ⟨m₂, found₂, extends_⟩ := forall₂_at extended found
    obtain ⟨m, found₁, saves⟩ := saveNewComputedBlocks_at save found₂
    obtain ⟨m', found', same⟩ := forall₂_at saved found₂
    rw [found₁] at found'
    cases found'
    exact ⟨m, m₂, found₁, same.toSole, saves, extends_⟩
  rcases kv' with ⟨p₄, ms₄⟩
  rcases cacheCommitted_cases cache with ⟨off, rfl, rfl⟩ | ⟨enabled, now, cached⟩
  · refine ⟨balanced₃, aside₂.trans aside₃, origin, count, known₃, fun i m' found => ?_⟩
    obtain ⟨m, m₂, before, sole, saves, extends_⟩ := parts found
    exact ⟨m, before, .of_parts sole saves extends_ (.inl ⟨off, rfl⟩)⟩
  · obtain ⟨balanced₄, aside₄, recached⟩ := balanced₃.cacheAll enabled cached
    refine ⟨balanced₄, (aside₂.trans aside₃).trans aside₄, ?_, count, ?_, fun i m' found => ?_⟩
    · rw [listed_eq recached fun m m' here => here.list]
      exact origin
    · intro m member _
      obtain ⟨_, _, here⟩ := exists_of_forall₂ recached member
      exact here.known
    · obtain ⟨m₃, found₃, here⟩ := forall₂_at recached found
      obtain ⟨m, m₂, before, sole, saves, extends_⟩ := parts found₃
      exact ⟨m, before, .of_parts sole saves extends_ (.inr ⟨enabled, now, here⟩)⟩

/-- Removing skipped blocks keeps the balance and every hash. -/
theorem Balanced.removeSkippedBlocks {numComputedTokens : Int}
    (done : KVCacheManager.removeSkippedBlocks id numComputedTokens kv.managers kv.blockPool =
      .ok (ms, p)) :
    Balanced cfg ⟨p, ms⟩ ∧ Aside id kv.blockPool kv.managers p ms ∧ SameHashes kv.blockPool p ∧
      List.Forall₂ (Manager.Skipped id numComputedTokens) kv.managers ms := by
  obtain ⟨ledger, same, skipped⟩ := balanced.ledger.removeSkippedBlocks done
  have aside : Aside id kv.blockPool kv.managers p ms :=
    .of_same (skipped.imp fun _ _ here => here.toSole) same
  refine ⟨balanced.of_aside ⟨p, ms⟩ ledger aside ?_, aside, same, skipped⟩
  exact forall_of_forall₂ (fun _ _ here tracked => Manager.Tracked.skipped tracked here) skipped
    balanced.tracked

/-- A refused call of `allocate_slots` has removed skipped blocks and done nothing else. -/
theorem allocateSlots_refused (done : kv.allocateSlots cfg r args = .ok (none, kv')) :
    Balanced cfg kv' ∧
      Aside r.requestId kv.blockPool kv.managers kv'.blockPool kv'.managers ∧
      List.Forall₂ (Manager.Skipped r.requestId r.numComputedTokens) kv.managers kv'.managers := by
  obtain ⟨ms, p, skip, ⟨_, rfl⟩ | ⟨_, some, _⟩⟩ := allocateSlots_cases done
  · obtain ⟨after, aside, _, skipped⟩ := balanced.removeSkippedBlocks skip
    exact ⟨after, aside, skipped⟩
  · cases some

/-- What a successful call of `allocate_slots` did. -/
structure Granted (cfg : KVConfig) (kv : KVCacheManager H) (r : Request H) (args : AllocArgs)
    (new : List (List BlockId)) (kv' : KVCacheManager H) : Prop where
  balanced : Balanced cfg kv'
  aside : Aside r.requestId kv.blockPool kv.managers kv'.blockPool kv'.managers
  origin : ∀ b ∈ listed kv'.managers r.requestId, b ≠ nullBlock →
    b ∈ listed kv.managers r.requestId ∨ b ∈ (args.newComputedBlocks.getD []).flatten ∨
      b ∈ new.flatten
  count : new.length = kv.managers.length
  known : ∀ m ∈ kv'.managers, m.spec.kind ≠ .crossAttention → r.requestId ∈ m.numCachedBlock.keys
  groups : ∀ i m', kv'.managers[i]? = some m' → ∃ m m₁, kv.managers[i]? = some m ∧
    Manager.Skipped r.requestId r.numComputedTokens m m₁ ∧
    Gains cfg r args ((kv.givenHits args).getD i []) m₁ m'

/-- A successful call of `allocate_slots` keeps the balance, and touches nothing of other requests. -/
theorem allocateSlots_granted (nodup : r.blockHashes.Nodup)
    (lookup : ∀ hits, args.newComputedBlocks = some hits → Lookup cfg kv.blockPool r.blockHashes hits)
    (done : kv.allocateSlots cfg r args = .ok (some new, kv')) : Granted cfg kv r args new kv' := by
  obtain ⟨ms₁, p₁, skip, ⟨none, _⟩ | ⟨_, some, commit⟩⟩ := allocateSlots_cases done
  · cases none
  · cases some
    obtain ⟨balanced₁, aside₁, same₁, skipped⟩ := balanced.removeSkippedBlocks skip
    -- Freeing skipped blocks changes no hash, so the hits are hits still.
    have before : Lookup cfg kv.blockPool r.blockHashes (kv.givenHits args) := by
      unfold givenHits
      cases given : args.newComputedBlocks with
      | none => exact createEmptyBlockList_lookup balanced.groups
      | some hits => exact lookup hits given
    have lookup₁ : Lookup cfg p₁ r.blockHashes (kv.givenHits args) := by
      refine ⟨before.length, fun hit member => ?_⟩
      obtain ⟨g, hits⟩ := before.hits hit member
      exact ⟨g, hits.same same₁.hash⟩
    obtain ⟨balanced₂, aside₂, origin₂, count₂, known₂, gains⟩ :=
      commitSlots_spec balanced₁ nodup lookup₁ commit
    refine ⟨balanced₂, aside₁.trans aside₂, fun b member real => ?_,
      count₂.trans aside₁.soles.length_eq.symm, known₂, fun i m' found => ?_⟩
    swap
    · obtain ⟨m₁, found₁, gain⟩ := gains i m' found
      obtain ⟨m, before, skips⟩ := forall₂_at skipped found₁
      exact ⟨m, m₁, before, skips, gain⟩
    rcases origin₂ b member with old | hit | fresh
    · left
      obtain ⟨m₁, known, member⟩ := mem_flatMap.mp old
      obtain ⟨m, earlier, here⟩ := exists_of_forall₂ skipped known
      exact mem_flatMap.mpr ⟨m, earlier, here.kept member real⟩
    · refine .inr (.inl ?_)
      unfold givenHits at hit
      cases given : args.newComputedBlocks with
      | none =>
        rw [given] at hit
        obtain ⟨list, known, member⟩ := mem_flatten.mp hit
        obtain ⟨_, _, rfl⟩ := mem_map.mp known
        cases member
      | some => rw [given] at hit; exact hit
    · exact .inr (.inr fresh)

/-- A request without slots, or without hits, can always save its hits. -/
def Savable (ms : List Manager) (id : RequestId) (hits : List (List BlockId)) : Prop :=
  (∀ hit ∈ hits, hit = []) ∨
    ∀ m ∈ ms, m.spec.kind ≠ .crossAttention ∧ id ∉ m.numCachedBlock.keys

omit balanced in
/-- Saving hits that can be saved raises nothing. -/
theorem saveNewComputedBlocks_sat
    {fail : Err → Prop} (tracked : ∀ m ∈ ms, m.Tracked) (savable : Savable ms id hits) :
    Sat (saveNewComputedBlocks id ms hits) (fun _ => True) fail := by
  induction ms generalizing hits with
  | nil => exact Sat.ok trivial
  | cons m ms ih =>
    have here : hits.headD [] = [] ∨
        (m.spec.kind ≠ .crossAttention ∧ id ∉ m.numCachedBlock.keys) := by
      rcases savable with none | free
      · left
        cases hits with
        | nil => rfl
        | cons hit => exact none hit (mem_cons_self ..)
      · exact .inr (free m (mem_cons_self ..))
    have later : Savable ms id hits.tail := by
      rcases savable with none | free
      · exact .inl fun hit member => none hit (mem_of_mem_tail member)
      · exact .inr fun m member => free m (mem_cons_of_mem _ member)
    refine Sat.bind (Q := fun _ => True) ?_ fun _ _ =>
      Sat.bind (ih (fun m member => tracked m (mem_cons_of_mem _ member)) later)
        fun _ _ => Sat.ok trivial
    unfold Manager.saveNewComputedBlocks
    split
    · -- Cross-attention has no hits.
      rename_i cross
      have none := here.resolve_right fun free => free.1 cross
      exact Sat.bind (Sat.require fun some => absurd none some) fun _ _ => Sat.ok trivial
    · rename_i cross
      split
      · -- A request with a count of cached blocks has no hits.
        rename_i known
        have none := here.resolve_right fun free => free.2 known
        exact Sat.bind (Sat.require fun some => absurd none some) fun _ _ => Sat.ok trivial
      · -- A request without such a count has no blocks.
        rename_i unknown
        have empty : m.blocksOf id = [] := by
          by_contra nonempty
          exact unknown (tracked m (mem_cons_self ..) cross id nonempty)
        exact Sat.bind (Sat.require fun some => absurd empty some) fun _ _ => Sat.ok trivial

/-- `allocate_slots` for hits that can be saved raises nothing about saving them. -/
theorem allocateSlots_sat (savable : Savable kv.managers r.requestId (args.newComputedBlocks.getD [])) :
    Sat (kv.allocateSlots cfg r args) (fun _ => True) Unrelated := by
  refine Sat.guarded (by simp [Unrelated]) fun _ => ?_
  refine Sat.bind (removeSkippedBlocks_sat _ _ _ _).self ?_
  rintro ⟨ms, p⟩ ⟨skip, _⟩
  obtain ⟨after, _, _, skipped⟩ := balanced.removeSkippedBlocks skip
  -- Skipped blocks leave the counts of cached blocks as they are.
  have still : Savable ms r.requestId (args.newComputedBlocks.getD kv.createEmptyBlockList) := by
    rcases savable with none | free
    · left
      intro hit member
      cases given : args.newComputedBlocks with
      | none =>
        rw [given] at member
        obtain ⟨_, _, rfl⟩ := mem_map.mp member
        rfl
      | some =>
        rw [given] at none member
        exact none hit member
    · refine .inr (forall_of_forall₂ (fun m m' here free => ?_) skipped free)
      rw [here.spec, here.counts]
      exact free
  dsimp only
  split
  · exact Sat.ok trivial
  · refine Sat.bind (Q := fun _ => True) ?_ fun _ _ => Sat.ok trivial
    refine Sat.bind (Q := fun _ => True) ?_ fun _ _ => ?_
    · unfold touchComputed
      split
      · exact touch_sat _ _
      · exact Sat.guarded (by simp [Unrelated]) fun _ => Sat.ok trivial
    refine Sat.bind (saveNewComputedBlocks_sat after.tracked still) fun _ _ => ?_
    refine Sat.bind (allocateNewBlocks_sat _ _ _ _ _) fun _ _ => ?_
    refine Sat.bind (Q := fun _ => True) ?_ fun _ _ => Sat.ok trivial
    unfold cacheCommitted
    split
    · exact Sat.ok trivial
    · exact cacheAll_sat _ _ _ _ _ _

/-- Caching the full blocks of a request that arrived keeps the balance. -/
theorem Balanced.cacheBlocks (done : kv.cacheBlocks cfg r numTokens = .ok kv') :
    Balanced cfg kv' ∧
      Aside r.requestId kv.blockPool kv.managers kv'.blockPool kv'.managers ∧
      List.Forall₂ (fun m m' => m'.reqToBlocks = m.reqToBlocks) kv.managers kv'.managers := by
  rcases cacheBlocks_cases done with ⟨_, rfl⟩ | ⟨enabled, cached⟩
  · exact ⟨balanced, .refl _ _ _, forall₂_same.mpr fun _ _ => rfl⟩
  · obtain ⟨after, aside, recached⟩ := balanced.cacheAll enabled cached
    exact ⟨after, aside, recached.imp fun _ _ here => here.lists⟩

/-- Resetting the cache keeps the balance, and forgets hashes only when nothing is held. -/
theorem Balanced.resetPrefixCache :
    Balanced cfg kv.resetPrefixCache.2 ∧ (kv.resetPrefixCache.2 = kv ∨
      ∀ b, b ≠ nullBlock → occurrences kv.managers b = 0) := by
  obtain ⟨pool, what⟩ := balanced.ledger.pool.resetPrefixCache
  have size : kv.resetPrefixCache.2.blockPool.numGpuBlocks = cfg.numBlocks ∧
      kv.resetPrefixCache.2.blockPool.enableCaching = cfg.enableCaching := by
    rcases what with eq | ⟨_, _, size, caching⟩
    · exact ⟨(congrArg BlockPool.numGpuBlocks eq).trans balanced.size,
        (congrArg BlockPool.enableCaching eq).trans balanced.caching⟩
    · exact ⟨size.trans balanced.size, caching.trans balanced.caching⟩
  refine ⟨⟨⟨pool, balanced.ledger.distinct⟩, balanced.layout, size.1, size.2, balanced.tracked⟩, ?_⟩
  rcases what with eq | ⟨unheld, _⟩
  · left
    show ({ kv with blockPool := kv.blockPool.resetPrefixCache.2 } : KVCacheManager H) = kv
    rw [eq]
  · exact .inr fun b real => by simpa using unheld b real

/-- With all lists empty, all blocks but the placeholder are free and the cache can be reset. -/
theorem Balanced.all_free (empty : ∀ m ∈ kv.managers, ∀ id, m.blocksOf id = []) :
    kv.blockPool.freeBlockQueue.length = cfg.numBlocks - 1 ∧ kv.resetPrefixCache.1 = true := by
  have unheld : ∀ b, b ≠ nullBlock → occurrences kv.managers b + 0 = 0 := by
    intro b _
    rw [occurrences_eq_zero empty]
  have free := balanced.ledger.pool.length_queue_of_unheld unheld
  refine ⟨by rw [free, balanced.size], ?_⟩
  exact (PoolInv.resetPrefixCache_fst _ balanced.ledger.pool.positive).mpr free

end KVCacheManager

end Mimir
